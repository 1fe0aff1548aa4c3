import FrontEnd.Proofs.Typing.Items

/-! # Checkers for the standard prelude

Under the standard prelude the name of the integer type is the only constant. -/

namespace FrontEnd

variable {hash : Hasher}

/-- The constants of the standard prelude, in a unit with some names. -/
def standardConstants (names : Interner hash.text) : Constants := fun name =>
  if names.text? name = some BaseType.int32.name then
    some ⟨BaseType.int32.exprId, BaseType.type.typeId⟩
  else none

theorem standardConstants_eq_some_iff {names : Interner hash.text} {name : Name}
    {binding : ConstantBinding} : standardConstants names name = some binding ↔
      names.text? name = some BaseType.int32.name ∧
        binding = ⟨BaseType.int32.exprId, BaseType.type.typeId⟩ := by
  unfold standardConstants
  split
  · rename_i htext
    simp [htext, eq_comm]
  · rename_i htext
    simp [htext]

theorem Interner.Extends.standardConstants {names later : Interner hash.text}
    (h : names.Extends later) :
    (standardConstants names).Within (FrontEnd.standardConstants later) := by
  intro name binding hname
  obtain ⟨htext, hbinding⟩ := standardConstants_eq_some_iff.mp hname
  exact standardConstants_eq_some_iff.mpr ⟨h.text? htext, hbinding⟩

namespace CompilationUnit

variable {constants : Constants} {u v : CompilationUnit hash}

theorem Sound.standard (h : u.Sound constants)
    (hwithin : constants.Within (standardConstants u.names)) :
    u.Sound (standardConstants u.names) := by
  refine h.within hwithin fun name binding hname => ?_
  obtain ⟨-, rfl⟩ := standardConstants_eq_some_iff.mp hname
  exact ⟨(h.baseExprs .int32).lt, (h.baseTypes .type).lt⟩

end CompilationUnit

/-- A prelude is the standard one of a unit. -/
def Prelude.IsStandard (u : CompilationUnit hash) (prelude : Prelude) : Prop :=
  ∃ name binding constant, prelude.entries = [⟨name, binding, constant⟩] ∧
    u.names.text? name = some BaseType.int32.name ∧
    u.HoldsDecl binding ⟨name, .builtinInt⟩ ∧
    u.HoldsDecl constant ⟨name, .constant BaseType.int32.exprId BaseType.type.typeId⟩

namespace Prelude

variable {constants : Constants} {u v : CompilationUnit hash} {prelude : Prelude}

theorem IsStandard.grow (h : prelude.IsStandard u) (hgrown : u.Grown v) :
    prelude.IsStandard v := by
  obtain ⟨name, binding, constant, hentries, hname, hbinding, hconstant⟩ := h
  exact ⟨name, binding, constant, hentries, hgrown.names.text? hname,
    hgrown.holdsDecl hbinding, hgrown.holdsDecl hconstant⟩

theorem standard_isStandard (hnames : u.names.WellFormed) (hroom : u.names.size + 1 < 2 ^ 32) :
    (standard u).1.IsStandard (standard u).2 := by
  have hinterned := CompilationUnit.interned hnames BaseType.int32.name hroom
  have hbinding := CompilationUnit.holdsDecl_addDeclaration (u.intern BaseType.int32.name).2
    ⟨(u.intern BaseType.int32.name).1, .builtinInt⟩
  have hgrown := CompilationUnit.grown_addDeclaration
    ((u.intern BaseType.int32.name).2.addDeclaration
      ⟨(u.intern BaseType.int32.name).1, .builtinInt⟩).2
    ⟨(u.intern BaseType.int32.name).1, .constant BaseType.int32.exprId BaseType.type.typeId⟩
  exact ⟨_, _, _, rfl, hinterned.text_eq, hgrown.holdsDecl hbinding,
    CompilationUnit.holdsDecl_addDeclaration _ _⟩

/-- Making the standard prelude keeps a unit sound. -/
theorem standard_spec (h : u.Sound constants) (hroom : u.names.size + 1 < 2 ^ 32) :
    (standard u).2.Sound constants ∧ u.Grown (standard u).2 ∧
      (standard u).1.IsStandard (standard u).2 := by
  have hsound := (h.intern BaseType.int32.name hroom).addDeclaration
    ⟨(u.intern BaseType.int32.name).1, .builtinInt⟩
  have hgrown := (CompilationUnit.grown_intern h.names BaseType.int32.name hroom).trans
    (CompilationUnit.grown_addDeclaration _ ⟨(u.intern BaseType.int32.name).1, .builtinInt⟩)
  exact ⟨hsound.addDeclaration _, hgrown.trans (CompilationUnit.grown_addDeclaration _ _),
    standard_isStandard h.names hroom⟩

/-- The standard prelude of a new unit. -/
def initial : Prelude := (standard (.new .constant)).1

end Prelude

namespace Checker

variable {constants : Constants} {u v : CompilationUnit hash} {prelude : Prelude}

/-- A checker for a prelude with one constant knows this constant and no other. -/
theorem ofPrelude_eq {name : Name} {binding constant : DeclId} {value : ExprId} {type : TypeId}
    (hentries : prelude.entries = [⟨name, binding, constant⟩])
    (hconstant : u.HoldsDecl constant ⟨name, .constant value type⟩) :
    ∃ c, ofPrelude u prelude = .ok c ∧ c.scopes.WellFormed ∧ c.returnType = none ∧
      ∀ other, c.scopes.lookup other = if other = name then some ⟨value, type⟩ else none := by
  have hempty : (.empty : Scopes hash.name ConstantBinding).WellFormed :=
    Scopes.empty_wellFormed
  obtain ⟨scopes, hinsert, hscopes, -, -, hlookup⟩ := hempty.push_insert name ⟨value, type⟩
  refine ⟨⟨scopes, none⟩, ?_, hscopes, rfl, fun other => ?_⟩
  · rw [ofPrelude, hentries, declareAll, checkIndex_bind_of_lt hconstant.lt, hconstant.decl_eq]
    simp only [hinsert, declareAll]
    rfl
  · rw [hlookup other, Scopes.lookup_empty]

/-- A checker for the standard prelude knows exactly its constants. -/
theorem ofPrelude_standard (h : u.Sound constants) (hstandard : prelude.IsStandard u) :
    ∃ c, ofPrelude u prelude = .ok c ∧ c.scopes.WellFormed ∧ c.returnType = none ∧
      ∀ name, c.scopes.lookup name = standardConstants u.names name := by
  obtain ⟨name, binding, constant, hentries, hname, -, hconstant⟩ := hstandard
  obtain ⟨c, hc, hscopes, hout, hlookup⟩ := ofPrelude_eq hentries hconstant
  refine ⟨c, hc, hscopes, hout, fun other => ?_⟩
  rw [hlookup other, standardConstants]
  by_cases hother : other = name
  · rw [if_pos hother, hother, if_pos hname]
  · have hnot : ¬ u.names.text? other = some BaseType.int32.name :=
      fun htext => hother (h.names.name_unique htext hname)
    rw [if_neg hother, if_neg hnot]

theorem ofPrelude_empty (u : CompilationUnit hash) :
    ∃ c, ofPrelude u .empty = .ok c ∧ c.scopes.WellFormed ∧ c.returnType = none ∧
      ∀ name, c.scopes.lookup name = none := by
  have hempty : (.empty : Scopes hash.name ConstantBinding).WellFormed :=
    Scopes.empty_wellFormed
  refine ⟨⟨Scopes.empty.push, none⟩, rfl, hempty.push, rfl, fun name => ?_⟩
  rw [hempty.lookup_push, Scopes.lookup_empty]

/-- A checker for a prelude is made from the declarations of its constants alone. -/
theorem ofPrelude_congr
    (h : ∀ entry ∈ prelude.entries, v.decl entry.constant = u.decl entry.constant ∧
      checkIndex entry.constant.index v.declarations.size =
        checkIndex entry.constant.index u.declarations.size) :
    ofPrelude v prelude = ofPrelude u prelude := by
  unfold ofPrelude
  generalize (Scopes.empty : Scopes hash.name ConstantBinding).push = scopes
  generalize prelude.entries = entries at h
  congr 1
  induction entries generalizing scopes with
  | nil => rfl
  | cons entry rest ih =>
      obtain ⟨⟨hdecl, hindex⟩, hrest⟩ := List.forall_mem_cons.mp h
      simp only [declareAll, hindex, hdecl, fun scopes => ih scopes hrest]

end Checker

namespace CompilationUnit

variable {u : CompilationUnit hash} {item : ItemId} {prelude : Prelude} {c : Checker hash}

/-- To check an item is to ask a new checker for the prelude. -/
theorem check_eq_map (hc : Checker.ofPrelude u prelude = .ok c) :
    u.check item prelude = (c.check u item).map fun checked => checked.1 := by
  simp only [check, hc, Bind.bind, Except.bind]
  cases c.check u item <;> rfl

theorem check_eq_ok_iff (hc : Checker.ofPrelude u prelude = .ok c) {answer : Answer hash Unit} :
    u.check item prelude = .ok answer ↔ ∃ d, c.check u item = .ok (answer, d) := by
  rw [check_eq_map hc]
  cases c.check u item with
  | error breach => simp [Except.map]
  | ok checked =>
      obtain ⟨answer', d⟩ := checked
      simp [Except.map]

end CompilationUnit

end FrontEnd
