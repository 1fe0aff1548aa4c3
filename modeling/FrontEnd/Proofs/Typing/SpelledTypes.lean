import FrontEnd.Proofs.Grammar.Item
import FrontEnd.Proofs.Typing.Preludes

/-! # Findings about what a source spells

The spelling of a type says what is found about its expression: the value that its name has stands
inside its constant form, and this denotes a type with as many function types. -/

namespace FrontEnd

variable {hash : Hasher}

namespace CompilationUnit

variable {constants : Constants} {u v : CompilationUnit hash} {id leaf : ExprId}
  {opens : List Position} {base : Name} {basePos : Position}

/-! ## Constant forms of spelled types -/

/-- An expression is `depth` function type expressions around another one. -/
inductive Wraps (u : CompilationUnit hash) : ExprId → (depth : Nat) → ExprId → Prop where
  | stay (id : ExprId) : Wraps u id 0 id
  | function {id result leaf depth pos} : u.Holds id (.functionType result) pos →
      Wraps u result depth leaf → Wraps u id (depth + 1) leaf

/-- The constant form of a type that is spelled has the value of its name inside. -/
theorem Spells.form (h : u.Spells id opens base basePos) {form : Option ExprId}
    (hform : u.Form constants id form) :
    ∃ binding evaluated, constants base = some binding ∧ form = some evaluated ∧
      u.Wraps evaluated opens.length binding.value := by
  induction h generalizing form with
  | name hid =>
      obtain ⟨binding, hbound, rfl⟩ := hform.of_holds hid
      exact ⟨binding, _, hbound, rfl, .stay _⟩
  | function hid _ ih =>
      obtain ⟨-, hresult⟩ | ⟨inner, made, rfl, hresult, hmade⟩ := hform.of_holds hid
      · obtain ⟨binding, evaluated, -, heq, -⟩ := ih hresult
        cases heq
      · obtain ⟨binding, evaluated, hbound, heq, hwraps⟩ := ih hresult
        cases heq
        exact ⟨binding, _, hbound, rfl, .function hmade hwraps⟩

/-- Function type expressions around a base type denote a type of this shape. -/
theorem Wraps.denotes (h : u.Sound constants) {depth : Nat} (hwraps : u.Wraps id depth leaf)
    {kind : BaseType} {pos : Position} (hleaf : u.Holds leaf (.baseType kind) pos)
    {type? : Option TypeId} (htype : u.Denotes id type?) :
    ∃ type, type? = some type ∧ u.Shape type depth kind := by
  induction hwraps generalizing type? with
  | stay id => exact ⟨_, htype.of_holds hleaf, .base (h.baseTypes kind)⟩
  | function hid _ ih =>
      obtain ⟨-, hresult⟩ | ⟨inner, type, rfl, hresult, hnode⟩ := htype.of_holds hid
      · obtain ⟨type, heq, -⟩ := ih hleaf hresult
        cases heq
      · obtain ⟨type', heq, hshape⟩ := ih hleaf hresult
        cases heq
        exact ⟨type, rfl, .function hnode hshape⟩

/-- What stands inside a type that is spelled spells the rest of it. -/
theorem Spells.of_trail (h : u.Spells id opens base basePos) {outer : List ExprId}
    (htrail : Trail u.child? leaf outer id) : ∃ inner, u.Spells leaf inner base basePos := by
  induction h generalizing outer with
  | name hid =>
      rcases htrail.eq_or_exists with rfl | ⟨inner, rest, hinner, -⟩
      · exact ⟨_, .name hid⟩
      · rw [child?_of_holds hid] at hinner
        cases hinner
  | function hid hresult ih =>
      rcases htrail.eq_or_exists with rfl | ⟨inner, rest, hinner, hrest⟩
      · exact ⟨_, .function hid hresult⟩
      · rw [child?_of_holds hid] at hinner
        cases hinner
        exact ih hrest

/-- The name that is reached inside a type that is spelled is the one of the spelling. -/
theorem Spells.name_eq (h : u.Spells id opens base basePos) {outer : List ExprId}
    (htrail : Trail u.child? leaf outer id) {name : Name} {pos : Position}
    (hname : u.Holds leaf (.name name) pos) : name = base ∧ pos = basePos := by
  obtain ⟨inner, hleaf⟩ := h.of_trail htrail
  cases hleaf with
  | name hother =>
      obtain ⟨hexpr, hpos⟩ := hname.unique hother
      cases hexpr
      exact ⟨rfl, hpos⟩
  | function hother _ => cases (hname.unique hother).1

/-- The signature of a function that spells its return type declares a type of this shape, and
spells it with the name of the integer type. -/
theorem declaredReturn_of_spells {names : Interner hash.text}
    (h : u.Sound (standardConstants names)) {signature : ExprId} {params : Position}
    (hspells : u.Spells signature (params :: opens) base basePos) {form : Option ExprId}
    (hform : (u.findingsOf signature).constantForm = some form) {type result : TypeId}
    (htype : (u.findingsOf (form.getD signature)).denotedType = some (some type))
    (hnode : u.HoldsType type (.function result)) :
    names.text? base = some BaseType.int32.name ∧ u.Shape result opens.length .int32 := by
  obtain ⟨binding, evaluated, hbound, rfl, hwraps⟩ := hspells.form (h.forms _ _ hform)
  obtain ⟨htext, rfl⟩ := standardConstants_eq_some_iff.mp hbound
  obtain ⟨type', heq, hshape⟩ := hwraps.denotes h (h.baseExprs .int32) (h.denoted _ _ htype)
  cases heq
  cases hshape with
  | function hother hresult =>
      cases hnode.unique hother
      exact ⟨htext, hresult⟩

end CompilationUnit

/-- The check of an item that is spelled is answered, as its signature is a function type
expression. -/
theorem Checker.check_answered_of_spells {constants : Constants} {c : Checker hash}
    {u : CompilationUnit hash} {item : ItemId} {function : FunctionItem} {header : HeaderSyntax}
    {statement : StatementSyntax} (h : u.Sound constants) (hfits : c.Fits constants)
    (hout : c.returnType = none) (hitem : u.HoldsItem item function)
    (hspells : u.SpellsItem function header statement) :
    ∃ answer d, c.check u item = .ok (answer, d) ∧ answer.unit.Sound constants ∧
      u.Queried answer.unit := by
  rcases check_spec h hfits hout hitem with
    ⟨kind, -, hnot⟩ | ⟨answer, d, hanswer, hsound, hqueried, -⟩
  · cases hspells.signature with
    | function hholds _ => exact absurd hholds (hnot _ _)
  · exact ⟨answer, d, hanswer, hsound, hqueried⟩

end FrontEnd
