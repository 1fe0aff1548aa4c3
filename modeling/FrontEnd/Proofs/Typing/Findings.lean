import FrontEnd.Typing.Checker
import FrontEnd.Proofs.CompilationUnit.Operations
import FrontEnd.Proofs.CompilationUnit.Trails
import FrontEnd.Proofs.CompilationUnit.Types

/-! # Findings that tell the truth

What the checker records about an expression says what its nodes and the constants in scope make
of it. The type of a return says less: some item that reaches it declares the type of its value. -/

namespace FrontEnd

/-- What names stand for where they are constants. -/
abbrev Constants : Type := Name → Option ConstantBinding

def Constants.Within (some more : Constants) : Prop :=
  ∀ name binding, some name = .some binding → more name = .some binding

theorem Constants.Within.refl (constants : Constants) : constants.Within constants :=
  fun _ _ h => h

namespace CompilationUnit

variable {hash : Hasher} {constants more : Constants} {u v : CompilationUnit hash}

/-! ## Constant forms and denoted types -/

/-- An expression has a constant form, or has none. -/
inductive Form (constants : Constants) (u : CompilationUnit hash) :
    ExprId → Option ExprId → Prop where
  | literal {id value pos} : u.Holds id (.intLiteral value) pos → Form constants u id (some id)
  | baseType {id kind pos} : u.Holds id (.baseType kind) pos → Form constants u id (some id)
  | name {id name binding pos} : u.Holds id (.name name) pos → constants name = some binding →
      Form constants u id (some binding.value)
  | return_ {id value pos} : u.Holds id (.return_ value) pos → Form constants u id none
  | function {id result inner form pos} : u.Holds id (.functionType result) pos →
      Form constants u result (some inner) → u.Holds form (.functionType inner) pos →
      Form constants u id (some form)
  | formless {id result pos} : u.Holds id (.functionType result) pos →
      Form constants u result none → Form constants u id none

/-- An expression denotes a type, or denotes none. A name denotes none. -/
inductive Denotes (u : CompilationUnit hash) : ExprId → Option TypeId → Prop where
  | baseType {id kind pos} : u.Holds id (.baseType kind) pos → Denotes u id (some kind.typeId)
  | literal {id value pos} : u.Holds id (.intLiteral value) pos → Denotes u id none
  | name {id name pos} : u.Holds id (.name name) pos → Denotes u id none
  | return_ {id value pos} : u.Holds id (.return_ value) pos → Denotes u id none
  | function {id result inner type pos} : u.Holds id (.functionType result) pos →
      Denotes u result (some inner) → u.HoldsType type (.function inner) →
      Denotes u id (some type)
  | typeless {id result pos} : u.Holds id (.functionType result) pos → Denotes u result none →
      Denotes u id none

/-- What the node of an expression says about its constant form. -/
theorem Form.of_holds {id : ExprId} {form : Option ExprId} (h : u.Form constants id form)
    {expr : Expr} {pos : Position} (hid : u.Holds id expr pos) :
    match expr with
    | .intLiteral _ | .baseType _ => form = some id
    | .name used => ∃ binding, constants used = some binding ∧ form = some binding.value
    | .return_ _ => form = none
    | .functionType result => form = none ∧ u.Form constants result none ∨
        ∃ inner made, form = some made ∧ u.Form constants result (some inner) ∧
          u.Holds made (.functionType inner) pos := by
  cases h with
  | literal hother =>
      obtain ⟨rfl, -⟩ := hid.unique hother
      rfl
  | baseType hother =>
      obtain ⟨rfl, -⟩ := hid.unique hother
      rfl
  | name hother hbound =>
      obtain ⟨rfl, -⟩ := hid.unique hother
      exact ⟨_, hbound, rfl⟩
  | return_ hother =>
      obtain ⟨rfl, -⟩ := hid.unique hother
      rfl
  | function hother hresult hmade =>
      obtain ⟨rfl, rfl⟩ := hid.unique hother
      exact .inr ⟨_, _, rfl, hresult, hmade⟩
  | formless hother hresult =>
      obtain ⟨rfl, -⟩ := hid.unique hother
      exact .inl ⟨rfl, hresult⟩

/-- What the node of an expression says about the type that it denotes. -/
theorem Denotes.of_holds {id : ExprId} {type? : Option TypeId} (h : u.Denotes id type?)
    {expr : Expr} {pos : Position} (hid : u.Holds id expr pos) :
    match expr with
    | .baseType kind => type? = some kind.typeId
    | .intLiteral _ | .name _ | .return_ _ => type? = none
    | .functionType result => type? = none ∧ u.Denotes result none ∨
        ∃ inner type, type? = some type ∧ u.Denotes result (some inner) ∧
          u.HoldsType type (.function inner) := by
  cases h with
  | baseType hother =>
      obtain ⟨rfl, -⟩ := hid.unique hother
      rfl
  | literal hother =>
      obtain ⟨rfl, -⟩ := hid.unique hother
      rfl
  | name hother =>
      obtain ⟨rfl, -⟩ := hid.unique hother
      rfl
  | return_ hother =>
      obtain ⟨rfl, -⟩ := hid.unique hother
      rfl
  | function hother hresult htype =>
      obtain ⟨rfl, -⟩ := hid.unique hother
      exact .inr ⟨_, _, rfl, hresult, htype⟩
  | typeless hother hresult =>
      obtain ⟨rfl, -⟩ := hid.unique hother
      exact .inl ⟨rfl, hresult⟩

/-- A constant form is one of the expressions alone. -/
theorem Form.keep (hexprs : Keeps u.exprs v.exprs) (hwithin : constants.Within more) {id : ExprId}
    {form : Option ExprId} (h : u.Form constants id form) : v.Form more id form := by
  induction h with
  | literal hid => exact .literal (hexprs _ _ hid)
  | baseType hid => exact .baseType (hexprs _ _ hid)
  | name hid hname => exact .name (hexprs _ _ hid) (hwithin _ _ hname)
  | return_ hid => exact .return_ (hexprs _ _ hid)
  | function hid _ hform ih => exact .function (hexprs _ _ hid) ih (hexprs _ _ hform)
  | formless hid _ ih => exact .formless (hexprs _ _ hid) ih

theorem Form.mono (hgrown : u.Grown v) (hwithin : constants.Within more) {id : ExprId}
    {form : Option ExprId} (h : u.Form constants id form) : v.Form more id form :=
  h.keep hgrown.exprs hwithin

theorem Grown.denotes (hgrown : u.Grown v) {id : ExprId} {type : Option TypeId}
    (h : u.Denotes id type) : v.Denotes id type := by
  induction h with
  | baseType hid => exact .baseType (hgrown.holds hid)
  | literal hid => exact .literal (hgrown.holds hid)
  | name hid => exact .name (hgrown.holds hid)
  | return_ hid => exact .return_ (hgrown.holds hid)
  | function hid _ htype ih => exact .function (hgrown.holds hid) ih (hgrown.holdsType htype)
  | typeless hid _ ih => exact .typeless (hgrown.holds hid) ih

/-! ## Returns and the types that items declare -/

/-- Types of one shape. -/
def Alike (u : CompilationUnit hash) (a b : TypeId) : Prop :=
  ∃ depth kind, u.Shape a depth kind ∧ u.Shape b depth kind

theorem Grown.alike (hgrown : u.Grown v) {a b : TypeId} (h : u.Alike a b) : v.Alike a b := by
  obtain ⟨depth, kind, ha, hb⟩ := h
  exact ⟨depth, kind, hgrown.shape ha, hgrown.shape hb⟩

theorem Alike.trans {a b c : TypeId} (hab : u.Alike a b) (hbc : u.Alike b c) : u.Alike a c := by
  obtain ⟨depth, kind, ha, hb⟩ := hab
  obtain ⟨depth', kind', hb', hc⟩ := hbc
  obtain ⟨rfl, rfl⟩ := hb.unique hb'
  exact ⟨depth, kind, ha, hc⟩

theorem Alike.symm {a b : TypeId} (h : u.Alike a b) : u.Alike b a := by
  obtain ⟨depth, kind, ha, hb⟩ := h
  exact ⟨depth, kind, hb, ha⟩

theorem TypesDescend.sameType_iff_alike (h : u.TypesDescend) {a b : TypeId}
    (ha : a.index < u.types.size) (hb : b.index < u.types.size) :
    u.sameType a b = true ↔ u.Alike a b := by
  obtain ⟨d, k, hshape⟩ := h.exists_shape ha
  obtain ⟨e, l, hshape'⟩ := h.exists_shape hb
  rw [h.sameType_iff hshape hshape']
  constructor
  · rintro ⟨rfl, rfl⟩
    exact ⟨d, k, hshape, hshape'⟩
  · rintro ⟨depth, kind, ha', hb'⟩
    obtain ⟨rfl, rfl⟩ := hshape.unique ha'
    obtain ⟨rfl, rfl⟩ := hshape'.unique hb'
    exact ⟨rfl, rfl⟩

theorem returnedValue?_eq_some_iff {id value : ExprId} :
    u.returnedValue? id = some value ↔ ∃ pos, u.Holds id (.return_ value) pos := by
  constructor
  · intro h
    have hlt : id.index < u.exprs.size := by
      by_contra hge
      rw [returnedValue?, expr, Array.getD_eq_getD_getElem?,
        Array.getElem?_eq_none (by omega)] at h
      cases h
    have hid := holds_expr hlt
    unfold returnedValue? at h
    split at h
    · rename_i hexpr
      cases h
      rw [hexpr] at hid
      exact ⟨_, hid⟩
    · cases h
  · rintro ⟨pos, hid⟩
    simp [returnedValue?, hid.expr_eq]

/-- A body is an expression, or returns that lead to it. -/
def ReturnsTo (u : CompilationUnit hash) (body id : ExprId) : Prop :=
  ∃ outer, Trail u.returnedValue? id outer body

theorem Grown.returnsTo (hgrown : u.Grown v) {body id : ExprId} (h : u.ReturnsTo body id) :
    v.ReturnsTo body id := by
  obtain ⟨outer, htrail⟩ := h
  refine ⟨outer, htrail.congr fun next _ inner hinner => ?_⟩
  obtain ⟨pos, hnext⟩ := returnedValue?_eq_some_iff.mp hinner
  exact returnedValue?_eq_some_iff.mpr ⟨pos, hgrown.holds hnext⟩

/-- The return type that the signature of a function denotes, once it is evaluated: the type found
for the constant form found for the signature. -/
def declaredReturn? (u : CompilationUnit hash) (function : FunctionItem) : Option TypeId :=
  match (u.findingsOf function.signature).constantForm with
  | none => none
  | some form =>
    match (u.findingsOf (form.getD function.signature)).denotedType with
    | some (some type) =>
      match u.typeNode type with
      | .function result => some result
      | .base _ => none
    | _ => none

theorem declaredReturn?_eq_some_iff {function : FunctionItem} {result : TypeId} :
    u.declaredReturn? function = some result ↔
      ∃ form type, (u.findingsOf function.signature).constantForm = some form ∧
        (u.findingsOf (form.getD function.signature)).denotedType = some (some type) ∧
        u.HoldsType type (.function result) := by
  constructor
  · intro h
    unfold declaredReturn? at h
    split at h
    · cases h
    · rename_i form hform
      split at h
      · rename_i type htype
        split at h
        · rename_i inner hnode
          cases h
          refine ⟨form, type, hform, htype, ?_⟩
          have hlt : type.index < u.types.size := by
            by_contra hge
            rw [typeNode, Array.getD_eq_getD_getElem?, Array.getElem?_eq_none (by omega)] at hnode
            cases hnode
          have hholds := holdsType_typeNode hlt
          rwa [hnode] at hholds
        · cases h
      · cases h
  · rintro ⟨form, type, hform, htype, hnode⟩
    simp [declaredReturn?, hform, htype, hnode.typeNode_eq]

theorem Grown.declaredReturn? (hgrown : u.Grown v) {function : FunctionItem} {result : TypeId}
    (h : u.declaredReturn? function = some result) :
    v.declaredReturn? function = some result := by
  obtain ⟨form, type, hform, htype, hnode⟩ := declaredReturn?_eq_some_iff.mp h
  exact declaredReturn?_eq_some_iff.mpr ⟨form, type, (hgrown.findings _).constantForm _ hform,
    (hgrown.findings _).denotedType _ htype, hgrown.holdsType hnode⟩

end CompilationUnit

end FrontEnd
