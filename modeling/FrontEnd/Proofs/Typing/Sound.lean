import FrontEnd.Proofs.Typing.Findings

/-! # Sound units

Nodes descend, and all findings are true. Every operation keeps a unit sound. -/

namespace FrontEnd

/-- The only expression inside an expression. -/
def Expr.child? : Expr → Option ExprId
  | .functionType result => some result
  | .return_ value => some value
  | _ => none

namespace CompilationUnit

variable {hash : Hasher} {constants more : Constants} {u v : CompilationUnit hash}

/-- The type found for an expression. That of a return is found while an item is checked whose
body returns to it, and whose declared return type the value then has. -/
inductive Typed (constants : Constants) (u : CompilationUnit hash) : ExprId → TypeId → Prop where
  | literal {id value pos} : u.Holds id (.intLiteral value) pos →
      Typed constants u id BaseType.int32.typeId
  | name {id name binding pos} : u.Holds id (.name name) pos → constants name = some binding →
      Typed constants u id binding.type
  | baseType {id kind pos} : u.Holds id (.baseType kind) pos →
      Typed constants u id BaseType.type.typeId
  | functionType {id result pos} : u.Holds id (.functionType result) pos →
      Typed constants u id BaseType.type.typeId
  | return_ {id value actual expected item function pos} : u.Holds id (.return_ value) pos →
      (u.findingsOf value).type = some actual → u.HoldsItem item function →
      u.ReturnsTo function.body id → u.declaredReturn? function = some expected →
      u.Alike expected actual → Typed constants u id BaseType.never.typeId

theorem Typed.mono (hgrown : u.Grown v) (hwithin : constants.Within more) {id : ExprId}
    {type : TypeId} (h : u.Typed constants id type) : v.Typed more id type := by
  cases h with
  | literal hid => exact .literal (hgrown.holds hid)
  | name hid hname => exact .name (hgrown.holds hid) (hwithin _ _ hname)
  | baseType hid => exact .baseType (hgrown.holds hid)
  | functionType hid => exact .functionType (hgrown.holds hid)
  | return_ hid hvalue hitem hreturns hdeclared halike =>
      exact .return_ (hgrown.holds hid) ((hgrown.findings _).type _ hvalue)
        (hgrown.holdsItem hitem) (hgrown.returnsTo hreturns) (hgrown.declaredReturn? hdeclared)
        (hgrown.alike halike)

/-- What the node of an expression says about its type. -/
theorem Typed.of_holds {id : ExprId} {type : TypeId} (h : u.Typed constants id type) {expr : Expr}
    {pos : Position} (hid : u.Holds id expr pos) :
    match expr with
    | .intLiteral _ => type = BaseType.int32.typeId
    | .name used => ∃ binding, constants used = some binding ∧ type = binding.type
    | .baseType _ | .functionType _ => type = BaseType.type.typeId
    | .return_ value => type = BaseType.never.typeId ∧
        ∃ actual expected item function, (u.findingsOf value).type = some actual ∧
          u.HoldsItem item function ∧ u.ReturnsTo function.body id ∧
          u.declaredReturn? function = some expected ∧ u.Alike expected actual := by
  cases h with
  | literal hother =>
      obtain ⟨rfl, -⟩ := hid.unique hother
      rfl
  | name hother hbound =>
      obtain ⟨rfl, -⟩ := hid.unique hother
      exact ⟨_, hbound, rfl⟩
  | baseType hother =>
      obtain ⟨rfl, -⟩ := hid.unique hother
      rfl
  | functionType hother =>
      obtain ⟨rfl, -⟩ := hid.unique hother
      rfl
  | return_ hother hvalue hitem hreturns hdeclared halike =>
      obtain ⟨rfl, -⟩ := hid.unique hother
      exact ⟨rfl, _, _, _, _, hvalue, hitem, hreturns, hdeclared, halike⟩

/-- The type of a return was found for an item that declares the type of its value. -/
theorem Typed.exists_item {id value : ExprId} {type : TypeId} {pos : Position}
    (h : u.Typed constants id type) (hid : u.Holds id (.return_ value) pos) :
    ∃ actual expected item function, (u.findingsOf value).type = some actual ∧
      u.HoldsItem item function ∧ u.ReturnsTo function.body id ∧
      u.declaredReturn? function = some expected ∧ u.Alike expected actual :=
  (h.of_holds hid).2

/-- Items have expressions for their parts. -/
def ItemsHold (u : CompilationUnit hash) : Prop :=
  ∀ item function, u.HoldsItem item function →
    function.signature.index < u.exprs.size ∧ function.body.index < u.exprs.size

/-- Constants are expressions with types. -/
def ConstantsHold (constants : Constants) (u : CompilationUnit hash) : Prop :=
  ∀ name binding, constants name = some binding →
    binding.value.index < u.exprs.size ∧ binding.type.index < u.types.size

structure Sound (constants : Constants) (u : CompilationUnit hash) : Prop where
  names : u.names.WellFormed
  findings_size : u.findings.size = u.exprs.size
  baseTypes : ∀ kind : BaseType, u.HoldsType kind.typeId (.base kind)
  baseExprs : ∀ kind : BaseType, u.Holds kind.exprId (.baseType kind) .nowhere
  typesDescend : u.TypesDescend
  exprsDescend : LeadsDown u.child?
  items : u.ItemsHold
  constantsHold : ConstantsHold constants u
  forms : ∀ id form, (u.findingsOf id).constantForm = some form → u.Form constants id form
  denoted : ∀ id type, (u.findingsOf id).denotedType = some type → u.Denotes id type
  typed : ∀ id type, (u.findingsOf id).type = some type → u.Typed constants id type

theorem findingsOf_new (id : ExprId) : (new hash).findingsOf id = {} := by
  obtain ⟨index⟩ := id
  match index with
  | 0 | 1 | 2 | 3 | _ + 4 => rfl

theorem new_sound : (new hash).Sound fun _ => none where
  names := Interner.empty_wellFormed
  findings_size := rfl
  baseTypes kind := by cases kind <;> rfl
  baseExprs kind := by cases kind <;> rfl
  typesDescend := by
    rintro ⟨index⟩ result h
    match index with
    | 0 | 1 | 2 | 3 | _ + 4 => cases h
  exprsDescend := by
    rintro ⟨index⟩ inner h
    match index with
    | 0 | 1 | 2 | 3 | _ + 4 => cases h
  items item function h := by cases h
  constantsHold _ _ h := by cases h
  forms id form h := by
    rw [findingsOf_new] at h
    cases h
  denoted id type h := by
    rw [findingsOf_new] at h
    cases h
  typed id type h := by
    rw [findingsOf_new] at h
    cases h

theorem child?_eq (id : ExprId) : u.child? id = (u.expr id).expr.child? := by
  unfold child? Expr.child?
  split <;> simp_all

theorem Sound.within (h : u.Sound constants) (hwithin : constants.Within more)
    (hmore : ConstantsHold more u) : u.Sound more where
  names := h.names
  findings_size := h.findings_size
  baseTypes := h.baseTypes
  baseExprs := h.baseExprs
  typesDescend := h.typesDescend
  exprsDescend := h.exprsDescend
  items := h.items
  constantsHold := hmore
  forms id form hform := (h.forms id form hform).mono (.refl u) hwithin
  denoted := h.denoted
  typed id type htype := (h.typed id type htype).mono (.refl u) hwithin

/-! ## Nodes are added -/

/-- Growth keeps a unit sound as long as nothing is found. -/
theorem Sound.grow (h : u.Sound constants) (hgrown : u.Grown v)
    (hfound : ∀ id, v.findingsOf id = u.findingsOf id) (hnames : v.names.WellFormed)
    (hsize : v.findings.size = v.exprs.size) (htypes : v.TypesDescend)
    (hexprs : LeadsDown v.child?) (hitems : v.ItemsHold) : v.Sound constants where
  names := hnames
  findings_size := hsize
  baseTypes kind := hgrown.holdsType (h.baseTypes kind)
  baseExprs kind := hgrown.holds (h.baseExprs kind)
  typesDescend := htypes
  exprsDescend := hexprs
  items := hitems
  constantsHold name binding hname := by
    obtain ⟨hvalue, htype⟩ := h.constantsHold name binding hname
    exact ⟨Nat.lt_of_lt_of_le hvalue hgrown.exprs.size_le,
      Nat.lt_of_lt_of_le htype hgrown.types.size_le⟩
  forms id form hform := by
    rw [hfound] at hform
    exact (h.forms id form hform).mono hgrown (.refl constants)
  denoted id type htype := by
    rw [hfound] at htype
    exact hgrown.denotes (h.denoted id type htype)
  typed id type htype := by
    rw [hfound] at htype
    exact (h.typed id type htype).mono hgrown (.refl constants)

theorem ItemsHold.grow (h : u.ItemsHold) (hgrown : u.Grown v) (hitems : v.items = u.items) :
    v.ItemsHold := by
  intro item function hitem
  rw [HoldsItem, hitems] at hitem
  obtain ⟨hsignature, hbody⟩ := h item function hitem
  exact ⟨Nat.lt_of_lt_of_le hsignature hgrown.exprs.size_le,
    Nat.lt_of_lt_of_le hbody hgrown.exprs.size_le⟩

theorem child?_of_holds {id : ExprId} {expr : Expr} {pos : Position} (h : u.Holds id expr pos) :
    u.child? id = expr.child? := by
  rw [child?_eq, h.expr_eq]

theorem Grown.child?_eq (hgrown : u.Grown v) {id : ExprId} (hid : id.index < u.exprs.size) :
    v.child? id = u.child? id := by
  have hholds := holds_expr hid
  rw [child?_of_holds hholds, child?_of_holds (hgrown.holds hholds)]

/-- Only an expression that is there has one inside. -/
theorem exists_holds_of_child? {id inner : ExprId} (h : u.child? id = some inner) :
    ∃ expr pos, u.Holds id expr pos ∧ expr.child? = some inner := by
  have hlt : id.index < u.exprs.size := by
    by_contra hge
    rw [child?, expr, Array.getD_eq_getD_getElem?, Array.getElem?_eq_none (by omega)] at h
    cases h
  have hid := holds_expr hlt
  exact ⟨_, _, hid, (child?_of_holds hid).symm.trans h⟩

/-- Nodes still descend if what is inside a new one is there. -/
theorem leadsDown_addExpr (hdown : LeadsDown u.child?) {expr : Expr}
    (hchild : ∀ child, expr.child? = some child → child.index < u.exprs.size) (pos : Position) :
    LeadsDown (u.addExpr expr pos).2.child? := by
  intro id inner hinner
  obtain ⟨expr', pos', hid, hexpr⟩ := exists_holds_of_child? hinner
  rw [Holds, getElem?_addExpr] at hid
  by_cases hnew : id.index = u.exprs.size
  · rw [if_pos hnew] at hid
    cases hid
    rw [hnew]
    exact hchild inner hexpr
  · rw [if_neg hnew] at hid
    exact hdown id inner ((child?_of_holds hid).trans hexpr)

theorem Sound.addExpr (h : u.Sound constants) {expr : Expr}
    (hchild : ∀ child, expr.child? = some child → child.index < u.exprs.size) (pos : Position) :
    (u.addExpr expr pos).2.Sound constants := by
  have hgrown := (queried_addExpr u expr pos).toGrown
  refine h.grow hgrown (findingsOf_addExpr expr pos) h.names ?_ h.typesDescend
    (leadsDown_addExpr h.exprsDescend hchild pos) (h.items.grow hgrown rfl)
  simp [CompilationUnit.addExpr, h.findings_size]

/-- Function types still come after their results if a new one is around a type that is there. -/
theorem typesDescend_addFunctionType (hdown : u.TypesDescend) {result : TypeId}
    (hresult : result.index < u.types.size) : (u.addFunctionType result).2.TypesDescend := by
  intro id inner hid
  rw [HoldsType, getElem?_addFunctionType] at hid
  by_cases hnew : id.index = u.types.size
  · rw [if_pos hnew] at hid
    cases hid
    rwa [hnew]
  · rw [if_neg hnew] at hid
    exact hdown id inner hid

theorem Sound.addFunctionType (h : u.Sound constants) {result : TypeId}
    (hresult : result.index < u.types.size) : (u.addFunctionType result).2.Sound constants := by
  have hgrown := (queried_addFunctionType u result).toGrown
  exact h.grow hgrown (fun _ => rfl) h.names h.findings_size
    (typesDescend_addFunctionType h.typesDescend hresult) h.exprsDescend (h.items.grow hgrown rfl)

theorem Sound.addItem (h : u.Sound constants) {item : FunctionItem}
    (hsignature : item.signature.index < u.exprs.size) (hbody : item.body.index < u.exprs.size) :
    (u.addItem item).2.Sound constants := by
  refine h.grow (grown_addItem u item) (fun _ => rfl) h.names h.findings_size h.typesDescend
    h.exprsDescend ?_
  intro id function hid
  rw [HoldsItem, CompilationUnit.addItem, Array.getElem?_push] at hid
  split at hid
  · cases hid
    exact ⟨hsignature, hbody⟩
  · exact h.items id function hid

theorem Sound.addDeclaration (h : u.Sound constants) (decl : Declaration) :
    (u.addDeclaration decl).2.Sound constants :=
  h.grow (grown_addDeclaration u decl) (fun _ => rfl) h.names h.findings_size h.typesDescend
    h.exprsDescend h.items

theorem Sound.intern (h : u.Sound constants) (text : String)
    (hroom : u.names.size + 1 < 2 ^ 32) : (u.intern text).2.Sound constants :=
  h.grow (grown_intern h.names text hroom) (fun _ => rfl) (interned h.names text hroom).wellFormed
    h.findings_size h.typesDescend h.exprsDescend h.items

theorem Sound.addSource (h : u.Sound constants) (path : String) (bytes : List UInt8)
    (hroom : u.names.size + 1 < 2 ^ 32) : (u.addSource path bytes).2.Sound constants :=
  h.grow (grown_addSource h.names path bytes hroom) (fun _ => rfl)
    (interned h.names (shownPath path) hroom).wellFormed h.findings_size h.typesDescend
    h.exprsDescend h.items

/-! ## Findings are added -/

/-- A finding keeps a unit sound if all that is known about its expression is true. -/
theorem Sound.record (h : u.Sound constants) {id : ExprId} {f : Findings → Findings}
    (hrecorded : u.Recorded v id f)
    (hform : ∀ form, (f (u.findingsOf id)).constantForm = some form → u.Form constants id form)
    (hdenoted : ∀ type, (f (u.findingsOf id)).denotedType = some type → u.Denotes id type)
    (htyped : ∀ type, (f (u.findingsOf id)).type = some type → u.Typed constants id type) :
    v.Sound constants where
  names := by
    rw [hrecorded.names_eq]
    exact h.names
  findings_size := by rw [hrecorded.findings_size, hrecorded.exprs_eq, h.findings_size]
  baseTypes kind := hrecorded.holdsType (h.baseTypes kind)
  baseExprs kind := hrecorded.holds (h.baseExprs kind)
  typesDescend := by
    intro type result htype
    rw [HoldsType, hrecorded.types_eq] at htype
    exact h.typesDescend type result htype
  exprsDescend := by
    intro other inner hinner
    rw [child?, expr, hrecorded.exprs_eq] at hinner
    exact h.exprsDescend other inner hinner
  items := h.items.grow hrecorded.toGrown hrecorded.items_eq
  constantsHold := by
    rw [ConstantsHold, hrecorded.exprs_eq, hrecorded.types_eq]
    exact h.constantsHold
  forms other form hfound := by
    rw [hrecorded.findingsOf_eq] at hfound
    refine Form.mono hrecorded.toGrown (.refl constants) ?_
    split at hfound
    · rename_i heq
      exact heq ▸ hform form hfound
    · exact h.forms other form hfound
  denoted other type hfound := by
    rw [hrecorded.findingsOf_eq] at hfound
    refine hrecorded.toGrown.denotes ?_
    split at hfound
    · rename_i heq
      exact heq ▸ hdenoted type hfound
    · exact h.denoted other type hfound
  typed other type hfound := by
    rw [hrecorded.findingsOf_eq] at hfound
    refine Typed.mono hrecorded.toGrown (.refl constants) ?_
    split at hfound
    · rename_i heq
      exact heq ▸ htyped type hfound
    · exact h.typed other type hfound

variable {id : ExprId}

theorem Sound.recordType (h : u.Sound constants) (hid : id.index < u.exprs.size)
    (hnone : (u.findingsOf id).type = none) {type : TypeId} (htype : u.Typed constants id type) :
    ∃ v, u.record .type id type = .ok v ∧ v.Sound constants ∧ u.Queried v ∧
      u.Recorded v id fun found => { found with type := some type } := by
  obtain ⟨v, hv⟩ := exists_record .type (h.findings_size ▸ hid) hnone type
  have hrecorded := recorded_record hv
  refine ⟨v, hv, h.record hrecorded (h.forms id) (h.denoted id) ?_,
    queried_record (by decide) hv, hrecorded⟩
  intro other hother
  cases hother
  exact htype

theorem Sound.recordReferent (h : u.Sound constants) {decl : DeclId}
    (hok : u.record .referent id decl = .ok v) : v.Sound constants :=
  h.record (recorded_record hok) (h.forms id) (h.denoted id)
    (h.typed id)

theorem Sound.recordItemDeclaration (h : u.Sound constants) {item : ItemId} {decl : DeclId}
    (hok : u.recordItemDeclaration item decl = .ok v) : v.Sound constants := by
  have hgrown := grown_recordItemDeclaration hok
  obtain ⟨-, -, rfl⟩ := recordItemDeclaration_eq_ok_iff.mp hok
  exact h.grow hgrown (fun _ => rfl) h.names h.findings_size h.typesDescend h.exprsDescend h.items

end CompilationUnit

end FrontEnd
