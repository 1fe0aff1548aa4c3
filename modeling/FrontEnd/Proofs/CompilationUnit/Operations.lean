import FrontEnd.Proofs.CompilationUnit.Growth
import FrontEnd.Proofs.Except

/-! # What each operation leaves

A new node stands at the place that is handed out for it, and recording changes one finding. -/

namespace FrontEnd.CompilationUnit

variable {hash : Hasher} {u : CompilationUnit hash}

/-! ## New nodes -/

theorem holds_addExpr (u : CompilationUnit hash) (expr : Expr) (pos : Position) :
    (u.addExpr expr pos).2.Holds (u.addExpr expr pos).1 expr pos := by
  simp [addExpr, Holds]

theorem holdsType_addFunctionType (u : CompilationUnit hash) (result : TypeId) :
    (u.addFunctionType result).2.HoldsType (u.addFunctionType result).1 (.function result) := by
  simp [addFunctionType, HoldsType]

theorem holdsDecl_addDeclaration (u : CompilationUnit hash) (decl : Declaration) :
    (u.addDeclaration decl).2.HoldsDecl (u.addDeclaration decl).1 decl := by
  simp [addDeclaration, HoldsDecl]

theorem getElem?_addExpr {expr : Expr} {pos : Position} (i : Nat) :
    (u.addExpr expr pos).2.exprs[i]? =
      if i = u.exprs.size then some ⟨expr, pos⟩ else u.exprs[i]? :=
  Array.getElem?_push

theorem getElem?_addFunctionType {result : TypeId} (i : Nat) :
    (u.addFunctionType result).2.types[i]? =
      if i = u.types.size then some (.function result) else u.types[i]? :=
  Array.getElem?_push

/-- Nothing is known about a new expression, as nothing is about one that is not there. -/
@[simp] theorem findingsOf_addExpr (expr : Expr) (pos : Position) (id : ExprId) :
    (u.addExpr expr pos).2.findingsOf id = u.findingsOf id := by
  simp only [addExpr, findingsOf, Array.getD_eq_getD_getElem?, Array.getElem?_push]
  split
  · rename_i hid
    rw [hid, Array.getElem?_eq_none (Nat.le_refl _)]
    rfl
  · rfl

theorem itemDeclaration?_addItem (item : FunctionItem) (id : ItemId) :
    (u.addItem item).2.itemDeclaration? id = u.itemDeclaration? id := by
  simp only [addItem, itemDeclaration?, Array.getD_eq_getD_getElem?, Array.getElem?_push]
  split
  · rename_i hid
    rw [hid, Array.getElem?_eq_none (Nat.le_refl _)]
    rfl
  · rfl

theorem queried_addExpr (u : CompilationUnit hash) (expr : Expr) (pos : Position) :
    u.Queried (u.addExpr expr pos).2 where
  names := .refl _
  sources := .refl _
  items := .refl _
  exprs := .push _ _
  types := .refl _
  declarations := .refl _
  itemDeclaration _ _ h := h
  findings id := by
    rw [findingsOf_addExpr]
    exact .refl _
  names_eq := rfl
  sources_eq := rfl
  items_eq := rfl
  itemDeclarations_eq := rfl
  declarations_eq := rfl
  referent_eq id := by rw [findingsOf_addExpr]

theorem queried_addFunctionType (u : CompilationUnit hash) (result : TypeId) :
    u.Queried (u.addFunctionType result).2 where
  names := .refl _
  sources := .refl _
  items := .refl _
  exprs := .refl _
  types := .push _ _
  declarations := .refl _
  itemDeclaration _ _ h := h
  findings _ := .refl _
  names_eq := rfl
  sources_eq := rfl
  items_eq := rfl
  itemDeclarations_eq := rfl
  declarations_eq := rfl
  referent_eq _ := rfl

theorem grown_addItem (u : CompilationUnit hash) (item : FunctionItem) :
    u.Grown (u.addItem item).2 where
  names := .refl _
  sources := .refl _
  items := .push _ _
  exprs := .refl _
  types := .refl _
  declarations := .refl _
  itemDeclaration id decl h := by rwa [itemDeclaration?_addItem]
  findings _ := .refl _

theorem grown_addDeclaration (u : CompilationUnit hash) (decl : Declaration) :
    u.Grown (u.addDeclaration decl).2 where
  names := .refl _
  sources := .refl _
  items := .refl _
  exprs := .refl _
  types := .refl _
  declarations := .push _ _
  itemDeclaration _ _ h := h
  findings _ := .refl _

/-! ## Names and sources -/

theorem interned (h : u.names.WellFormed) (text : String) (hroom : u.names.size + 1 < 2 ^ 32) :
    u.names.Interned text (u.intern text).1 (u.intern text).2.names :=
  h.intern text hroom

theorem grown_intern (h : u.names.WellFormed) (text : String)
    (hroom : u.names.size + 1 < 2 ^ 32) : u.Grown (u.intern text).2 where
  names := (interned h text hroom).extends
  sources := .refl _
  items := .refl _
  exprs := .refl _
  types := .refl _
  declarations := .refl _
  itemDeclaration _ _ h := h
  findings _ := .refl _

theorem grown_addSource (h : u.names.WellFormed) (path : String) (bytes : List UInt8)
    (hroom : u.names.size + 1 < 2 ^ 32) : u.Grown (u.addSource path bytes).2 where
  names := (interned h (shownPath path) hroom).extends
  sources := .push _ _
  items := .refl _
  exprs := .refl _
  types := .refl _
  declarations := .refl _
  itemDeclaration _ _ h := h
  findings _ := .refl _

/-! ## Recording -/

theorem findingsOf_eq_of_ge {id : ExprId} (h : u.findings.size ≤ id.index) :
    u.findingsOf id = {} := by
  rw [findingsOf, Array.getD_eq_getD_getElem?, Array.getElem?_eq_none h]
  rfl

/-- A change to the findings of one expression leaves all others. -/
theorem findingsOf_modifyFindings {id : ExprId} (hid : id.index < u.findings.size)
    (f : Findings → Findings) (other : ExprId) :
    (u.modifyFindings id f).findingsOf other =
      if other = id then f (u.findingsOf id) else u.findingsOf other := by
  simp only [modifyFindings, findingsOf, Array.getD_eq_getD_getElem?, Array.getElem?_modify]
  by_cases hother : other = id
  · subst hother
    simp [Array.getElem?_eq_getElem hid]
  · have hindex : id.index ≠ other.index := by
      intro heq
      cases id
      cases other
      exact hother (congrArg ExprId.mk heq.symm)
    simp [hother, hindex]

/-- What recording a finding about an expression leaves. -/
structure Recorded (u v : CompilationUnit hash) (id : ExprId) (f : Findings → Findings) : Prop
    extends Grown u v where
  findingsOf_eq : ∀ other,
    v.findingsOf other = if other = id then f (u.findingsOf id) else u.findingsOf other
  names_eq : v.names = u.names
  items_eq : v.items = u.items
  exprs_eq : v.exprs = u.exprs
  types_eq : v.types = u.types
  findings_size : v.findings.size = u.findings.size

theorem recorded_modifyFindings {id : ExprId} (hid : id.index < u.findings.size)
    {f : Findings → Findings} (hkept : (u.findingsOf id).Kept (f (u.findingsOf id))) :
    u.Recorded (u.modifyFindings id f) id f where
  names := .refl _
  sources := .refl _
  items := .refl _
  exprs := .refl _
  types := .refl _
  declarations := .refl _
  itemDeclaration _ _ h := h
  findings other := by
    rw [findingsOf_modifyFindings hid]
    split
    · rename_i hother
      rwa [hother]
    · exact .refl _
  findingsOf_eq := findingsOf_modifyFindings hid f
  names_eq := rfl
  items_eq := rfl
  exprs_eq := rfl
  types_eq := rfl
  findings_size := by simp [modifyFindings]

theorem queried_modifyFindings {id : ExprId} (hid : id.index < u.findings.size)
    {f : Findings → Findings} (hkept : (u.findingsOf id).Kept (f (u.findingsOf id)))
    (href : (f (u.findingsOf id)).referent = (u.findingsOf id).referent) :
    u.Queried (u.modifyFindings id f) where
  toGrown := (recorded_modifyFindings hid hkept).toGrown
  names_eq := rfl
  sources_eq := rfl
  items_eq := rfl
  itemDeclarations_eq := rfl
  declarations_eq := rfl
  referent_eq other := by
    rw [findingsOf_modifyFindings hid]
    split
    · rename_i hother
      rwa [hother]
    · rfl

/-- A finding that is no type is one of a question outside of functions. -/
theorem Recorded.asked {v : CompilationUnit hash} {id : ExprId} {f : Findings → Findings}
    (h : u.Recorded v id f) (hqueried : u.Queried v)
    (htype : (f (u.findingsOf id)).type = (u.findingsOf id).type) : u.Asked v where
  toQueried := hqueried
  returnType_eq other _ _ _ := by
    rw [h.findingsOf_eq]
    split
    · rename_i hother
      rwa [hother]
    · rfl

/-- Only an empty slot of an expression that is there is filled. -/
theorem record_eq_ok_iff {v : CompilationUnit hash} {slot : Slot} {id : ExprId}
    {value : slot.Value} :
    u.record slot id value = .ok v ↔ id.index < u.findings.size ∧
      (u.findingsOf id).get slot = none ∧
      v = u.modifyFindings id fun found => found.put slot value := by
  rw [record, checkIndex_bind_eq_ok_iff, Fact.checkUnset_bind_eq_ok_iff,
    Except.pure_eq_ok_iff]

theorem kept_put {found : Findings} {slot : Slot} (hunset : found.get slot = none)
    (value : slot.Value) : found.Kept (found.put slot value) := by
  -- a slot that is empty has nothing to keep
  cases slot <;> (simp only [Findings.get] at hunset; constructor) <;>
    simp [Findings.put, hunset]

theorem recorded_record {v : CompilationUnit hash} {slot : Slot} {id : ExprId} {value : slot.Value}
    (h : u.record slot id value = .ok v) : u.Recorded v id fun found => found.put slot value := by
  obtain ⟨hid, hunset, rfl⟩ := record_eq_ok_iff.mp h
  exact recorded_modifyFindings hid (kept_put hunset value)

theorem get_put_of_ne {slot other : Slot} (hne : other ≠ slot) (found : Findings)
    (value : slot.Value) : (found.put slot value).get other = found.get other := by
  cases slot <;> cases other <;> first | rfl | exact absurd rfl hne

/-- Recording leaves all other slots, of all expressions. -/
theorem get_record_of_ne {v : CompilationUnit hash} {slot other : Slot} {id : ExprId}
    {value : slot.Value} (h : u.record slot id value = .ok v) (hne : other ≠ slot) (e : ExprId) :
    (v.findingsOf e).get other = (u.findingsOf e).get other := by
  rw [(recorded_record h).findingsOf_eq]
  split
  · rename_i heq
    rw [get_put_of_ne hne, heq]
  · rfl

/-- Questions fill all slots but that of the referent. -/
theorem queried_record {v : CompilationUnit hash} {slot : Slot} {id : ExprId} {value : slot.Value}
    (hslot : slot ≠ .referent) (h : u.record slot id value = .ok v) : u.Queried v := by
  obtain ⟨hid, hunset, rfl⟩ := record_eq_ok_iff.mp h
  refine queried_modifyFindings hid (kept_put hunset value) ?_
  cases slot with
  | referent => exact absurd rfl hslot
  | _ => rfl

theorem asked_record {v : CompilationUnit hash} {slot : Slot} {id : ExprId} {value : slot.Value}
    (hslot : slot ≠ .referent) (htype : slot ≠ .type) (h : u.record slot id value = .ok v) :
    u.Asked v := by
  refine (recorded_record h).asked (queried_record hslot h) ?_
  cases slot with
  | type => exact absurd rfl htype
  | _ => rfl

theorem exists_record (slot : Slot) {id : ExprId} (hid : id.index < u.findings.size)
    (hunset : (u.findingsOf id).get slot = none) (value : slot.Value) :
    ∃ v, u.record slot id value = .ok v :=
  ⟨_, record_eq_ok_iff.mpr ⟨hid, hunset, rfl⟩⟩

theorem recordItemDeclaration_eq_ok_iff {v : CompilationUnit hash} {id : ItemId} {decl : DeclId} :
    u.recordItemDeclaration id decl = .ok v ↔ id.index < u.itemDeclarations.size ∧
      u.itemDeclaration? id = none ∧
      v = { u with itemDeclarations :=
        u.itemDeclarations.setIfInBounds id.index (some decl) } := by
  rw [recordItemDeclaration, checkIndex_bind_eq_ok_iff, Fact.checkUnset_bind_eq_ok_iff,
    Except.pure_eq_ok_iff]

theorem grown_recordItemDeclaration {v : CompilationUnit hash} {id : ItemId} {decl : DeclId}
    (h : u.recordItemDeclaration id decl = .ok v) : u.Grown v := by
  obtain ⟨-, hnone, rfl⟩ := recordItemDeclaration_eq_ok_iff.mp h
  refine ⟨.refl _, .refl _, .refl _, .refl _, .refl _, .refl _, fun other old hold => ?_,
    fun _ => .refl _⟩
  have hother : id.index ≠ other.index := by
    intro heq
    rw [itemDeclaration?] at hnone hold
    rw [heq, hold] at hnone
    cases hnone
  simpa only [itemDeclaration?, Array.getD_eq_getD_getElem?,
    Array.getElem?_setIfInBounds_ne hother] using hold

end FrontEnd.CompilationUnit
