import FrontEnd.Proofs.Typing.Questions
import FrontEnd.Typing.Checker

/-! # Questions do not look at bindings

A unit can be stripped of all that binding records: declarations, which of them are of items, and
what expressions refer to. What is asked about a stripped unit is answered the same, and leaves the
stripped unit that was left before. -/

namespace FrontEnd

variable {hash : Hasher}

def Findings.stripped (found : Findings) : Findings := { found with referent := none }

namespace CompilationUnit

/-- A unit without what binding records. -/
def stripped (u : CompilationUnit hash) : CompilationUnit hash :=
  { u with
    itemDeclarations := #[]
    declarations := #[]
    findings := u.findings.map Findings.stripped }

end CompilationUnit

/-- An answer whose unit is stripped. -/
def Answer.stripped {α : Type} (answer : Answer hash α) : Answer hash α :=
  ⟨answer.value, answer.unit.stripped⟩

/-- If a second computation does the same to mapped results, both together do. -/
theorem map_bind_of_comm {ε α α' β β' : Type} {f : α → α'} {g : β → β'} {next : α → Except ε β}
    {next' : α' → Except ε β'} (x : Except ε α) (h : ∀ a, next' (f a) = (next a).map g) :
    x.map f >>= next' = (x >>= next).map g := by
  cases x with
  | error e => rfl
  | ok a => exact h a

theorem bind_of_comm {ε α β β' : Type} {g : β → β'} {next : α → Except ε β}
    {next' : α → Except ε β'} (x : Except ε α) (h : ∀ a, next' a = (next a).map g) :
    x >>= next' = (x >>= next).map g := by
  cases x with
  | error e => rfl
  | ok a => exact h a

theorem map_modify_of_comm {α : Type} {f g : α → α} (xs : Array α) (i : Nat)
    (h : ∀ x, f (g x) = g (f x)) : (xs.map g).modify i f = (xs.modify i f).map g := by
  apply Array.ext_getElem?
  intro j
  simp only [Array.getElem?_modify, Array.getElem?_map]
  split
  · cases xs[j]? with
    | none => rfl
    | some x => exact congrArg some (h x)
  · rfl

namespace CompilationUnit

variable {u : CompilationUnit hash} {id : ExprId}

/-! ## Units -/

theorem findingsOf_stripped (u : CompilationUnit hash) (id : ExprId) :
    u.stripped.findingsOf id = (u.findingsOf id).stripped := by
  simp only [stripped, findingsOf, Array.getD_eq_getD_getElem?, Array.getElem?_map]
  cases u.findings[id.index]? <;> rfl

theorem expr_stripped (u : CompilationUnit hash) (id : ExprId) : u.stripped.expr id = u.expr id :=
  rfl

theorem typeNode_stripped (u : CompilationUnit hash) (id : TypeId) :
    u.stripped.typeNode id = u.typeNode id := rfl

theorem sameType_stripped (u : CompilationUnit hash) (a b : TypeId) :
    u.stripped.sameType a b = u.sameType a b := sameType_congr (u := u) (v := u.stripped) rfl a b

theorem addExpr_stripped (u : CompilationUnit hash) (expr : Expr) (pos : Position) :
    u.stripped.addExpr expr pos = ((u.addExpr expr pos).1, (u.addExpr expr pos).2.stripped) := by
  simp only [addExpr, stripped, Array.map_push]
  rfl

theorem modifyFindings_stripped {f : Findings → Findings}
    (hf : ∀ found, f found.stripped = (f found).stripped) :
    u.stripped.modifyFindings id f = (u.modifyFindings id f).stripped := by
  simp only [modifyFindings, stripped, map_modify_of_comm u.findings id.index hf]

theorem compareTypes_stripped (u : CompilationUnit hash) (a b : TypeId) :
    u.stripped.compareTypes a b = u.compareTypes a b := by
  simp only [compareTypes, sameType_stripped]
  rfl

/-- Only a referent is a binding's to record. -/
theorem record_stripped (u : CompilationUnit hash) (slot : Slot) (hslot : slot ≠ .referent)
    (id : ExprId) (value : slot.Value) :
    u.stripped.record slot id value = (u.record slot id value).map stripped := by
  have hget (found : Findings) : found.stripped.get slot = found.get slot := by
    cases slot with
    | referent => exact absurd rfl hslot
    | constantForm | type | denotedType => rfl
  have hput (found : Findings) :
      found.stripped.put slot value = (found.put slot value).stripped := by
    cases slot with
    | referent => exact absurd rfl hslot
    | constantForm | type | denotedType => rfl
  have hsize : u.stripped.findings.size = u.findings.size := Array.size_map
  unfold record
  rw [hsize, findingsOf_stripped, hget]
  refine bind_of_comm _ fun _ => bind_of_comm _ fun _ => ?_
  exact congrArg Except.ok (modifyFindings_stripped hput)

end CompilationUnit

namespace Checker

open CompilationUnit

variable {u : CompilationUnit hash} {c : Checker hash} {id : ExprId}

theorem andThen_stripped {α β : Type} (answer : Answer hash α)
    {next : α → CompilationUnit hash → Except Breach (Answer hash β)}
    (h : ∀ value u, next value u.stripped = (next value u).map Answer.stripped) :
    answer.stripped.andThen next = (answer.andThen next).map Answer.stripped := by
  obtain ⟨value, u⟩ := answer
  cases value with
  | error e => rfl
  | ok value => exact h value u

/-! ## Constant forms -/

theorem pendingResult?_stripped (u : CompilationUnit hash) :
    pendingResult? u.stripped = pendingResult? u := by
  funext id
  simp only [pendingResult?, findingsOf_stripped, Findings.stripped]
  rfl

theorem formAround_stripped (u : CompilationUnit hash) (id : ExprId) (form : Option ExprId) :
    formAround u.stripped id form =
      ((formAround u id form).1, (formAround u id form).2.stripped) := by
  cases form with
  | none => rfl
  | some result => simp only [formAround, expr_stripped, addExpr_stripped]

theorem recordConstantForms_stripped (u : CompilationUnit hash) (form : Option ExprId)
    (outer : List ExprId) :
    recordConstantForms u.stripped form outer =
      (recordConstantForms u form outer).map fun last => (last.1, last.2.stripped) := by
  induction outer generalizing u form with
  | nil => rfl
  | cons next rest ih =>
      rw [recordConstantForms_cons, recordConstantForms_cons, formAround_stripped,
        record_stripped _ .constantForm nofun]
      cases (formAround u next form).2.record .constantForm next (formAround u next form).1 with
      | error breach => rfl
      | ok v => exact ih v _

theorem constantForm_stripped (c : Checker hash) (u : CompilationUnit hash) (id : ExprId) :
    c.constantForm u.stripped id = (c.constantForm u id).map Answer.stripped := by
  unfold constantForm
  refine bind_of_comm _ fun _ => ?_
  rw [pendingResult?_stripped]
  generalize id.descend (pendingResult? u) [] = reached
  obtain ⟨outer, inner⟩ := reached
  simp only [findingsOf_stripped, expr_stripped, Findings.stripped]
  cases (u.findingsOf inner).constantForm with
  | some form =>
      dsimp only
      rw [recordConstantForms_stripped]
      exact map_bind_of_comm _ fun _ => rfl
  | none =>
      dsimp only
      cases c.leafConstantForm inner (u.expr inner) with
      | error e => rfl
      | ok form =>
          dsimp only
          rw [record_stripped _ .constantForm nofun]
          refine map_bind_of_comm _ fun v => ?_
          rw [recordConstantForms_stripped]
          exact map_bind_of_comm _ fun _ => rfl

/-! ## Denoted types -/

theorem pendingDenotation?_stripped (u : CompilationUnit hash) :
    pendingDenotation? u.stripped = pendingDenotation? u := by
  funext id
  simp only [pendingDenotation?, findingsOf_stripped, Findings.stripped]
  rfl

theorem recordDenotedTypes_stripped (u : CompilationUnit hash) (type : Option TypeId)
    (outer : List ExprId) :
    recordDenotedTypes u.stripped type outer =
      (recordDenotedTypes u type outer).map fun last => (last.1, last.2.stripped) := by
  induction outer generalizing u type with
  | nil => rfl
  | cons next rest ih =>
      have haround : typeAround u.stripped type =
          ((typeAround u type).1, (typeAround u type).2.stripped) := by cases type <;> rfl
      rw [recordDenotedTypes_cons, recordDenotedTypes_cons, haround,
        record_stripped _ .denotedType nofun]
      cases (typeAround u type).2.record .denotedType next (typeAround u type).1 with
      | error breach => rfl
      | ok v => exact ih v _

theorem denotedType_stripped (u : CompilationUnit hash) (id : ExprId) :
    denotedType u.stripped id =
      (denotedType u id).map fun last => (last.1, last.2.stripped) := by
  unfold denotedType
  refine bind_of_comm _ fun _ => ?_
  rw [pendingDenotation?_stripped]
  generalize id.descend (pendingDenotation? u) [] = reached
  obtain ⟨outer, inner⟩ := reached
  simp only [findingsOf_stripped, expr_stripped, Findings.stripped]
  cases (u.findingsOf inner).denotedType with
  | some type => exact recordDenotedTypes_stripped u type outer
  | none =>
      dsimp only
      rw [record_stripped _ .denotedType nofun]
      exact map_bind_of_comm _ fun v => recordDenotedTypes_stripped v _ outer

/-! ## Types of expressions -/

theorem typeOfValue_stripped (c : Checker hash) (u : CompilationUnit hash) (id : ExprId) :
    c.typeOfValue u.stripped id = (c.typeOfValue u id).map Answer.stripped := by
  unfold typeOfValue
  simp only [findingsOf_stripped, expr_stripped, Findings.stripped]
  cases (u.findingsOf id).type with
  | some type => rfl
  | none =>
      dsimp only
      cases c.leafType (u.expr id) with
      | error e => rfl
      | ok type =>
          dsimp only
          rw [record_stripped _ .type nofun]
          cases u.record .type id type <;> rfl

theorem typeReturns_stripped (u : CompilationUnit hash) (expected : TypeId) (value : ExprId)
    (actual : TypeId) (outer : List ExprId) :
    typeReturns u.stripped expected value actual outer =
      (typeReturns u expected value actual outer).map Answer.stripped := by
  induction outer generalizing u value actual with
  | nil => rfl
  | cons next rest ih =>
      unfold typeReturns
      rw [compareTypes_stripped]
      refine bind_of_comm _ fun same => ?_
      split
      · rw [record_stripped _ .type nofun]
        exact map_bind_of_comm _ fun v => ih v _ _
      · rfl

theorem pendingValue?_stripped (u : CompilationUnit hash) :
    pendingValue? u.stripped = pendingValue? u := by
  funext id
  simp only [pendingValue?, findingsOf_stripped, Findings.stripped]
  rfl

theorem typeOf_stripped (c : Checker hash) (u : CompilationUnit hash) (id : ExprId) :
    c.typeOf u.stripped id = (c.typeOf u id).map Answer.stripped := by
  unfold typeOf
  refine bind_of_comm _ fun _ => ?_
  rw [pendingValue?_stripped]
  generalize id.descend (pendingValue? u) [] = reached
  obtain ⟨outer, value⟩ := reached
  cases outer with
  | nil => exact typeOfValue_stripped c u value
  | cons next rest =>
      cases c.returnType with
      | none => rfl
      | some expected =>
          dsimp only
          rw [typeOfValue_stripped]
          exact map_bind_of_comm _ fun answer => andThen_stripped answer fun actual v =>
            typeReturns_stripped v expected value actual (next :: rest)

/-! ## Items -/

theorem denotationError_stripped (c : Checker hash) (u : CompilationUnit hash)
    (signature : ExprId) :
    c.denotationError u.stripped signature =
      (c.denotationError u signature).map Answer.stripped := by
  unfold denotationError
  have hresult : u.stripped.functionResult? signature = u.functionResult? signature := rfl
  simp only [hresult, typeOf_stripped]
  exact map_bind_of_comm _ fun answer => andThen_stripped answer fun _ _ => rfl

theorem denotedReturnType_stripped (c : Checker hash) (u : CompilationUnit hash)
    (signature : ExprId) :
    c.denotedReturnType u.stripped signature =
      (c.denotedReturnType u signature).map Answer.stripped := by
  unfold denotedReturnType
  rw [denotedType_stripped]
  refine map_bind_of_comm _ fun ⟨type?, v⟩ => ?_
  cases type? with
  | none => exact denotationError_stripped c v signature
  | some type =>
      refine bind_of_comm _ fun _ => ?_
      rw [typeNode_stripped]
      cases v.typeNode type <;> rfl

theorem returnTypeOf_stripped (c : Checker hash) (u : CompilationUnit hash) (signature : ExprId) :
    c.returnTypeOf u.stripped signature = (c.returnTypeOf u signature).map Answer.stripped := by
  unfold returnTypeOf
  rw [constantForm_stripped]
  refine map_bind_of_comm _ fun first => andThen_stripped first fun form v => ?_
  dsimp only
  rw [typeOf_stripped]
  refine map_bind_of_comm _ fun second => andThen_stripped second fun type w => ?_
  rw [compareTypes_stripped]
  refine bind_of_comm _ fun same => ?_
  split
  · exact denotedReturnType_stripped c w _
  · rfl

theorem checkBody_stripped (c : Checker hash) (u : CompilationUnit hash) (returnType : TypeId)
    (body : ExprId) : c.checkBody u.stripped returnType body =
      (c.checkBody u returnType body).map fun checked => (checked.1.stripped, checked.2) := by
  unfold checkBody
  dsimp only
  rw [typeOf_stripped]
  refine map_bind_of_comm _ fun answer => ?_
  cases c.scopes.push.pop <;> rfl

/-- The check of an item does not look at bindings, and leaves them. -/
theorem check_stripped (c : Checker hash) (u : CompilationUnit hash) (item : ItemId) :
    c.check u.stripped item =
      (c.check u item).map fun checked => (checked.1.stripped, checked.2) := by
  unfold check
  refine bind_of_comm _ fun _ => ?_
  have hitem : u.stripped.item item = u.item item := rfl
  simp only [hitem, returnTypeOf_stripped]
  refine map_bind_of_comm _ fun answer => ?_
  obtain ⟨value, v⟩ := answer
  cases value with
  | error e => rfl
  | ok returnType => exact checkBody_stripped c v returnType _

end Checker

end FrontEnd
