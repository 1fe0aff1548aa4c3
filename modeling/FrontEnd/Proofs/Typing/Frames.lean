import FrontEnd.Proofs.Typing.Items
import Mathlib.Data.Set.Basic

/-! # What questions leave alone

A question fills slots of findings of one kind, and adds the nodes that it fills them with. All
other slots and nodes stay, in every unit and for every checker. -/

namespace FrontEnd

variable {hash : Hasher}

namespace CompilationUnit

variable {slots more : Set Slot} {u v w : CompilationUnit hash} {id : ExprId}

/-- Some slots are filled. Only for constant forms expressions are added, and these are function
type expressions. -/
structure Fills (u : CompilationUnit hash) (slots : Set Slot) (v : CompilationUnit hash) : Prop
    extends
    Queried u v where
  exprs_eq : .constantForm ∉ slots → v.exprs = u.exprs
  get_eq : ∀ slot, slot ∉ slots → ∀ id, (v.findingsOf id).get slot = (u.findingsOf id).get slot
  holds_or : ∀ id expr pos, v.Holds id expr pos →
    u.Holds id expr pos ∨ ∃ result, expr = .functionType result

theorem Fills.refl (u : CompilationUnit hash) : u.Fills slots u :=
  ⟨.refl u, fun _ => rfl, fun _ _ _ => rfl, fun _ _ _ => .inl⟩

theorem Fills.trans (huv : u.Fills slots v) (hvw : v.Fills slots w) : u.Fills slots w where
  toQueried := huv.toQueried.trans hvw.toQueried
  exprs_eq h := (hvw.exprs_eq h).trans (huv.exprs_eq h)
  get_eq slot h id := (hvw.get_eq slot h id).trans (huv.get_eq slot h id)
  holds_or id expr pos h := (hvw.holds_or id expr pos h).elim (huv.holds_or id expr pos) .inr

theorem Fills.mono (h : u.Fills slots v) (hmore : slots ⊆ more) : u.Fills more v where
  toQueried := h.toQueried
  exprs_eq hnot := h.exprs_eq (Set.notMem_subset hmore hnot)
  get_eq slot hnot := h.get_eq slot (Set.notMem_subset hmore hnot)
  holds_or := h.holds_or

/-- Slots are filled by what is done after an answer. -/
theorem Fills.andThen {α β : Type} {answer : Answer hash α} (h : u.Fills slots answer.unit)
    {next : α → CompilationUnit hash → Except Breach (Answer hash β)} {last : Answer hash β}
    (hok : answer.andThen next = .ok last)
    (hnext : ∀ value, next value answer.unit = .ok last → answer.unit.Fills slots last.unit) :
    u.Fills slots last.unit := by
  cases hvalue : answer.value with
  | ok value =>
      rw [Answer.andThen_of_ok hvalue] at hok
      exact h.trans (hnext value hok)
  | error e =>
      rw [Answer.andThen_of_error hvalue] at hok
      cases hok
      exact h

/-! ## Recording -/

theorem fills_record {slot : Slot} {value : slot.Value} (hok : u.record slot id value = .ok v)
    (hslot : slot ≠ .referent) : u.Fills {slot} v where
  toQueried := queried_record hslot hok
  exprs_eq _ := (recorded_record hok).exprs_eq
  get_eq _ hnot := get_record_of_ne hok hnot
  holds_or _ _ _ h := .inl (by rwa [Holds, ← (recorded_record hok).exprs_eq])

theorem fills_addExpr (result : ExprId) (pos : Position) :
    u.Fills {.constantForm} (u.addExpr (.functionType result) pos).2 where
  toQueried := queried_addExpr u _ pos
  exprs_eq h := absurd rfl h
  get_eq _ _ id := by rw [findingsOf_addExpr]
  holds_or id expr pos' h := by
    rw [Holds, getElem?_addExpr] at h
    split at h
    · cases h
      exact .inr ⟨result, rfl⟩
    · exact .inl h

theorem fills_addFunctionType (result : TypeId) :
    u.Fills slots (u.addFunctionType result).2 :=
  ⟨queried_addFunctionType u result, fun _ => rfl, fun _ _ _ => rfl, fun _ _ _ => .inl⟩

end CompilationUnit

namespace Checker

open CompilationUnit

variable {u v : CompilationUnit hash} {c d : Checker hash} {id signature : ExprId}
  {outer : List ExprId}

/-! ## Constant forms -/

theorem recordConstantForms_fills {form last : Option ExprId}
    (hok : recordConstantForms u form outer = .ok (last, v)) : u.Fills {.constantForm} v := by
  induction outer generalizing u form with
  | nil =>
      cases hok
      exact .refl _
  | cons next rest ih =>
      rw [recordConstantForms_cons] at hok
      have hmade : u.Fills {.constantForm} (formAround u next form).2 := by
        cases form with
        | none => exact .refl u
        | some result => exact fills_addExpr result _
      split at hok
      · cases hok
      · rename_i w hw
        exact (hmade.trans (fills_record hw (by decide))).trans (ih hok)

theorem constantForm_fills {answer : Answer hash (Option ExprId)}
    (hok : c.constantForm u id = .ok answer) : u.Fills {.constantForm} answer.unit := by
  unfold constantForm at hok
  obtain ⟨-, hok⟩ := checkIndex_bind_eq_ok_iff.mp hok
  generalize id.descend (pendingResult? u) [] = reached at hok
  obtain ⟨outer, inner⟩ := reached
  dsimp only at hok
  split at hok
  · obtain ⟨⟨form, w⟩, hw, hok⟩ := Except.bind_eq_ok_iff.mp hok
    cases hok
    exact recordConstantForms_fills hw
  · split at hok
    · cases hok
      exact .refl u
    · obtain ⟨w, hw, hok⟩ := Except.bind_eq_ok_iff.mp hok
      obtain ⟨⟨form, x⟩, hx, hok⟩ := Except.bind_eq_ok_iff.mp hok
      cases hok
      exact (fills_record hw (by decide)).trans (recordConstantForms_fills hx)

/-! ## Denoted types -/

theorem recordDenotedTypes_fills {type last : Option TypeId}
    (hok : recordDenotedTypes u type outer = .ok (last, v)) : u.Fills {.denotedType} v := by
  induction outer generalizing u type with
  | nil =>
      cases hok
      exact .refl _
  | cons next rest ih =>
      rw [recordDenotedTypes_cons] at hok
      have hmade : u.Fills {.denotedType} (typeAround u type).2 := by
        cases type with
        | none => exact .refl u
        | some result => exact fills_addFunctionType result
      split at hok
      · cases hok
      · rename_i w hw
        exact (hmade.trans (fills_record hw (by decide))).trans (ih hok)

theorem denotedType_fills {type : Option TypeId} (hok : denotedType u id = .ok (type, v)) :
    u.Fills {.denotedType} v := by
  unfold denotedType at hok
  obtain ⟨-, hok⟩ := checkIndex_bind_eq_ok_iff.mp hok
  generalize id.descend (pendingDenotation? u) [] = reached at hok
  obtain ⟨outer, inner⟩ := reached
  dsimp only at hok
  split at hok
  · exact recordDenotedTypes_fills hok
  · obtain ⟨w, hw, hok⟩ := Except.bind_eq_ok_iff.mp hok
    exact (fills_record hw (by decide)).trans (recordDenotedTypes_fills hok)

/-! ## Types -/

theorem typeOfValue_fills {answer : Answer hash TypeId} (hok : c.typeOfValue u id = .ok answer) :
    u.Fills {.type} answer.unit := by
  unfold typeOfValue at hok
  split at hok
  · cases hok
    exact .refl u
  · split at hok
    · cases hok
      exact .refl u
    · obtain ⟨w, hw, rfl⟩ := Except.map_eq_ok_iff.mp hok
      exact fills_record hw (by decide)

theorem typeReturns_fills {expected actual : TypeId} {value : ExprId} {returns : List ExprId}
    {answer : Answer hash TypeId} (hok : typeReturns u expected value actual returns = .ok answer) :
    u.Fills {.type} answer.unit := by
  induction returns generalizing u value actual with
  | nil =>
      cases hok
      exact .refl u
  | cons next rest ih =>
      rw [typeReturns] at hok
      obtain ⟨-, hok⟩ := compareTypes_bind_eq_ok_iff.mp hok
      split at hok
      · obtain ⟨w, hw, hok⟩ := Except.bind_eq_ok_iff.mp hok
        exact (fills_record hw (by decide)).trans (ih hok)
      · cases hok
        exact .refl u

theorem typeOf_fills {answer : Answer hash TypeId} (hok : c.typeOf u id = .ok answer) :
    u.Fills {.type} answer.unit := by
  unfold typeOf at hok
  obtain ⟨-, hok⟩ := checkIndex_bind_eq_ok_iff.mp hok
  split at hok
  · exact typeOfValue_fills hok
  · split at hok
    · cases hok
      exact .refl u
    · obtain ⟨first, hfirst, hok⟩ := Except.bind_eq_ok_iff.mp hok
      exact (typeOfValue_fills hfirst).andThen hok fun _ => typeReturns_fills

/-! ## Items -/

theorem denotationError_fills {answer : Answer hash TypeId}
    (hok : c.denotationError u signature = .ok answer) : u.Fills {.type} answer.unit := by
  unfold denotationError at hok
  obtain ⟨first, hfirst, hok⟩ := Except.bind_eq_ok_iff.mp hok
  refine (typeOf_fills hfirst).andThen hok fun _ hlast => ?_
  cases hlast
  exact .refl _

theorem denotedReturnType_fills {answer : Answer hash TypeId}
    (hok : c.denotedReturnType u signature = .ok answer) :
    ∃ type? v, denotedType u signature = .ok (type?, v) ∧ v.Fills {.type} answer.unit := by
  unfold denotedReturnType at hok
  obtain ⟨⟨type?, w⟩, hw, hok⟩ := Except.bind_eq_ok_iff.mp hok
  refine ⟨type?, w, hw, ?_⟩
  cases type? with
  | none => exact denotationError_fills hok
  | some type =>
      obtain ⟨-, hok⟩ := checkIndex_bind_eq_ok_iff.mp hok
      split at hok <;> cases hok
      exact .refl _

/-- What is asked for a signature: its constant form, the type of this, and what it denotes. Each
question may be the last one. -/
theorem returnTypeOf_fills {answer : Answer hash TypeId}
    (hok : c.returnTypeOf u signature = .ok answer) :
    ∃ first, c.constantForm u signature = .ok first ∧ (answer.unit = first.unit ∨
      ∃ form typed, first.value = .ok form ∧
        c.typeOf first.unit (form.getD signature) = .ok typed ∧ (answer.unit = typed.unit ∨
          ∃ type? v, denotedType typed.unit (form.getD signature) = .ok (type?, v) ∧
            v.Fills {.type} answer.unit)) := by
  unfold returnTypeOf at hok
  obtain ⟨first, hfirst, hok⟩ := Except.bind_eq_ok_iff.mp hok
  refine ⟨first, hfirst, ?_⟩
  cases hform : first.value with
  | error e =>
      rw [Answer.andThen_of_error hform] at hok
      cases hok
      exact .inl rfl
  | ok form =>
      rw [Answer.andThen_of_ok hform] at hok
      obtain ⟨typed, htyped, hok⟩ := Except.bind_eq_ok_iff.mp hok
      refine .inr ⟨form, typed, rfl, htyped, ?_⟩
      cases htype : typed.value with
      | error e =>
          rw [Answer.andThen_of_error htype] at hok
          cases hok
          exact .inl rfl
      | ok type =>
          rw [Answer.andThen_of_ok htype] at hok
          obtain ⟨-, hok⟩ := compareTypes_bind_eq_ok_iff.mp hok
          split at hok
          · exact .inr (denotedReturnType_fills hok)
          · cases hok
            exact .inl rfl

/-- After the signature of an item, its check asks for types alone. -/
theorem check_fills {item : ItemId} {answer : Answer hash Unit}
    (hok : c.check u item = .ok (answer, d)) :
    ∃ returned, c.returnTypeOf u (u.item item).signature = .ok returned ∧
      returned.unit.Fills {.type} answer.unit := by
  unfold check at hok
  obtain ⟨-, hok⟩ := checkIndex_bind_eq_ok_iff.mp hok
  obtain ⟨returned, hreturned, hok⟩ := Except.bind_eq_ok_iff.mp hok
  refine ⟨returned, hreturned, ?_⟩
  split at hok
  · cases hok
    exact .refl _
  · obtain ⟨typed, scopes, htyped, -, rfl, rfl⟩ := checkBody_eq_ok_iff.mp hok
    exact typeOf_fills htyped

/-- After the form of its signature was found, the check of an item asks for what this denotes and
for types. -/
theorem check_fills_after_form {item : ItemId} {answer : Answer hash Unit}
    (hok : c.check u item = .ok (answer, d)) :
    ∃ first, c.constantForm u (u.item item).signature = .ok first ∧
      first.unit.Fills {.denotedType, .type} answer.unit := by
  obtain ⟨returned, hreturned, hbody⟩ := check_fills hok
  obtain ⟨first, hfirst, hrest⟩ := returnTypeOf_fills hreturned
  refine ⟨first, hfirst, Fills.trans ?_ (hbody.mono (by simp))⟩
  rcases hrest with hunit | ⟨form, typed, -, htyped, hrest⟩
  · exact hunit ▸ .refl _
  · refine ((typeOf_fills htyped).mono (by simp)).trans ?_
    rcases hrest with hunit | ⟨type?, w, hdenoted, hlast⟩
    · exact hunit ▸ .refl _
    · exact ((denotedType_fills hdenoted).mono (by simp)).trans (hlast.mono (by simp))

end Checker

end FrontEnd
