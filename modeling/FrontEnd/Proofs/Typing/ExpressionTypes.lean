import FrontEnd.Proofs.Typing.Questions

/-! # Types of expressions in sound units

The type of an expression is found or an error explains why not. A return is typed only against
the declared return type of the item whose body it is in. -/

namespace FrontEnd

variable {hash : Hasher}

namespace Answer

variable {α β : Type} {answer : Answer hash α}
  {next : α → CompilationUnit hash → Except Breach (Answer hash β)}

theorem andThen_of_ok {value : α} (h : answer.value = .ok value) :
    answer.andThen next = next value answer.unit := by
  rw [andThen, h]

theorem andThen_of_error {e : TypingError} (h : answer.value = .error e) :
    answer.andThen next = .ok ⟨.error e, answer.unit⟩ := by
  rw [andThen, h]

end Answer

namespace Checker

open CompilationUnit

variable {constants : Constants} {u v : CompilationUnit hash} {c : Checker hash} {id : ExprId}

theorem pendingValue?_eq (u : CompilationUnit hash) :
    pendingValue? u = pending? (fun found => found.type) u.returnedValue? u := rfl

theorem pendingValue?_eq_some_iff {value : ExprId} :
    pendingValue? u id = some value ↔ (u.findingsOf id).type = none ∧
      ∃ pos, u.Holds id (.return_ value) pos := by
  rw [pendingValue?_eq, pending?_eq_some_iff, returnedValue?_eq_some_iff]

theorem returnedValue?_leadsDown (h : u.Sound constants) : LeadsDown u.returnedValue? := by
  intro id inner hinner
  obtain ⟨pos, hid⟩ := returnedValue?_eq_some_iff.mp hinner
  exact h.exprsDescend id inner (child?_of_holds hid)

theorem pendingValue?_leadsDown (h : u.Sound constants) : LeadsDown (pendingValue? u) :=
  pending?_leadsDown (returnedValue?_leadsDown h)

theorem pendingValue?_trail (h : u.Sound constants) {leaf top : ExprId} {outer : List ExprId}
    (htrail : Trail (pendingValue? u) leaf outer top) (hgrown : u.Grown v)
    (hothers : ∀ id, id ≠ leaf → (v.findingsOf id).type = (u.findingsOf id).type) :
    Trail (pendingValue? v) leaf outer top := by
  refine pending?_trail (returnedValue?_leadsDown h) htrail (fun id inner hinner => ?_) hothers
  obtain ⟨pos, hid⟩ := returnedValue?_eq_some_iff.mp hinner
  exact returnedValue?_eq_some_iff.mpr ⟨pos, hgrown.holds hid⟩

theorem returnsTo_of_pending {leaf top : ExprId} {outer : List ExprId}
    (htrail : Trail (pendingValue? u) leaf outer top) : u.ReturnsTo top leaf :=
  ⟨outer, htrail.congr fun _ _ _ hinner =>
    returnedValue?_eq_some_iff.mpr (pendingValue?_eq_some_iff.mp hinner).2⟩

/-- A type that is found is a type. -/
theorem typed_lt (h : u.Sound constants) {type : TypeId} (htype : u.Typed constants id type) :
    type.index < u.types.size := by
  cases htype with
  | literal _ => exact (h.baseTypes .int32).lt
  | name _ hname => exact (h.constantsHold _ _ hname).2
  | baseType _ => exact (h.baseTypes .type).lt
  | functionType _ => exact (h.baseTypes .type).lt
  | return_ _ _ _ _ _ _ => exact (h.baseTypes .never).lt

theorem declaredReturn_lt (h : u.Sound constants) {function : FunctionItem} {expected : TypeId}
    (hdeclared : u.declaredReturn? function = some expected) : expected.index < u.types.size := by
  obtain ⟨form, type, -, -, hnode⟩ := declaredReturn?_eq_some_iff.mp hdeclared
  exact Nat.lt_trans (h.typesDescend type expected hnode) hnode.lt

/-! ## Values -/

/-- A value has a type unless it is a name that is out of scope. -/
theorem leafType_spec (hfits : c.Fits constants) (hid : id.index < u.exprs.size)
    (hvalue : ∀ value pos, ¬ u.Holds id (.return_ value) pos) :
    (∃ type, c.leafType (u.expr id) = .ok type ∧ u.Typed constants id type) ∨
      ∃ name pos, c.leafType (u.expr id) = .error (.unknownName name pos) ∧
        u.Holds id (.name name) pos ∧ c.scopes.lookup name = none := by
  have hholds := holds_expr hid
  cases hexpr : (u.expr id).expr with
  | intLiteral value =>
      rw [hexpr] at hholds
      exact .inl ⟨_, by simp only [leafType, hexpr], .literal hholds⟩
  | baseType kind =>
      rw [hexpr] at hholds
      exact .inl ⟨_, by simp only [leafType, hexpr], .baseType hholds⟩
  | functionType result =>
      rw [hexpr] at hholds
      exact .inl ⟨_, by simp only [leafType, hexpr], .functionType hholds⟩
  | return_ value =>
      rw [hexpr] at hholds
      exact absurd hholds (hvalue value _)
  | name name =>
      rw [hexpr] at hholds
      cases hfound : c.scopes.lookup name with
      | some binding =>
          refine .inl ⟨binding.type, ?_, .name hholds (hfits.within name binding hfound)⟩
          simp [leafType, hexpr, lookup_eq_ok_iff.mpr hfound, Except.map]
      | none =>
          refine .inr ⟨name, _, ?_, hholds, hfound⟩
          simp [leafType, hexpr, lookup_eq_error_iff.mpr ⟨hfound, rfl⟩, Except.map]

theorem typeOfValue_spec (h : u.Sound constants) (hfits : c.Fits constants)
    (hid : id.index < u.exprs.size) (hstop : pendingValue? u id = none) :
    ∃ answer, c.typeOfValue u id = .ok answer ∧ answer.unit.Sound constants ∧
      u.Asked answer.unit ∧
      (∀ other, other ≠ id → answer.unit.findingsOf other = u.findingsOf other) ∧
      ((∃ type, answer.value = .ok type ∧ (answer.unit.findingsOf id).type = some type) ∨
      (answer.unit = u ∧ ∃ name pos, answer.value = .error (.unknownName name pos) ∧
        u.Holds id (.name name) pos ∧ c.scopes.lookup name = none)) := by
  unfold typeOfValue
  cases hslot : (u.findingsOf id).type with
  | some type => exact ⟨_, rfl, h, .refl u, fun _ _ => rfl, .inl ⟨type, rfl, hslot⟩⟩
  | none =>
      have hvalue : ∀ value pos, ¬ u.Holds id (.return_ value) pos := by
        intro value pos hholds
        rw [pendingValue?_eq_some_iff.mpr ⟨hslot, pos, hholds⟩] at hstop
        cases hstop
      rcases leafType_spec hfits hid hvalue with
        ⟨type, hleaf, htype⟩ | ⟨name, pos, hleaf, hholds, hnone⟩
      · obtain ⟨v, hv, hsound, hqueried, hrecorded⟩ := h.recordType hid hslot htype
        have hothers : ∀ other, other ≠ id → v.findingsOf other = u.findingsOf other := by
          intro other hother
          rw [hrecorded.findingsOf_eq, if_neg hother]
        refine ⟨⟨.ok type, v⟩, ?_, hsound, ⟨hqueried, ?_⟩, hothers, .inl ⟨type, rfl, ?_⟩⟩
        · simp only [hleaf, hv]
          rfl
        · intro other value pos hholds
          rw [hothers other]
          rintro rfl
          exact hvalue value pos hholds
        · rw [hrecorded.findingsOf_eq, if_pos rfl]
      · refine ⟨⟨.error (.unknownName name pos), u⟩, ?_, h, .refl u, fun _ _ => rfl,
          .inr ⟨rfl, name, pos, rfl, hholds, hnone⟩⟩
        simp only [hleaf]

/-! ## Returns -/

theorem typeReturns_spec (h : u.Sound constants) {value top : ExprId} {outer : List ExprId}
    (htrail : Trail (pendingValue? u) value outer top) {actual : TypeId}
    (hfound : (u.findingsOf value).type = some actual) {item : ItemId} {function : FunctionItem}
    (hitem : u.HoldsItem item function) (hbody : function.body = top) {expected : TypeId}
    (hdeclared : u.declaredReturn? function = some expected) (source : ExprId) :
    ∃ answer, typeReturns u expected source actual outer = .ok answer ∧
      answer.unit.Sound constants ∧ u.Queried answer.unit ∧
      ((∃ type, answer.value = .ok type ∧ (answer.unit.findingsOf top).type = some type ∧
        ∀ inner, pendingValue? u top = some inner → ∃ found,
          (answer.unit.findingsOf inner).type = some found ∧ answer.unit.Alike expected found) ∨
      ∃ found pos, answer.value = .error (.mismatch expected found pos) ∧
        ¬ answer.unit.Alike expected found) := by
  induction outer generalizing u value actual source with
  | nil =>
      cases htrail
      refine ⟨⟨.ok actual, u⟩, rfl, h, .refl u, .inl ⟨actual, rfl, hfound, ?_⟩⟩
      intro inner hinner
      rw [(pendingValue?_eq_some_iff.mp hinner).1] at hfound
      cases hfound
  | cons next rest ih =>
      cases htrail with
      | out hnext hrest =>
          obtain ⟨hnone, pos, hholds⟩ := pendingValue?_eq_some_iff.mp hnext
          have hexpected := declaredReturn_lt h hdeclared
          have hactual := typed_lt h (h.typed value actual hfound)
          have hsame := h.typesDescend.sameType_iff_alike hexpected hactual
          by_cases halike : u.Alike expected actual
          · have htyped : u.Typed constants next BaseType.never.typeId :=
              .return_ hholds hfound hitem (hbody ▸ returnsTo_of_pending hrest) hdeclared halike
            obtain ⟨v, hv, hsound, hqueried, hrecorded⟩ :=
              h.recordType hholds.lt hnone htyped
            have htrail := pendingValue?_trail h hrest hqueried.toGrown fun id hid => by
              rw [hrecorded.findingsOf_eq, if_neg hid]
            obtain ⟨answer, hanswer, hsound', hqueried', hcases⟩ := ih hsound htrail
              (by rw [hrecorded.findingsOf_eq, if_pos rfl]) (hqueried.holdsItem hitem)
              (hqueried.declaredReturn? hdeclared) next
            refine ⟨answer, ?_, hsound', hqueried.trans hqueried', ?_⟩
            · simp only [typeReturns, compareTypes_of_lt hexpected hactual, hsame.mpr halike]
              rw [← hanswer]
              simp only [hv]
              rfl
            · rcases hcases with ⟨type, hok, htop, hinner⟩ | herror
              · refine .inl ⟨type, hok, htop, fun inner hpending => ?_⟩
                by_cases hlast : top = next
                · rw [hlast, hnext, Option.some.injEq] at hpending
                  subst hpending
                  have hgrown := (hqueried.trans hqueried').toGrown
                  exact ⟨actual, (hgrown.findings _).type _ hfound, hgrown.alike halike⟩
                · refine hinner inner ?_
                  obtain ⟨hnone', pos', hholds'⟩ := pendingValue?_eq_some_iff.mp hpending
                  refine pendingValue?_eq_some_iff.mpr ⟨?_, pos', hqueried.holds hholds'⟩
                  rw [hrecorded.findingsOf_eq, if_neg hlast, hnone']
              · exact .inr herror
          · refine ⟨⟨.error (.mismatch expected actual (u.expr source).pos), u⟩, ?_, h, .refl u,
              .inr ⟨actual, _, rfl, halike⟩⟩
            rw [← hsame] at halike
            simp only [typeReturns, compareTypes_of_lt hexpected hactual, halike]
            rfl

/-- Inside of a function the value of the innermost return is typed, and then the returns. -/
theorem typeOf_inside {expected : TypeId} (hinside : c.returnType = some expected)
    (hid : id.index < u.exprs.size) :
    c.typeOf u id = (c.typeOfValue u (id.descend (pendingValue? u) []).2).bind fun answer =>
      answer.andThen fun actual v => typeReturns v expected (id.descend (pendingValue? u) []).2
        actual (id.descend (pendingValue? u) []).1 := by
  rw [typeOf, checkIndex_bind_of_lt hid]
  generalize id.descend (pendingValue? u) [] = reached
  obtain ⟨returns, value⟩ := reached
  cases returns with
  | cons next rest =>
      simp only [hinside]
      rfl
  | nil =>
      cases hvalue : c.typeOfValue u value with
      | error breach => exact hvalue
      | ok answer =>
          obtain ⟨found, w⟩ := answer
          cases found <;> exact hvalue

/-- A checker inside of an item expects what this item declares. -/
def Inside (u : CompilationUnit hash) (id : ExprId) (c : Checker hash) : Prop :=
  ∀ expected, c.returnType = some expected → ∃ item function, u.HoldsItem item function ∧
    function.body = id ∧ u.declaredReturn? function = some expected

/-- The type of an expression is found or there is an error. A return that had no type before then
returns a value of the expected type. -/
theorem typeOf_spec (h : u.Sound constants) (hfits : c.Fits constants)
    (hid : id.index < u.exprs.size) (hinside : Inside u id c) :
    ∃ answer, c.typeOf u id = .ok answer ∧ answer.unit.Sound constants ∧
      u.Queried answer.unit ∧ (c.returnType = none → u.Asked answer.unit) ∧
      ((∃ type, answer.value = .ok type ∧ (answer.unit.findingsOf id).type = some type ∧
        ∀ inner, pendingValue? u id = some inner → ∃ expected found,
          c.returnType = some expected ∧ (answer.unit.findingsOf inner).type = some found ∧
          answer.unit.Alike expected found) ∨
      ∃ e, answer.value = .error e) := by
  have hdown := pendingValue?_leadsDown h
  obtain ⟨htrail, hstop⟩ := ExprId.descend_spec hdown (.stay id)
  rw [typeOf, checkIndex_bind_of_lt hid]
  generalize id.descend (pendingValue? u) [] = reached at htrail hstop ⊢
  obtain ⟨outer, value⟩ := reached
  change Trail (pendingValue? u) value outer id at htrail
  have hvalue : value.index < u.exprs.size := Nat.lt_of_le_of_lt (htrail.index_le hdown) hid
  obtain ⟨answer, hanswer, hsound, hasked, hothers, hcases⟩ :=
    typeOfValue_spec h hfits hvalue hstop
  cases outer with
  | nil =>
      cases htrail
      refine ⟨answer, hanswer, hsound, hasked.toQueried, fun _ => hasked, ?_⟩
      rcases hcases with ⟨type, hok, htype⟩ | ⟨-, name, pos, herror, -⟩
      · refine .inl ⟨type, hok, htype, fun inner hinner => ?_⟩
        rw [hinner] at hstop
        cases hstop
      · exact .inr ⟨_, herror⟩
  | cons next rest =>
      have hne : id ≠ value := by
        rintro rfl
        have hlt := (htrail.index_of_mem hdown (List.mem_cons_self ..)).1
        have hle := (htrail.index_of_mem hdown (List.mem_cons_self ..)).2
        omega
      cases hreturn : c.returnType with
      | none => exact ⟨_, rfl, h, .refl u, fun _ => .refl u, .inr ⟨_, rfl⟩⟩
      | some expected =>
          obtain ⟨item, function, hitem, hbody, hdeclared⟩ := hinside expected hreturn
          rcases hcases with ⟨actual, hok, hfound⟩ | ⟨-, name, pos, herror, -⟩
          · have htrail' := pendingValue?_trail h htrail hasked.toGrown fun other hother => by
              rw [hothers other hother]
            obtain ⟨last, hlast, hsound', hqueried, hreturns⟩ := typeReturns_spec hsound htrail'
              hfound (hasked.holdsItem hitem) hbody (hasked.declaredReturn? hdeclared) value
            refine ⟨last, ?_, hsound', hasked.toQueried.trans hqueried, by simp, ?_⟩
            · change (c.typeOfValue u value).bind (fun answer => answer.andThen fun actual u =>
                typeReturns u expected value actual (next :: rest)) = _
              rw [hanswer]
              simpa only [Except.bind, Answer.andThen_of_ok hok] using hlast
            · rcases hreturns with ⟨type, hok', htop, hinner⟩ | ⟨found, pos, herror, -⟩
              · refine .inl ⟨type, hok', htop, fun inner hpending => ?_⟩
                obtain ⟨hnone, pos, hholds⟩ := pendingValue?_eq_some_iff.mp hpending
                obtain ⟨found, hfound, halike⟩ := hinner inner
                  (pendingValue?_eq_some_iff.mpr
                    ⟨by rw [hothers id hne, hnone], pos, hasked.holds hholds⟩)
                exact ⟨expected, found, rfl, hfound, halike⟩
              · exact .inr ⟨_, herror⟩
          · refine ⟨⟨.error (.unknownName name pos), answer.unit⟩, ?_, hsound, hasked.toQueried,
              by simp, .inr ⟨_, rfl⟩⟩
            change (c.typeOfValue u value).bind (fun answer => answer.andThen fun actual u =>
              typeReturns u expected value actual (next :: rest)) = _
            rw [hanswer]
            simp only [Except.bind, Answer.andThen_of_error herror]

end Checker

end FrontEnd
