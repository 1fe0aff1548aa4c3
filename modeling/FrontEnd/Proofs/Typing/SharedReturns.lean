import FrontEnd.Proofs.Session

/-! # Returns that items share

The type of a return is found once, by the check of whichever item reaches it first. An item that
is checked later passes with the value of that return, whatever it declares itself. -/

namespace FrontEnd

namespace CompilationUnit

variable {hash : Hasher} {s : Session hash} {prelude : Prelude} {item : ItemId}
  {function : FunctionItem}

/-! ## Two items with one body -/

/-- One return is the body of a function that declares `Int32` and of one that declares
`() -> Int32`. -/
def sharedBody : CompilationUnit .constant :=
  let u := (Prelude.standard (.new .constant)).2
  let u := (u.addExpr (.intLiteral (.small 1)) .start).2
  let u := (u.addExpr (.return_ ⟨4⟩) .start).2
  let u := (u.addExpr (.name ⟨0⟩) .start).2
  let u := (u.addExpr (.functionType ⟨6⟩) .start).2
  let u := (u.addExpr (.functionType ⟨7⟩) .start).2
  let u := (u.addItem ⟨⟨0⟩, ⟨7⟩, ⟨5⟩, .start⟩).2
  (u.addItem ⟨⟨0⟩, ⟨8⟩, ⟨5⟩, .start⟩).2

theorem sharedBody_reachable :
    Session.Reachable ⟨sharedBody, [Prelude.initial], []⟩ := by
  have h₀ := Session.Reachable.step .refl (.prelude (.new .constant) (by decide))
  have h₁ := h₀.step (.addExpr _ (.intLiteral (.small 1)) .start ⟨by simp [Expr.name?],
    by simp [Expr.child?]⟩)
  have h₂ := h₁.step (.addExpr _ (.return_ ⟨4⟩) .start ⟨by simp [Expr.name?],
    by rintro _ ⟨⟩; decide +kernel⟩)
  have h₃ := h₂.step (.addExpr _ (.name ⟨0⟩) .start ⟨by rintro _ ⟨⟩; decide +kernel,
    by simp [Expr.child?]⟩)
  have h₄ := h₃.step (.addExpr _ (.functionType ⟨6⟩) .start ⟨by simp [Expr.name?],
    by rintro _ ⟨⟩; decide +kernel⟩)
  have h₅ := h₄.step (.addExpr _ (.functionType ⟨7⟩) .start ⟨by simp [Expr.name?],
    by rintro _ ⟨⟩; decide +kernel⟩)
  have h₆ := h₅.step (.addItem _ ⟨⟨0⟩, ⟨7⟩, ⟨5⟩, .start⟩ (by decide +kernel) (by decide +kernel)
    (by decide +kernel))
  exact h₆.step (.addItem _ ⟨⟨0⟩, ⟨8⟩, ⟨5⟩, .start⟩ (by decide +kernel) (by decide +kernel)
    (by decide +kernel))

/-! ## Types of returned values -/

/-- An item that passes with a return for its body has a declared return type, and the value has a
type. The return was typed for an item that declares the type of the value: if it had no type
before, for this one. So the value has the declared type exactly if these two items declare the
same type. -/
theorem check_return_sameType_iff (hs : s.Reachable) (hprelude : prelude ∈ s.preludes)
    (hitem : s.unit.HoldsItem item function) {value : ExprId} {pos : Position}
    (hbody : s.unit.Holds function.body (.return_ value) pos) {answer : Answer hash Unit}
    (hcheck : s.unit.check item prelude = .ok answer) (hok : answer.value = .ok ()) :
    ∃ expected found, answer.unit.declaredReturn? function = some expected ∧
      (answer.unit.findingsOf value).type = some found ∧
      ((s.unit.findingsOf function.body).type = none →
        answer.unit.sameType expected found = true) ∧
      ∃ first firstFunction firstExpected, answer.unit.HoldsItem first firstFunction ∧
        answer.unit.ReturnsTo firstFunction.body function.body ∧
        answer.unit.declaredReturn? firstFunction = some firstExpected ∧
        answer.unit.sameType firstExpected found = true ∧
        (answer.unit.sameType expected found = true ↔
          answer.unit.sameType expected firstExpected = true) := by
  have hsound := hs.sound
  obtain ⟨c, -, hfits, hout, -, hchecker⟩ := hsound.exists_checker hprelude
  rw [hchecker] at hcheck
  rcases Checker.check_spec hsound.unit hfits hout hitem with
    ⟨kind, hbreach, -⟩ | ⟨answer', d, hanswer, hsound', hqueried, -, hcases⟩
  · rw [hbreach] at hcheck
    cases hcheck
  rw [hanswer] at hcheck
  obtain rfl : answer' = answer := Except.ok.inj hcheck
  obtain ⟨-, expected, type, hdeclared, htype, hinner⟩ | ⟨e, herror⟩ := hcases
  · obtain ⟨found, firstExpected, first, firstFunction, hfound, hfirst, hreturns, hfirstDeclared,
      halike⟩ := (hsound'.typed _ _ htype).exists_item (hqueried.holds hbody)
    have hsame : ∀ {a b : TypeId}, a.index < answer'.unit.types.size →
        b.index < answer'.unit.types.size →
        (answer'.unit.sameType a b = true ↔ answer'.unit.Alike a b) :=
      fun ha hb => hsound'.typesDescend.sameType_iff_alike ha hb
    have hexpectedLt := Checker.declaredReturn_lt hsound' hdeclared
    have hfirstLt := Checker.declaredReturn_lt hsound' hfirstDeclared
    have hfoundLt := Checker.typed_lt hsound' (hsound'.typed _ _ hfound)
    refine ⟨expected, found, hdeclared, hfound, fun hnone => ?_, first, firstFunction,
      firstExpected, hfirst, hreturns, hfirstDeclared, (hsame hfirstLt hfoundLt).mpr halike, ?_⟩
    · obtain ⟨found', hfound', halike'⟩ :=
        hinner value (Checker.pendingValue?_eq_some_iff.mpr ⟨hnone, pos, hbody⟩)
      rw [hfound, Option.some.injEq] at hfound'
      subst hfound'
      exact (hsame hexpectedLt hfoundLt).mpr halike'
    · rw [hsame hexpectedLt hfoundLt, hsame hexpectedLt hfirstLt]
      exact ⟨fun h => h.trans halike.symm, fun h => h.trans halike⟩
  · rw [herror] at hok
    cases hok

/-- The item that is checked first returns a value of the type that it declares. -/
theorem check_sharedBody_sameType : ∃ v expected found,
    sharedBody.passed? ⟨0⟩ Prelude.initial = some v ∧
      v.declaredReturn? ⟨⟨0⟩, ⟨7⟩, ⟨5⟩, .start⟩ = some expected ∧
      (v.findingsOf ⟨4⟩).type = some found ∧ v.sameType expected found = true := by
  have hpass : (sharedBody.passed? ⟨0⟩ Prelude.initial).isSome = true := by
    decide +kernel
  obtain ⟨v, hv⟩ := Option.isSome_iff_exists.mp hpass
  obtain ⟨expected, found, hexpected, hfound, hsame, -⟩ :=
    check_return_sameType_iff sharedBody_reachable (List.mem_singleton_self _)
      (rfl : sharedBody.HoldsItem ⟨0⟩ ⟨⟨0⟩, ⟨7⟩, ⟨5⟩, .start⟩)
      (rfl : sharedBody.Holds ⟨5⟩ (.return_ ⟨4⟩) .start) (passed?_eq_some_iff.mp hv) rfl
  exact ⟨v, expected, found, hv, hexpected, hfound, hsame rfl⟩

/-- A value may have another type than the item declares that passes with it: the item that
declares `() -> Int32` passes once the other one has. -/
theorem not_forall_check_return_sameType :
    ¬ ∀ (hash : Hasher) (s : Session hash) (prelude : Prelude) (item : ItemId)
      (function : FunctionItem) (value : ExprId) (pos : Position) (answer : Answer hash Unit),
      s.Reachable →
      prelude ∈ s.preludes → s.unit.HoldsItem item function →
      s.unit.Holds function.body (.return_ value) pos →
      s.unit.check item prelude = .ok answer → answer.value = .ok () →
      ∃ expected found, answer.unit.declaredReturn? function = some expected ∧
        (answer.unit.findingsOf value).type = some found ∧
        answer.unit.sameType expected found = true := by
  intro hreturnsDeclared
  have hresult : ((sharedBody.passed? ⟨0⟩ Prelude.initial).bind fun first =>
      (first.passed? ⟨1⟩ Prelude.initial).map fun second =>
        (second.declaredReturn? ⟨⟨0⟩, ⟨8⟩, ⟨5⟩, .start⟩).bind fun expected =>
          (second.findingsOf ⟨4⟩).type.map (second.sameType expected)) = some (some false) := by
    decide +kernel
  obtain ⟨first, hfirst, hresult⟩ := Option.bind_eq_some_iff.mp hresult
  obtain ⟨second, hsecond, hother⟩ := Option.map_eq_some_iff.mp hresult
  have hsound := sharedBody_reachable.sound
  have hprelude := List.mem_singleton_self Prelude.initial
  obtain ⟨checkers, hrun⟩ :=
    hsound.check_run hprelude (by decide +kernel) (passed?_eq_some_iff.mp hfirst)
  have hgrown := (hsound.run hrun).2
  obtain ⟨expected, found, hexpected, hfound, hsame⟩ := hreturnsDeclared _ _ _ ⟨1⟩
    ⟨⟨0⟩, ⟨8⟩, ⟨5⟩, .start⟩ ⟨4⟩ .start _ (sharedBody_reachable.trans hrun) hprelude
    (hgrown.holdsItem rfl) (hgrown.holds rfl) (passed?_eq_some_iff.mp hsecond) rfl
  simp [hexpected, hfound, hsame] at hother

end CompilationUnit

end FrontEnd
