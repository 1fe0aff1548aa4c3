import FrontEnd.Proofs.SessionItems
import FrontEnd.Proofs.Typing.ParsedItems
import FrontEnd.Proofs.Typing.Repetition

/-! # Checks that are repeated

The check of an item gives its answer again and leaves its unit as it is, also where it stopped at
an error. -/

namespace FrontEnd.CompilationUnit

variable {hash : Hasher} {s : Session hash} {prelude : Prelude} {item : ItemId}
  {answer : Answer hash Unit}

/-- A check that was answered is answered the same once more, and changes nothing. -/
theorem check_idempotent (hs : s.Reachable) (hprelude : prelude ∈ s.preludes ∨ prelude = .empty)
    (hitem : item.index < s.unit.items.size) (hok : s.unit.check item prelude = .ok answer) :
    answer.unit.check item prelude = .ok answer := by
  have hsound := hs.sound
  have hfitsIn := hsound.fitsIn hprelude
  obtain ⟨c, hc, hfits, hout⟩ := hfitsIn.exists_checker hsound.unit
  have hholds := holdsItem_item hitem
  obtain ⟨d, hchecked⟩ := (check_eq_ok_iff hc).mp hok
  rcases Checker.check_spec hsound.unit hfits hout hholds with
    ⟨kind, hbreach, -⟩ | ⟨answer', d', hanswer, -, hqueried, -⟩
  · cases hbreach.symm.trans hchecked
  · obtain ⟨rfl, rfl⟩ := Prod.mk.inj (Except.ok.inj (hanswer.symm.trans hchecked))
    exact (check_eq_ok_iff ((hfitsIn.ofPrelude_eq hqueried.toGrown).trans hc)).mpr
      ⟨d', Checker.check_again hsound.unit hfits hout hholds hchecked⟩

/-- A literal is not what a function returns that declares a function type. The check says so again,
with the expressions and the types that it made for the signature. -/
theorem check_idempotent_literalUnit : ∃ answer,
    (literalUnit ⟨1⟩ 1).check ⟨0⟩ Prelude.initial = .ok answer ∧
      answer.value = .error (.mismatch ⟨4⟩ BaseType.int32.typeId .start) ∧
      answer.unit.exprs.size = (literalUnit ⟨1⟩ 1).exprs.size + 2 ∧
      answer.unit.check ⟨0⟩ Prelude.initial = .ok answer := by
  have hresult : ((literalUnit ⟨1⟩ 1).check ⟨0⟩ Prelude.initial).toOption.map
      (fun answer => (answer.value, answer.unit.exprs.size)) =
        some (.error (.mismatch ⟨4⟩ BaseType.int32.typeId .start),
          (literalUnit ⟨1⟩ 1).exprs.size + 2) := by
    decide +kernel
  obtain ⟨answer, hanswer, hfound⟩ := Option.map_eq_some_iff.mp hresult
  obtain ⟨hvalue, hsize⟩ := Prod.mk.inj hfound
  have hcheck := toOption_eq_some_iff.mp hanswer
  exact ⟨answer, hcheck, hvalue, hsize, check_idempotent (literalUnit_reachable (by decide) 1)
    (.inl (List.mem_singleton_self _)) (by decide +kernel) hcheck⟩

end FrontEnd.CompilationUnit
