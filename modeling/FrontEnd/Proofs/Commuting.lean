import FrontEnd.Proofs.SessionItems
import FrontEnd.Proofs.Typing.ParsedItems

/-! # Binding and checking commute

The check does not look at what binding records, and binding does not look at what the check finds.
So an item that is not bound yet can be bound before its check or after it. -/

namespace FrontEnd

variable {hash : Hasher}

/-- In units that differ by bindings only, an item is checked alike. -/
theorem Checker.check_of_stripped_eq {c d : Checker hash} {u v w : CompilationUnit hash}
    {item : ItemId} {value : Except TypingError Unit} (h : v.stripped = u.stripped)
    (hok : c.check u item = .ok (⟨value, w⟩, d)) :
    ∃ x, c.check v item = .ok (⟨value, x⟩, d) ∧ x.stripped = w.stripped := by
  have hstripped := c.check_stripped u item
  rw [← h, c.check_stripped v item, hok] at hstripped
  cases hcheck : c.check v item with
  | error breach =>
      rw [hcheck] at hstripped
      cases hstripped
  | ok checked =>
      obtain ⟨⟨value', x⟩, d'⟩ := checked
      rw [hcheck] at hstripped
      simp only [Except.map, Answer.stripped, Except.ok.injEq, Prod.mk.injEq,
        Answer.mk.injEq] at hstripped
      obtain ⟨⟨rfl, hunit⟩, rfl⟩ := hstripped
      exact ⟨x, rfl, hunit⟩

namespace CompilationUnit

variable {s : Session hash} {prelude : Prelude} {item : ItemId} {function : FunctionItem}

/-- Both orders give the same answers and leave the same unit. -/
theorem bind_check_comm (hs : s.Reachable) (hprelude : prelude ∈ s.preludes ∨ prelude = .empty)
    (hitem : s.unit.HoldsItem item function) (hbindable : s.unit.Bindable item function)
    (hsignature : ∀ kind, s.unit.check item prelude ≠ .error (.signatureIsBaseType kind)) :
    ∃ bindAnswer checkAnswer bound checked both,
      s.unit.bind item prelude = .ok (bindAnswer, bound) ∧
      bound.check item prelude = .ok ⟨checkAnswer, both⟩ ∧
      s.unit.check item prelude = .ok ⟨checkAnswer, checked⟩ ∧
      checked.bind item prelude = .ok (bindAnswer, both) := by
  have hsound := hs.sound
  have hfitsIn := hsound.fitsIn hprelude
  obtain ⟨table, htable, hwellFormed⟩ := hfitsIn.exists_table
  obtain ⟨c, hc, hfits, hout⟩ := hfitsIn.exists_checker hsound.unit
  have hplace : item.index < s.unit.itemDeclarations.size := by
    rw [hs.hasPlaces]
    exact hitem.lt
  obtain ⟨bindAnswer, bound, hbind⟩ :=
    hbindable.bind_answered hsound.unit hitem hplace htable hwellFormed
  obtain ⟨hsoundBound, hgrown, -⟩ := bind_spec hsound.unit hitem hbind
  rcases Checker.check_spec hsound.unit hfits hout hitem with
    ⟨kind, hbreach, -⟩ | ⟨⟨checkAnswer, checked⟩, d, hcheck, hsoundChecked, hqueried, -⟩
  · refine absurd ?_ (hsignature kind)
    rw [check_eq_map hc, hbreach]
    rfl
  obtain ⟨both, hboth, hqueriedBoth⟩ := hqueried.bind hsound.unit hsoundChecked hitem hbind
  obtain ⟨w, hcheckBound, hw⟩ := Checker.check_of_stripped_eq (bind_stripped hbind).1 hcheck
  have hqueriedW : bound.Queried w := by
    rcases Checker.check_spec hsoundBound hfits hout (hgrown.holdsItem hitem) with
      ⟨kind, hbreach, -⟩ | ⟨answer, d', hanswer, -, hqueriedAnswer, -⟩
    · cases hbreach.symm.trans hcheckBound
    · obtain ⟨rfl, -⟩ := Prod.mk.inj (Except.ok.inj (hanswer.symm.trans hcheckBound))
      exact hqueriedAnswer
  -- what is left in both orders differs by bindings only, and questions keep those of `bound`
  have hsame : w = both :=
    hqueriedW.eq_of_stripped hqueriedBoth (hw.trans (bind_stripped hboth).1.symm)
  subst hsame
  exact ⟨bindAnswer, checkAnswer, bound, checked, w, hbind,
    (check_eq_ok_iff ((hfitsIn.ofPrelude_eq hgrown).trans hc)).mpr ⟨d, hcheckBound⟩,
    (check_eq_ok_iff hc).mpr ⟨d, hcheck⟩, hboth⟩

/-- The names of a function that returns a literal are bound, and its check finds that a literal is
not what it declares to return, in both orders. -/
theorem bind_check_comm_literalUnit : ∃ bound checked both,
    (literalUnit ⟨1⟩ 1).bind ⟨0⟩ Prelude.initial = .ok (.ok (), bound) ∧
      bound.check ⟨0⟩ Prelude.initial =
        .ok ⟨.error (.mismatch ⟨4⟩ BaseType.int32.typeId .start), both⟩ ∧
      (literalUnit ⟨1⟩ 1).check ⟨0⟩ Prelude.initial =
        .ok ⟨.error (.mismatch ⟨4⟩ BaseType.int32.typeId .start), checked⟩ ∧
      checked.bind ⟨0⟩ Prelude.initial = .ok (.ok (), both) := by
  have hread : readItem (literalFunction ⟨1⟩ 1) =
      .ok (⟨.start, ⟨1⟩, .start, ⟨[.start], ⟨0⟩, .start⟩⟩,
        ⟨.start, .literal (.small 1) .start⟩) := by
    decide +kernel
  obtain ⟨function, -, hchains, -⟩ := parse_twoChains twoNames hread
  have hs := literalUnit_reachable (by decide : (⟨1⟩ : Name).index < 2) 1
  have hplaces : twoNames.itemDeclarations.size = twoNames.items.size :=
    twoNames_reachable.hasPlaces
  have hunbound := hchains.unbound twoNames_reachable.sound.unit hs.sound.unit hplaces
  have hfirst : twoNames.items.size = 0 := by decide +kernel
  rw [hfirst] at hunbound
  have hitem : (literalUnit ⟨1⟩ 1).HoldsItem ⟨0⟩ function :=
    hfirst ▸ holdsItem_of_items_eq_push hchains.items_eq
  have hbindValue : ((literalUnit ⟨1⟩ 1).bind ⟨0⟩ Prelude.initial).toOption.map
      (fun bound => bound.1) = some (.ok ()) := by
    decide +kernel
  have hcheckValue : ((literalUnit ⟨1⟩ 1).check ⟨0⟩ Prelude.initial).toOption.map
      (fun answer => answer.value) =
        some (.error (.mismatch ⟨4⟩ BaseType.int32.typeId .start)) := by
    decide +kernel
  have hsignature : ∀ kind, (literalUnit ⟨1⟩ 1).check ⟨0⟩ Prelude.initial ≠
      .error (.signatureIsBaseType kind) := by
    intro kind hbreach
    rw [hbreach] at hcheckValue
    cases hcheckValue
  obtain ⟨bindAnswer, checkAnswer, bound, checked, both, hbind, hafter, hcheck, hboth⟩ :=
    bind_check_comm hs (.inl (List.mem_singleton_self _)) hitem
      (hunbound.bindable hs.sound.unit) hsignature
  rw [hbind] at hbindValue
  rw [hcheck] at hcheckValue
  obtain rfl : bindAnswer = .ok () := Option.some.inj hbindValue
  obtain rfl : checkAnswer = _ := Option.some.inj hcheckValue
  exact ⟨bound, checked, both, hbind, hafter, hcheck, hboth⟩

end CompilationUnit

end FrontEnd
