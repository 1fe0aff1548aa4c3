import FrontEnd.Proofs.Typing.Answers
import FrontEnd.Proofs.Typing.ItemReports

/-! # Independent checks

Checks share what was found for literals, names and function type expressions, and make new
expressions and types in one unit. Only what one of them finds for a return changes what another
one says. So items with no return in common are reported as if each were the only one that is ever
checked, in whatever order and however often they are. -/

namespace FrontEnd

variable {hash : Hasher}

/-! ## Reports of answers -/

/-- The message of an error, by what the error says. -/
def SpelledError.message (names : Interner hash.text) : SpelledError → Except Breach String
  | .unknownName name _ =>
    (names.lookup name).map fun text => "undeclared name `" ++ text ++ "`"
  | .mismatch expected actual _ =>
    .ok ("expected type `" ++ expected ++ "`, found `" ++ actual ++ "`")
  | .strayReturn pos => .ok (TypingError.strayReturn pos).summary

theorem TypingError.message_eq {u : CompilationUnit hash} {e : TypingError}
    (htypes : ∀ expected actual pos, e = .mismatch expected actual pos →
      expected.index < u.types.size ∧ actual.index < u.types.size) :
    e.message u = (e.spelled u).message u.names := by
  cases e with
  | mismatch expected actual pos =>
      obtain ⟨hexpected, hactual⟩ := htypes expected actual pos rfl
      simp only [message, checkIndex_of_lt hexpected, checkIndex_of_lt hactual]
      rfl
  | unknownName name pos => rfl
  | strayReturn pos => rfl

/-- All that is reported of an answer: an error is shown with its position, its name or its types
in full, and its message. -/
def Answer.report {α : Type} (answer : Answer hash α) :
    Except (SpelledError × Except Breach String) α :=
  answer.value.mapError fun e => (e.spelled answer.unit, e.message answer.unit)

/-- What an answer says, with the messages in a unit with some names. -/
def shown {α : Type} (names : Interner hash.text) (said : Except SpelledError α) :
    Except (SpelledError × Except Breach String) α :=
  said.mapError fun e => (e, e.message names)

theorem Answer.report_eq {α : Type} {answer : Answer hash α} (h : answer.KnowsTypes) :
    answer.report = shown answer.unit.names answer.spelled := by
  obtain ⟨value | e, u⟩ := answer
  · have hmessage := TypingError.message_eq fun expected actual pos he =>
      h expected actual pos (congrArg Except.error he)
    simp only [report, shown, spelled, Except.mapError, hmessage]
  · rfl

/-- Where all answers are there, they are those of the list. -/
theorem exists_mapM_eq_ok {ε α β : Type} {f : α → Except ε β} {items : List α}
    (h : ∀ item ∈ items, ∃ b, f item = .ok b) :
    ∃ bs, items.mapM f = .ok bs ∧ List.Forall₂ (fun item b => f item = .ok b) items bs := by
  induction items with
  | nil => exact ⟨[], rfl, .nil⟩
  | cons item rest ih =>
      obtain ⟨⟨b, hb⟩, hrest⟩ := List.forall_mem_cons.mp h
      obtain ⟨bs, hbs, hall⟩ := ih hrest
      exact ⟨b :: bs, by rw [List.mapM_cons, hb, hbs]; rfl, .cons hb hall⟩

namespace CompilationUnit

variable {constants : Constants} {u v : CompilationUnit hash} {c : Checker hash} {prelude : Prelude}
  {item other : ItemId} {answer : Answer hash Unit} {items : List ItemId}

/-! ## Checks one after another -/

/-- Checks items one after another, each in the unit that the one before it left. -/
def checkAll (u : CompilationUnit hash) (prelude : Prelude) :
    List ItemId → Except Breach (List (Answer hash Unit))
  | [] => return []
  | item :: rest => do
    let answer ← u.check item prelude
    let answers ← answer.unit.checkAll prelude rest
    return answer :: answers

/-- A unit is checked with a prelude, whose constants are known exactly. -/
structure CheckedWith (constants : Constants) (prelude : Prelude) (c : Checker hash)
    (u : CompilationUnit hash) : Prop where
  sound : u.Sound constants
  fitsIn : prelude.FitsIn u
  checker : Checker.ofPrelude u prelude = .ok c
  exact : c.Exact constants
  outside : c.returnType = none

namespace CheckedWith

/-- The check of an item is answered with its report. -/
theorem report (h : CheckedWith constants prelude c u) (hitem : item.index < u.items.size) :
    (u.check item prelude).map Answer.report =
      (u.itemReport constants (u.item item)).map (shown u.names) := by
  have hholds := holdsItem_item hitem
  rw [check_eq_map h.checker, ← Checker.check_report h.sound h.exact h.outside hholds]
  rcases Checker.check_spec h.sound h.exact.fits h.outside hholds with
    ⟨kind, hbreach, -⟩ | ⟨answer, d, hanswer, -, hqueried, -⟩
  · rw [hbreach]
    rfl
  · have hknows := Checker.check_knowsTypes h.sound h.exact.fits h.outside hanswer
    rw [hanswer]
    exact congrArg Except.ok ((Answer.report_eq hknows).trans (by rw [hqueried.names_eq]))

theorem exists_report (h : CheckedWith constants prelude c u) (hitem : item.index < u.items.size)
    (hcheck : ∀ kind, u.check item prelude ≠ .error (.signatureIsBaseType kind)) :
    ∃ report, (u.check item prelude).map Answer.report = .ok report := by
  rw [check_eq_map h.checker] at hcheck ⊢
  rcases Checker.check_spec h.sound h.exact.fits h.outside (holdsItem_item hitem) with
    ⟨kind, hbreach, -⟩ | ⟨answer, d, hanswer, -⟩
  · exact absurd (by rw [hbreach]; rfl) (hcheck kind)
  · exact ⟨answer.report, by rw [hanswer]; rfl⟩

theorem check (h : CheckedWith constants prelude c u) (hitem : item.index < u.items.size)
    (hok : u.check item prelude = .ok answer) :
    CheckedWith constants prelude c answer.unit ∧ u.Queried answer.unit := by
  obtain ⟨d, hchecked⟩ := (check_eq_ok_iff h.checker).mp hok
  obtain ⟨hsound, hqueried, -⟩ :=
    Checker.check_queried h.sound h.exact.fits h.outside hitem hchecked
  exact ⟨⟨hsound, h.fitsIn.grow hqueried.toGrown,
    (h.fitsIn.ofPrelude_eq hqueried.toGrown).trans h.checker, h.exact, h.outside⟩, hqueried⟩

/-- The check of an item leaves its own report as it is, and those of all items that have no
return in common with it. -/
theorem itemReport_eq (h : CheckedWith constants prelude c u) (hitem : item.index < u.items.size)
    (hother : other.index < u.items.size)
    (hapart : item ≠ other → u.ReturnsApart (u.item item) (u.item other))
    (hok : u.check item prelude = .ok answer) :
    answer.unit.itemReport constants (u.item other) = u.itemReport constants (u.item other) := by
  obtain ⟨hafter, hqueried⟩ := h.check hitem hok
  have hholds := holdsItem_item hitem
  obtain ⟨d, hchecked⟩ := (check_eq_ok_iff h.checker).mp hok
  by_cases hsame : item = other
  · -- the check gives its answer again
    rw [← hsame, ← Checker.check_report h.sound h.exact h.outside hholds,
      ← Checker.check_report hafter.sound h.exact h.outside (hqueried.holdsItem hholds),
      Checker.check_again h.sound h.exact.fits h.outside hholds hchecked, hchecked]
  · obtain ⟨hsignature, hbody⟩ := h.sound.items other _ (holdsItem_item hother)
    refine Checker.itemReport_congr hqueried.toGrown h.sound hsignature hbody
      fun id value pos hpart hreturn => ?_
    rw [Checker.check_others h.sound h.exact.fits h.outside hholds hchecked hreturn
      fun hshared => hapart hsame id value pos hreturn hshared hpart]

/-- What is reported of items is the same after the check of one of them. -/
theorem report_check (h : CheckedWith constants prelude c u) (hitem : item.index < u.items.size)
    (hother : other.index < u.items.size)
    (hapart : item ≠ other → u.ReturnsApart (u.item item) (u.item other))
    (hok : u.check item prelude = .ok answer) :
    (answer.unit.check other prelude).map Answer.report =
      (u.check other prelude).map Answer.report := by
  obtain ⟨hafter, hqueried⟩ := h.check hitem hok
  have hsame : answer.unit.item other = u.item other :=
    (hqueried.holdsItem (holdsItem_item hother)).item_eq
  rw [h.report hother, hafter.report (hqueried.items_eq ▸ hother), hsame,
    h.itemReport_eq hitem hother hapart hok, hqueried.names_eq]

end CheckedWith

/-- No two of some items have a return in common. -/
def ItemsReturnApart (u : CompilationUnit hash) (items : List ItemId) : Prop :=
  ∀ a ∈ items, ∀ b ∈ items, a ≠ b → u.ReturnsApart (u.item a) (u.item b)

theorem ItemsReturnApart.queried (h : u.ItemsReturnApart items)
    (hitems : ∀ item ∈ items, item.index < u.items.size) (hu : u.Sound constants)
    (hv : v.Sound constants) (hqueried : u.Queried v) : v.ItemsReturnApart items := by
  have hsame : ∀ item ∈ items, v.item item = u.item item := fun item hitem =>
    (hqueried.holdsItem (holdsItem_item (hitems item hitem))).item_eq
  have hpart : ∀ item ∈ items, ∀ id, v.PartOf (u.item item) id ↔ u.PartOf (u.item item) id :=
    fun item hitem id => by
      obtain ⟨hsignature, hbody⟩ := hu.items item _ (holdsItem_item (hitems item hitem))
      exact hqueried.partOf_iff hv.exprsDescend hsignature hbody
  intro a ha b hb hne id value pos hholds hfirst hsecond
  rw [hsame a ha, hpart a ha] at hfirst
  rw [hsame b hb, hpart b hb] at hsecond
  obtain ⟨hsignature, hbody⟩ := hu.items a _ (holdsItem_item (hitems a ha))
  exact h a ha b hb hne id value pos
    ((hqueried.holds_iff (hfirst.lt hu hsignature hbody)).mp hholds) hfirst hsecond

/-- Checks of items that have no returns in common report of each what they would of it alone. A
breach of one of them ends the checks with it. -/
theorem CheckedWith.checkAll (h : CheckedWith constants prelude c u)
    (hitems : ∀ item ∈ items, item.index < u.items.size) (hapart : u.ItemsReturnApart items)
    {alone : ItemId → Except Breach (Except (SpelledError × Except Breach String) Unit)}
    (halone : ∀ item ∈ items, (u.check item prelude).map Answer.report = alone item) :
    (u.checkAll prelude items).map (List.map Answer.report) = items.mapM alone := by
  induction items generalizing u with
  | nil => rfl
  | cons item rest ih =>
      obtain ⟨hitem, hrest⟩ := List.forall_mem_cons.mp hitems
      rw [List.mapM_cons, ← halone item (List.mem_cons_self ..), CompilationUnit.checkAll]
      cases hanswer : u.check item prelude with
      | error breach => rfl
      | ok answer =>
          -- the rest is checked in the unit that is left, where each is reported as before
          obtain ⟨hafter, hqueried⟩ := h.check hitem hanswer
          have hreports := ih hafter (hqueried.items_eq ▸ hrest)
            (ItemsReturnApart.queried (fun a ha b hb => hapart a (List.mem_cons_of_mem _ ha) b
              (List.mem_cons_of_mem _ hb)) hrest h.sound hafter.sound hqueried)
            fun other hother => (h.report_check hitem (hrest other hother)
              (hapart item (List.mem_cons_self ..) other (List.mem_cons_of_mem _ hother))
              hanswer).trans (halone other (List.mem_cons_of_mem _ hother))
          simp only [Bind.bind, Except.bind, Except.map, ← hreports]
          cases answer.unit.checkAll prelude rest <;> rfl

end CompilationUnit

/-! ## Sessions -/

namespace Session

variable {s t : Session hash} {prelude : Prelude}

theorem Step.checkers_eq_nil (hstep : Step s t) (h : t.checkers = []) : s.checkers = [] := by
  cases hstep with
  | checker | check => cases h
  | _ => exact h

/-- Without a checker nothing is found that depends on constants. -/
theorem Reachable.sound_of_no_checkers (hs : s.Reachable) (h : s.checkers = []) :
    s.unit.Sound fun _ => none := by
  induction hs with
  | refl => exact CompilationUnit.new_sound
  | tail _ hstep ih =>
      have hnone := hstep.checkers_eq_nil h
      refine (hstep.unit_spec (ih hnone) fun c hc => ?_).1
      rw [hnone] at hc
      cases hc

theorem Reachable.exists_checkedWith (hs : s.Reachable)
    (hprelude : prelude ∈ s.preludes ∨ prelude = .empty ∧ s.checkers = []) :
    ∃ constants c, CompilationUnit.CheckedWith constants prelude c s.unit := by
  have hsound := hs.sound
  have hfitsIn := hsound.fitsIn (hprelude.imp_right And.left)
  rcases hprelude with hprelude | ⟨rfl, hnone⟩
  · obtain ⟨c, hc, hscopes, hout, hlookup⟩ :=
      Checker.ofPrelude_standard hsound.unit (hsound.preludes prelude hprelude)
    exact ⟨_, c, hsound.unit, hfitsIn, hc, ⟨hscopes, hlookup, fun name binding hname =>
      (standardConstants_eq_some_iff.mp hname).2⟩, hout⟩
  · obtain ⟨c, hc, hscopes, hout, hlookup⟩ := Checker.ofPrelude_empty s.unit
    exact ⟨_, c, hs.sound_of_no_checkers hnone, hfitsIn, hc, ⟨hscopes, hlookup, nofun⟩, hout⟩

end Session

namespace CompilationUnit

variable {s : Session hash} {prelude : Prelude} {items : List ItemId}

/-- Checks of items that have no returns in common are independent: in whatever order and however
often the items are checked, what is reported of each is what would be reported if it were the only
one that is ever checked. This takes the standard prelude of the unit, or the empty one as long as
no checker has found names that the empty prelude does not know. -/
theorem checkAll_report (hs : s.Reachable)
    (hprelude : prelude ∈ s.preludes ∨ prelude = .empty ∧ s.checkers = [])
    (hitems : ∀ item ∈ items, item.index < s.unit.items.size)
    (hapart : s.unit.ItemsReturnApart items) :
    (s.unit.checkAll prelude items).map (List.map Answer.report) =
        items.mapM (fun item => (s.unit.check item prelude).map Answer.report) ∧
      ((∀ item ∈ items, ∀ kind, s.unit.check item prelude ≠ .error (.signatureIsBaseType kind)) →
        ∃ answers, s.unit.checkAll prelude items = .ok answers ∧
          List.Forall₂ (fun item answer => ∃ alone, s.unit.check item prelude = .ok alone ∧
            answer.report = alone.report) items answers) := by
  obtain ⟨constants, c, hchecked⟩ := hs.exists_checkedWith hprelude
  have hreports := hchecked.checkAll hitems hapart fun _ _ => rfl
  refine ⟨hreports, fun hcheck => ?_⟩
  obtain ⟨reports, hmapM, halone⟩ := exists_mapM_eq_ok fun item hitem =>
    hchecked.exists_report (hitems item hitem) (hcheck item hitem)
  rw [hmapM] at hreports
  obtain ⟨answers, hanswers, rfl⟩ := Except.map_eq_ok_iff.mp hreports
  refine ⟨answers, hanswers, (List.forall₂_map_right_iff.mp halone).imp fun item answer hitem => ?_⟩
  obtain ⟨alone, hchecked, hreport⟩ := Except.map_eq_ok_iff.mp hitem
  exact ⟨alone, hchecked, hreport.symm⟩

/-! ## Two items with one literal -/

/-- Two functions return one literal. The signature of one is the result of that of the other. -/
def sharedLiteral : CompilationUnit .constant :=
  let u := (Prelude.standard (.new .constant)).2
  let u := (u.addExpr (.name ⟨0⟩) .start).2
  let u := (u.addExpr (.functionType ⟨4⟩) .start).2
  let u := (u.addExpr (.functionType ⟨5⟩) .start).2
  let u := (u.addExpr (.intLiteral (.small 1)) .start).2
  let u := (u.addExpr (.return_ ⟨7⟩) .start).2
  let u := (u.addExpr (.return_ ⟨7⟩) .start).2
  let u := (u.addItem ⟨⟨0⟩, ⟨5⟩, ⟨8⟩, .start⟩).2
  (u.addItem ⟨⟨0⟩, ⟨6⟩, ⟨9⟩, .start⟩).2

theorem sharedLiteral_reachable :
    Session.Reachable ⟨sharedLiteral, [Prelude.initial], []⟩ := by
  have h₀ := Session.Reachable.step .refl (.prelude (.new .constant) (by decide))
  have h₁ := h₀.step (.addExpr _ (.name ⟨0⟩) .start ⟨by rintro _ ⟨⟩; decide +kernel,
    by simp [Expr.child?]⟩)
  have h₂ := h₁.step (.addExpr _ (.functionType ⟨4⟩) .start ⟨by simp [Expr.name?],
    by rintro _ ⟨⟩; decide +kernel⟩)
  have h₃ := h₂.step (.addExpr _ (.functionType ⟨5⟩) .start ⟨by simp [Expr.name?],
    by rintro _ ⟨⟩; decide +kernel⟩)
  have h₄ := h₃.step (.addExpr _ (.intLiteral (.small 1)) .start ⟨by simp [Expr.name?],
    by simp [Expr.child?]⟩)
  have h₅ := h₄.step (.addExpr _ (.return_ ⟨7⟩) .start ⟨by simp [Expr.name?],
    by rintro _ ⟨⟩; decide +kernel⟩)
  have h₆ := h₅.step (.addExpr _ (.return_ ⟨7⟩) .start ⟨by simp [Expr.name?],
    by rintro _ ⟨⟩; decide +kernel⟩)
  have h₇ := h₆.step (.addItem _ ⟨⟨0⟩, ⟨5⟩, ⟨8⟩, .start⟩ (by decide +kernel) (by decide +kernel)
    (by decide +kernel))
  exact h₇.step (.addItem _ ⟨⟨0⟩, ⟨6⟩, ⟨9⟩, .start⟩ (by decide +kernel) (by decide +kernel)
    (by decide +kernel))

/-- What both items have in common comes before their returns. -/
theorem sharedLiteral_apart : sharedLiteral.ItemsReturnApart [⟨1⟩, ⟨0⟩, ⟨1⟩] := by
  have hdown := sharedLiteral_reachable.sound.unit.exprsDescend
  have hshared : ∀ id, sharedLiteral.PartOf ⟨⟨0⟩, ⟨5⟩, ⟨8⟩, .start⟩ id →
      sharedLiteral.PartOf ⟨⟨0⟩, ⟨6⟩, ⟨9⟩, .start⟩ id → id.index < 8 := by
    rintro id ⟨top, outer, htop, htrail⟩ ⟨top', outer', htop', htrail'⟩
    have hle : id.index ≤ 8 := by
      rcases htop with rfl | rfl
      · exact Nat.le_trans (htrail.index_le hdown) (by decide)
      · exact htrail.index_le hdown
    rcases htop' with rfl | rfl
    · have : id.index ≤ 6 := htrail'.index_le hdown
      omega
    · rcases htrail'.eq_or_exists with rfl | ⟨inner, rest, hinner, hrest⟩
      · simp at hle
      · obtain rfl : (⟨7⟩ : ExprId) = inner := Option.some.inj (by rw [← hinner]; decide +kernel)
        have : id.index ≤ 7 := hrest.index_le hdown
        omega
  have hreturns : ∀ i < 8, sharedLiteral.returnedValue? ⟨i⟩ = none := by decide +kernel
  have hapart : ∀ id value pos, sharedLiteral.Holds id (.return_ value) pos →
      sharedLiteral.PartOf ⟨⟨0⟩, ⟨5⟩, ⟨8⟩, .start⟩ id →
      ¬ sharedLiteral.PartOf ⟨⟨0⟩, ⟨6⟩, ⟨9⟩, .start⟩ id := by
    intro id value pos hholds hfirst hsecond
    have hvalue := returnedValue?_eq_some_iff.mpr ⟨pos, hholds⟩
    rw [hreturns id.index (hshared id hfirst hsecond)] at hvalue
    cases hvalue
  intro a ha b hb hne id value pos hholds hfirst hsecond
  have hcases : ∀ a ∈ [(⟨1⟩ : ItemId), ⟨0⟩, ⟨1⟩], ∀ b ∈ [(⟨1⟩ : ItemId), ⟨0⟩, ⟨1⟩], a ≠ b →
      a = ⟨0⟩ ∧ b = ⟨1⟩ ∨ a = ⟨1⟩ ∧ b = ⟨0⟩ := by decide
  rcases hcases a ha b hb hne with ⟨rfl, rfl⟩ | ⟨rfl, rfl⟩
  · exact hapart id value pos hholds hfirst hsecond
  · exact hapart id value pos hholds hsecond hfirst

/-- A literal is what the first function returns and not what the second one does, whichever is
checked first, and however often. -/
theorem checkAll_report_sharedLiteral :
    (sharedLiteral.checkAll Prelude.initial [⟨1⟩, ⟨0⟩, ⟨1⟩]).map
        (List.map Answer.report) =
      .ok [.error (.mismatch "() -> Int32" "Int32" .start,
          .ok "expected type `() -> Int32`, found `Int32`"), .ok (),
        .error (.mismatch "() -> Int32" "Int32" .start,
          .ok "expected type `() -> Int32`, found `Int32`")] ∧
      ∃ answers, sharedLiteral.checkAll Prelude.initial [⟨1⟩, ⟨0⟩, ⟨1⟩] = .ok answers ∧
        List.Forall₂ (fun item answer => ∃ alone,
          sharedLiteral.check item Prelude.initial = .ok alone ∧
            answer.report = alone.report) [⟨1⟩, ⟨0⟩, ⟨1⟩] answers := by
  obtain ⟨hreports, hanswers⟩ := checkAll_report sharedLiteral_reachable
    (.inl (List.mem_singleton_self _)) (by decide +kernel) sharedLiteral_apart
  refine ⟨?_, hanswers ?_⟩
  · rw [hreports]
    decide +kernel
  · have hpanic : ∀ item ∈ [(⟨1⟩ : ItemId), ⟨0⟩, ⟨1⟩],
        (sharedLiteral.check item Prelude.initial).toOption.isSome = true := by
      decide +kernel
    intro item hitem kind hbreach
    have hsome := hpanic item hitem
    rw [hbreach] at hsome
    cases hsome

end CompilationUnit

end FrontEnd
