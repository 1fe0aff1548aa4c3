import FrontEnd.Proofs.Session
import FrontEnd.Proofs.Typing.Verdicts

/-! # Checks of parsed items

The check of a parsed item says what the verdict on its spelling is, whatever was asked before.
Only an item that is made by hand around its return can make it pass without regard to the value
that it returns. -/

namespace FrontEnd

variable {hash : Hasher}

/-! ## Sessions -/

namespace Session

variable {s : Session hash} {item : ItemId} {function : FunctionItem} {prelude : Prelude}

/-- The check of an item that is spelled in a sound session. -/
theorem Sound.check_spells (h : s.Sound) (hprelude : prelude ∈ s.preludes)
    (hitem : s.unit.HoldsItem item function) {header : HeaderSyntax}
    {statement : StatementSyntax} (hspells : s.unit.SpellsItem function header statement) :
    ∃ answer, s.unit.check item prelude = .ok answer ∧
      (answer.spelled = if (s.unit.findingsOf function.body).type = none then
        itemVerdict s.unit.names header.result statement.value
        else header.result.verdict s.unit.names) ∧
      ((∀ other otherFunction, s.unit.HoldsItem other otherFunction →
        s.unit.ReturnsTo otherFunction.body function.body → other = item) →
        answer.spelled = itemVerdict s.unit.names header.result statement.value) := by
  obtain ⟨c, -, hfits, hout, hlookup, hchecker⟩ := h.exists_checker hprelude
  obtain ⟨answer, d, hanswer, hspelled⟩ :=
    Checker.check_spells h.unit hfits hlookup hout hitem hspells
  refine ⟨answer, ?_, hspelled, fun honly => ?_⟩
  · rw [hchecker, hanswer]
    rfl
  · rw [hspelled]
    cases hfound : (s.unit.findingsOf function.body).type with
    | none => rw [if_pos rfl]
    | some type =>
        obtain ⟨hall, hresult⟩ := Checker.itemVerdict_of_typed h.unit hitem hspells honly hfound
        rw [if_neg (by simp), hall, hresult]

/-- A step in which items are made by parsing only. -/
def ParsingStep (s t : Session hash) : Prop :=
  Step s t ∧ (t.unit.items = s.unit.items ∨ ∃ tokens, t.unit = (s.unit.parse tokens).2)

/-- All items of a session were parsed. -/
def Parsed (s : Session hash) : Prop := Relation.ReflTransGen ParsingStep (new hash) s

theorem Parsed.reachable (h : s.Parsed) : s.Reachable := by
  induction h with
  | refl => exact .refl
  | tail _ hstep ih => exact ih.step hstep.1

theorem Parsed.itemsApart (h : s.Parsed) : s.unit.ItemsApart := by
  induction h with
  | refl =>
      constructor
      · intro item function hitem
        cases hitem
      · intro a b f g ha
        cases ha
  | tail hrun hstep ih =>
      have hsound := (Parsed.reachable hrun).sound
      obtain ⟨hstep, hitems | ⟨tokens, hparsed⟩⟩ := hstep
      · exact ih.grow (hsound.step hstep).2 hitems
      · rw [hparsed]
        exact ih.parse hsound.unit tokens

/-- Where all items were parsed, the check of each says what the verdict on it is, whatever was
bound, checked or asked before. -/
theorem Parsed.check_eq_verdict (h : s.Parsed) (hprelude : prelude ∈ s.preludes)
    (hitem : s.unit.HoldsItem item function) :
    ∃ header statement answer, s.unit.SpellsItem function header statement ∧
      s.unit.check item prelude = .ok answer ∧
      answer.spelled = itemVerdict s.unit.names header.result statement.value := by
  have hapart := h.itemsApart
  obtain ⟨header, statement, hspells⟩ := hapart.spelled item function hitem
  obtain ⟨answer, hanswer, -, honly⟩ := h.reachable.sound.check_spells hprelude hitem hspells
  exact ⟨header, statement, answer, hspells, hanswer,
    honly fun other otherFunction hother hreturns =>
      hapart.eq_of_returnsTo hother hitem hreturns⟩

end Session

/-! ## Functions that return a literal -/

namespace CompilationUnit

variable {s t : Session hash} {tokens : List Token} {item : ItemId} {u : CompilationUnit hash}
  {prelude : Prelude}

/-- A unit with the standard prelude and a name that is not of a constant. -/
def twoNames : CompilationUnit .constant := ((Prelude.standard (.new .constant)).2.intern "f").2

/-- The tokens of a function that returns a literal, where its return type is spelled as so many
function types around the first name, which is that of the integer type. -/
def literalFunction (name : Name) (depth : Nat) : List Token :=
  [⟨.keyword .def_, .start, .none⟩, ⟨.identifier, .start, .ident name⟩,
    ⟨.symbol .leftParen, .start, .none⟩, ⟨.symbol .rightParen, .start, .none⟩,
    ⟨.symbol .arrow, .start, .none⟩] ++
  (List.replicate depth [⟨.symbol .leftParen, .start, .none⟩,
    ⟨.symbol .rightParen, .start, .none⟩, ⟨.symbol .arrow, .start, .none⟩]).flatten ++
  [⟨.identifier, .start, .ident ⟨0⟩⟩, ⟨.symbol .leftBrace, .start, .none⟩,
    ⟨.keyword .return_, .start, .none⟩, ⟨.intLiteral, .start, .int (.small 1)⟩,
    ⟨.symbol .rightBrace, .start, .none⟩, .endOfFile .start]

def literalUnit (name : Name) (depth : Nat) : CompilationUnit .constant :=
  (twoNames.parse (literalFunction name depth)).2

theorem twoNames_reachable : Session.Reachable ⟨twoNames, [Prelude.initial], []⟩ := by
  have hprelude := Session.Reachable.step .refl (.prelude (.new .constant) (by decide))
  exact hprelude.step (.intern _ "f" (by decide +kernel))

theorem literalUnit_reachable {name : Name} (hname : name.index < 2) (depth : Nat) :
    Session.Reachable ⟨literalUnit name depth, [Prelude.initial], []⟩ := by
  refine twoNames_reachable.step (.parse _ (literalFunction name depth) ?_)
  have hsize : twoNames.names.size = 2 := by decide +kernel
  simp only [literalFunction, Token.name?, Token.endOfFile, Knows, hsize, List.forall_mem_append,
    List.mem_flatten, List.mem_replicate]
  simp
  refine ⟨by omega, ?_⟩
  rintro token - (rfl | rfl | rfl) <;> simp

/-! ## Parsed items -/

/-- The check of a parsed item says what the verdict on it is, exactly if its return has no type yet
or the verdict on its signature is the same: a return that was typed before is not looked at. One
that no other item reaches makes no difference. -/
theorem check_parsed_eq_verdict_iff (hs : s.Reachable)
    (hparse : s.unit.parse tokens = (.ok item, u))
    (hrun : Session.Run ⟨u, s.preludes, s.checkers⟩ t) (hprelude : prelude ∈ t.preludes) :
    ∃ header statement function answer, readItem tokens = .ok (header, statement) ∧
      t.unit.HoldsItem item function ∧ t.unit.SpellsItem function header statement ∧
      t.unit.check item prelude = .ok answer ∧
      (answer.spelled = itemVerdict t.unit.names header.result statement.value ↔
        (t.unit.findingsOf function.body).type = none ∨
          itemVerdict t.unit.names header.result statement.value =
            header.result.verdict t.unit.names) ∧
      ((t.unit.findingsOf function.body).type ≠ none →
        answer.spelled = header.result.verdict t.unit.names) ∧
      ((∀ other otherFunction, t.unit.HoldsItem other otherFunction →
        t.unit.ReturnsTo otherFunction.body function.body → other = item) →
        answer.spelled = itemVerdict t.unit.names header.result statement.value) := by
  obtain ⟨hsound, hgrown, -, hmade⟩ := parse_spec hs.sound.unit tokens
  rw [hparse] at hsound hgrown hmade
  obtain ⟨header, statement, function, hread, rfl, hitems, -, hspells⟩ := hmade item rfl
  have hitem := holdsItem_of_items_eq_push hitems
  obtain ⟨hafter, hgrown'⟩ := (hs.sound.grow hsound hgrown).run hrun
  have hitem' := hgrown'.holdsItem hitem
  have hspells' := hgrown'.spellsItem hspells
  obtain ⟨answer, hanswer, hspelled, honly⟩ := hafter.check_spells hprelude hitem' hspells'
  refine ⟨header, statement, function, answer, hread, hitem', hspells', hanswer, ?_, ?_, honly⟩
  · rw [hspelled]
    split
    · rename_i hnone
      exact iff_of_true rfl (.inl hnone)
    · rename_i hsome
      exact ⟨fun heq => .inr heq.symm, fun h => (h.resolve_left hsome).symm⟩
  · intro hsome
    rw [hspelled, if_neg hsome]

/-- A literal is returned as what it is. -/
theorem check_literalUnit_spelled : ∃ answer,
    (literalUnit ⟨1⟩ 0).check ⟨0⟩ Prelude.initial = .ok answer ∧
      answer.spelled = .ok () := by
  have hparse : twoNames.parse (literalFunction ⟨1⟩ 0) = (.ok ⟨0⟩, literalUnit ⟨1⟩ 0) :=
    Prod.ext (by decide +kernel) rfl
  have hread : readItem (literalFunction ⟨1⟩ 0) =
      .ok (⟨.start, ⟨1⟩, .start, ⟨[], ⟨0⟩, .start⟩⟩, ⟨.start, .literal (.small 1) .start⟩) := by
    decide +kernel
  have hitem : (literalUnit ⟨1⟩ 0).HoldsItem ⟨0⟩ ⟨⟨1⟩, ⟨5⟩, ⟨7⟩, .start⟩ := by
    unfold HoldsItem
    decide +kernel
  have hverdict : itemVerdict (literalUnit ⟨1⟩ 0).names ⟨[], ⟨0⟩, .start⟩
      (.literal (.small 1) .start) = .ok () := by
    decide +kernel
  obtain ⟨header, statement, function, answer, hread', hitem', -, hanswer, hspelled, -⟩ :=
    check_parsed_eq_verdict_iff twoNames_reachable hparse .refl (List.mem_singleton_self _)
  rw [hread] at hread'
  cases hread'
  obtain rfl : function = _ := hitem'.item_eq.symm.trans hitem.item_eq
  exact ⟨answer, hanswer, (hspelled.mpr (.inl (by decide +kernel))).trans hverdict⟩

/-- A parsed item may pass although the verdict on it is an error: a literal passes as
`() -> Int32` once another item returns it as `Int32`. -/
theorem not_forall_check_parsed_eq_verdict :
    ¬ ∀ (hash : Hasher) (s t : Session hash) (tokens : List Token) (item : ItemId)
      (u : CompilationUnit hash) (prelude : Prelude) (header : HeaderSyntax)
      (statement : StatementSyntax) (answer : Answer hash Unit), s.Reachable →
      s.unit.parse tokens = (.ok item, u) →
      Session.Run ⟨u, s.preludes, s.checkers⟩ t → prelude ∈ t.preludes →
      readItem tokens = .ok (header, statement) → t.unit.check item prelude = .ok answer →
      answer.spelled = itemVerdict t.unit.names header.result statement.value := by
  intro hfollowsVerdict
  have hparse : twoNames.parse (literalFunction ⟨1⟩ 1) = (.ok ⟨0⟩, literalUnit ⟨1⟩ 1) :=
    Prod.ext (by decide +kernel) rfl
  have hread : readItem (literalFunction ⟨1⟩ 1) =
      .ok (⟨.start, ⟨1⟩, .start, ⟨[.start], ⟨0⟩, .start⟩⟩,
        ⟨.start, .literal (.small 1) .start⟩) := by
    decide +kernel
  have hadd := Session.Step.addItem ⟨literalUnit ⟨1⟩ 1, [Prelude.initial], []⟩
    ⟨⟨1⟩, ⟨5⟩, ⟨8⟩, .start⟩ (by decide +kernel) (by decide +kernel) (by decide +kernel)
  have hs := (literalUnit_reachable (by decide : (⟨1⟩ : Name).index < 2) 1).step hadd
  have hresult : ((((literalUnit ⟨1⟩ 1).addItem ⟨⟨1⟩, ⟨5⟩, ⟨8⟩, .start⟩).2.passed? ⟨1⟩
      Prelude.initial).bind fun v => v.passed? ⟨0⟩ Prelude.initial).isSome = true := by
    decide +kernel
  obtain ⟨w, hboth⟩ := Option.isSome_iff_exists.mp hresult
  obtain ⟨v, hv, hw⟩ := Option.bind_eq_some_iff.mp hboth
  have hprelude := List.mem_singleton_self Prelude.initial
  obtain ⟨checkers, hrun⟩ :=
    hs.sound.check_run hprelude (by decide +kernel) (passed?_eq_some_iff.mp hv)
  have hsame := hfollowsVerdict _ _ _ _ _ _ _ _ _ _ twoNames_reachable hparse
    ((Relation.ReflTransGen.single hadd).trans hrun) hprelude hread (passed?_eq_some_iff.mp hw)
  change .ok () = itemVerdict v.names _ _ at hsame
  rw [itemVerdict, TypeSyntax.verdict] at hsame
  split at hsame <;> cases hsame

end CompilationUnit

end FrontEnd
