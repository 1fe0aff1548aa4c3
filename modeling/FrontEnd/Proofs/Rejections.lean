import FrontEnd.Proofs.ConstantReferents
import FrontEnd.Proofs.SessionItems

/-! # What the binder rejects

The check of a parsed item looks up the name in its signature, and it never takes a value that has a
name in it. So it ends with an error where the binder finds a name unbound, unless what it looks for
was found before. -/

namespace FrontEnd

variable {hash : Hasher}

/-! ## Names that no prelude has -/

/-- A name that the binder does not find in the standard prelude is not that of a constant. -/
theorem Prelude.IsStandard.standardConstants_eq_none {u : CompilationUnit hash} {prelude : Prelude}
    (h : prelude.IsStandard u) (hnames : u.names.WellFormed) {table : Bindings hash}
    (htable : Bindings.ofPrelude prelude = .ok table) {name : Name}
    (hnone : table.lookup name = none) : standardConstants u.names name = none := by
  obtain ⟨entryName, binding, constant, hentries, htext, -⟩ := h
  obtain ⟨table', htable', -, hlookup⟩ := Bindings.ofPrelude_eq hash hentries
  obtain rfl : table' = table := Except.ok.inj (htable'.symm.trans htable)
  rw [Option.eq_none_iff_forall_ne_some]
  intro found hfound
  obtain ⟨hsame, -⟩ := standardConstants_eq_some_iff.mp hfound
  obtain rfl := hnames.name_unique hsame htext
  rw [hlookup, if_pos rfl] at hnone
  cases hnone

/-- A type is never what a function returns. -/
theorem itemVerdict_type (names : Interner hash.text) (result written : TypeSyntax) :
    ∃ e, itemVerdict names result (.type written) = .error e := by
  unfold itemVerdict
  cases result.verdict names with
  | error e => exact ⟨e, rfl⟩
  | ok done =>
      change ∃ e, (ValueSyntax.type written).verdict names result = .error e
      unfold ValueSyntax.verdict
      dsimp only
      split <;> exact ⟨_, rfl⟩

theorem Answer.exists_error_of_spelled {α : Type} {answer : Answer hash α} {e : SpelledError}
    (h : answer.spelled = .error e) : ∃ e, answer.value = .error e := by
  cases hvalue : answer.value with
  | error e => exact ⟨e, rfl⟩
  | ok value =>
      rw [Answer.spelled, hvalue] at h
      cases h

namespace CompilationUnit

variable {constants : Constants} {u v : CompilationUnit hash} {id leaf : ExprId}
  {outer : List ExprId} {opens : List Position} {base name : Name} {basePos pos : Position}
  {function : FunctionItem} {header : HeaderSyntax} {statement : StatementSyntax}

/-- No constant form was found in the chain of an expression. -/
def Unevaluated (u : CompilationUnit hash) (id : ExprId) : Prop :=
  ∀ leaf outer, Trail u.child? leaf outer id → (u.findingsOf leaf).constantForm = none

/-- Nothing is found about a type whose name is not that of a constant. -/
theorem Spells.unevaluated (hspells : u.Spells id opens base basePos) (h : u.Sound constants)
    (hnone : constants base = none) : u.Unevaluated id := by
  intro leaf outer htrail
  obtain ⟨inner, hleaf⟩ := hspells.of_trail htrail
  rw [Option.eq_none_iff_forall_ne_some]
  intro form hform
  obtain ⟨binding, -, hbound, -⟩ := hleaf.form (h.forms leaf form hform)
  rw [hnone] at hbound
  cases hbound

/-- Nothing is found yet in the signature of an item that was just parsed. -/
theorem AddsTree.unevaluated (h : u.AddsTree v function) : v.Unevaluated function.signature := by
  intro leaf outer htrail
  rw [findingsOf, Array.getD_eq_getD_getElem?, h.unknown leaf ⟨_, outer, .inl rfl, htrail⟩]
  rfl

/-- A value with a name in it is a type. -/
theorem SpellsItem.value_of_name (hspells : u.SpellsItem function header statement)
    (htrail : Trail u.child? leaf outer function.body) (hname : u.Holds leaf (.name name) pos) :
    ∃ written, statement.value = .type written := by
  obtain ⟨value, hbody, hvalue⟩ := hspells.body
  rcases htrail.eq_or_exists with rfl | ⟨inner, rest, hinner, hrest⟩
  · cases (hbody.unique hname).1
  rw [child?_of_holds hbody] at hinner
  cases hinner
  generalize statement.value = written at hvalue
  cases hvalue with
  | type htype => exact ⟨_, rfl⟩
  | literal hliteral =>
      rcases hrest.eq_or_exists with rfl | ⟨inner, rest, hinner, -⟩
      · cases (hliteral.unique hname).1
      · rw [child?_of_holds hliteral] at hinner
        cases hinner

end CompilationUnit

/-! ## Checks -/

namespace Checker

open CompilationUnit

variable {constants : Constants} {u : CompilationUnit hash} {c : Checker hash} {id : ExprId}
  {opens : List Position} {base : Name} {basePos : Position} {item : ItemId}
  {function : FunctionItem}

/-- The name of a type that is spelled is looked up if nothing is found in it yet. -/
theorem constantForm_of_unknown (h : u.Sound constants)
    (hspells : u.Spells id opens base basePos) (hunevaluated : u.Unevaluated id)
    (hunknown : c.scopes.lookup base = none) :
    c.constantForm u id = .ok ⟨.error (.unknownName base basePos), u⟩ := by
  obtain ⟨htrail, hstop⟩ := ExprId.descend_spec (pendingResult?_leadsDown h.evaluable) (.stay id)
  rw [constantForm, checkIndex_bind_of_lt hspells.lt]
  generalize id.descend (pendingResult? u) [] = reached at htrail hstop ⊢
  obtain ⟨passed, inner⟩ := reached
  obtain ⟨outer, hinside⟩ := (functionsTo_of_pending htrail).trail
  have hnone := hunevaluated inner outer hinside
  obtain ⟨rest, hinner⟩ := hspells.of_trail hinside
  cases hinner with
  | name hholds =>
      simp only [hnone, leafConstantForm, hholds.expr_eq,
        lookup_eq_error_iff.mpr ⟨hunknown, rfl⟩, Except.map]
      rfl
  | function hholds _ =>
      rw [pendingResult?_eq_some_iff.mpr ⟨hnone, _, hholds⟩] at hstop
      cases hstop

/-- The check of an item ends at once if the name in its signature is unknown. -/
theorem check_of_unknown (h : u.Sound constants) (hitem : u.HoldsItem item function)
    (hspells : u.Spells function.signature opens base basePos)
    (hunevaluated : u.Unevaluated function.signature) (hunknown : c.scopes.lookup base = none) :
    c.check u item = .ok (⟨.error (.unknownName base basePos), u⟩, c) := by
  simp only [check, checkIndex_of_lt hitem.lt, hitem.item_eq, returnTypeOf,
    constantForm_of_unknown h hspells hunevaluated hunknown, Bind.bind, Except.bind,
    Answer.andThen]
  rfl

end Checker

namespace CompilationUnit

variable {constants : Constants} {s t : Session hash} {tokens : List Token}
  {u v : CompilationUnit hash} {item : ItemId} {function : FunctionItem} {header : HeaderSyntax}
  {statement : StatementSyntax} {prelude : Prelude} {table : Bindings hash} {name : Name}
  {pos : Position} {leaf : ExprId} {answer : Answer hash Unit}

/-- What the check of an item says where a name in it is unbound: that this name is unknown if it
stands in the signature, and an error in any case if the return has no type yet. -/
structure Rejects (u : CompilationUnit hash) (function : FunctionItem) (name : Name)
    (pos : Position) (answer : Answer hash Unit) : Prop where
  signature : ∀ leaf outer, Trail u.child? leaf outer function.signature →
    u.Holds leaf (.name name) pos → answer.value = .error (.unknownName name pos)
  error : (u.findingsOf function.body).type = none → ∃ e, answer.value = .error e

/-- What is said about a grown unit holds of the one from before. -/
theorem Rejects.of_grown (h : v.Rejects function name pos answer) (hgrown : u.Grown v)
    (htype : (v.findingsOf function.body).type = (u.findingsOf function.body).type) :
    u.Rejects function name pos answer where
  signature leaf outer htrail hname :=
    h.signature leaf outer (hgrown.trail htrail) (hgrown.holds hname)
  error huntyped := h.error (htype.trans huntyped)

/-- Where the name in the signature is unknown, that is what the check says. -/
theorem check_rejects_of_unknown (h : u.Sound constants) (hitem : u.HoldsItem item function)
    (hspells : u.SpellsItem function header statement)
    (hunevaluated : u.Unevaluated function.signature) {c : Checker hash}
    (hc : Checker.ofPrelude u prelude = .ok c)
    (hunknown : c.scopes.lookup header.result.base = none) (name : Name) (pos : Position) :
    ∃ answer, u.check item prelude = .ok answer ∧ u.Rejects function name pos answer := by
  refine ⟨_, (check_eq_ok_iff hc).mpr
    ⟨c, Checker.check_of_unknown h hitem hspells.signature hunevaluated hunknown⟩, ?_, ?_⟩
  · intro leaf outer htrail hname
    obtain ⟨rfl, rfl⟩ := hspells.signature.name_eq htrail hname
    rfl
  · exact fun _ => ⟨_, rfl⟩

/-- Where the name in the signature is that of a constant, an unbound name stands in the value. -/
theorem check_rejects_of_constant (h : u.Sound (standardConstants u.names))
    (hstandard : prelude.IsStandard u) (hitem : u.HoldsItem item function)
    (hspells : u.SpellsItem function header statement)
    (hconstant : standardConstants u.names header.result.base ≠ none)
    (hunbound : standardConstants u.names name = none) (hpart : u.PartOf function leaf)
    (hname : u.Holds leaf (.name name) pos) :
    ∃ answer, u.check item prelude = .ok answer ∧ u.Rejects function name pos answer := by
  obtain ⟨c, hc, hscopes, hout, hlookup⟩ := Checker.ofPrelude_standard h hstandard
  have houtside : ∀ other outer, Trail u.child? other outer function.signature →
      ¬ u.Holds other (.name name) pos := by
    intro other outer htrail hother
    obtain ⟨rfl, -⟩ := hspells.signature.name_eq htrail hother
    exact hconstant hunbound
  have hvalue : ∃ written, statement.value = .type written := by
    obtain ⟨top, outer, rfl | rfl, htrail⟩ := hpart
    · exact absurd hname (houtside leaf outer htrail)
    · exact hspells.value_of_name htrail hname
  obtain ⟨written, hwritten⟩ := hvalue
  obtain ⟨answer, d, hanswer, hspelled⟩ := Checker.check_spells h
    ⟨hscopes, fun name binding hfound => hlookup name ▸ hfound⟩ hlookup hout hitem hspells
  refine ⟨answer, (check_eq_ok_iff hc).mpr ⟨d, hanswer⟩,
    fun other outer htrail hother => absurd hother (houtside other outer htrail),
    fun huntyped => ?_⟩
  obtain ⟨e, hverdict⟩ := itemVerdict_type u.names header.result written
  rw [if_pos huntyped, hwritten, hverdict] at hspelled
  exact Answer.exists_error_of_spelled hspelled

theorem check_rejects (h : u.Sound (standardConstants u.names))
    (hprelude : prelude.IsStandard u ∨ prelude = .empty ∧ u.Unevaluated function.signature)
    (hitem : u.HoldsItem item function) (hspells : u.SpellsItem function header statement)
    (htable : Bindings.ofPrelude prelude = .ok table) (hunbound : table.lookup name = none)
    (hpart : u.PartOf function leaf) (hname : u.Holds leaf (.name name) pos) :
    ∃ answer, u.check item prelude = .ok answer ∧ u.Rejects function name pos answer := by
  rcases hprelude with hstandard | ⟨rfl, hunevaluated⟩
  · cases hbase : standardConstants u.names header.result.base with
    | none =>
        obtain ⟨c, hc, -, -, hlookup⟩ := Checker.ofPrelude_standard h hstandard
        exact check_rejects_of_unknown h hitem hspells (hspells.signature.unevaluated h hbase) hc
          ((hlookup _).trans hbase) name pos
    | some binding =>
        exact check_rejects_of_constant h hstandard hitem hspells (by simp [hbase])
          (hstandard.standardConstants_eq_none h.names htable hunbound) hpart hname
  · obtain ⟨c, hc, -, -, hlookup⟩ := Checker.ofPrelude_empty u
    exact check_rejects_of_unknown h hitem hspells hunevaluated hc (hlookup _) name pos

/-! ## Both orders -/

/-- A check that comes before the binding. -/
theorem check_rejects_before_bind (h : u.Sound (standardConstants u.names))
    (hprelude : prelude.IsStandard u ∨ prelude = .empty ∧ u.Unevaluated function.signature)
    (hitem : u.HoldsItem item function) (hspells : u.SpellsItem function header statement) :
    ∃ answer, u.check item prelude = .ok answer ∧
      ∀ name pos v, answer.unit.bind item prelude = .ok (.error (.unbound name pos), v) →
        u.Rejects function name pos answer := by
  have hfitsIn : prelude.FitsIn u := hprelude.symm.imp_left And.left
  obtain ⟨hsignature, hbody⟩ := h.items item function hitem
  obtain ⟨table, htable, hwellFormed⟩ := hfitsIn.exists_table
  obtain ⟨c, hc, hfits, hout⟩ := hfitsIn.exists_checker h
  obtain ⟨answer, d, hchecked, hsound, hqueried⟩ :=
    Checker.check_answered_of_spells h hfits hout hitem hspells
  have hcheck := (check_eq_ok_iff hc).mpr ⟨d, hchecked⟩
  refine ⟨answer, hcheck, fun name pos v hbind => ?_⟩
  obtain ⟨-, hunbound, leaf, hpart, hname⟩ :=
    bind_eq_error hsound (hqueried.holdsItem hitem) htable hwellFormed hbind
  -- the name was there before the check
  have hpart' := (hqueried.partOf_iff hsound.exprsDescend hsignature hbody).mp hpart
  have hname' := (hqueried.holds_iff (hpart'.lt h hsignature hbody)).mp hname
  obtain ⟨answer', hanswer, hrejects⟩ :=
    check_rejects h hprelude hitem hspells htable hunbound hpart' hname'
  obtain rfl : answer' = answer := Except.ok.inj (hanswer.symm.trans hcheck)
  exact hrejects

/-- Binding finds no constant forms. -/
theorem Unevaluated.bind (hunevaluated : u.Unevaluated function.signature) (h : u.Sound constants)
    (hitem : u.HoldsItem item function) {bound : Except BindingError Unit}
    (hok : u.bind item prelude = .ok (bound, v)) : v.Unevaluated function.signature := by
  obtain ⟨hsound, hgrown, -⟩ := bind_spec h hitem hok
  intro leaf outer htrail
  have hbefore := (hgrown.trail_iff hsound.exprsDescend (h.items item function hitem).1).mp htrail
  exact (congrArg Findings.constantForm (bind_findingsOf hok leaf)).trans
    (hunevaluated leaf outer hbefore)

/-- A check that comes after the binding. -/
theorem check_rejects_after_bind (h : u.Sound (standardConstants u.names))
    (hprelude : prelude.IsStandard u ∨ prelude = .empty ∧ u.Unevaluated function.signature)
    (hitem : u.HoldsItem item function) (hspells : u.SpellsItem function header statement)
    (hok : u.bind item prelude = .ok (.error (.unbound name pos), v)) :
    ∃ answer, v.check item prelude = .ok answer ∧ u.Rejects function name pos answer := by
  have hfitsIn : prelude.FitsIn u := hprelude.symm.imp_left And.left
  obtain ⟨table, htable, hwellFormed⟩ := hfitsIn.exists_table
  obtain ⟨-, hunbound, leaf, ⟨top, outer, htop, htrail⟩, hname⟩ :=
    bind_eq_error h hitem htable hwellFormed hok
  obtain ⟨hsound, hgrown, -⟩ := bind_spec h hitem hok
  obtain ⟨answer, hanswer, hrejects⟩ := check_rejects
    (hsound.standard hgrown.names.standardConstants)
    (hprelude.imp (·.grow hgrown) (And.imp_right (·.bind h hitem hok)))
    (hgrown.holdsItem hitem) (hgrown.spellsItem hspells) htable hunbound
    ⟨top, outer, htop, hgrown.trail htrail⟩ (hgrown.holds hname)
  exact ⟨answer, hanswer,
    hrejects.of_grown hgrown (congrArg Findings.type (bind_findingsOf hok function.body) :)⟩

/-- The check of a parsed item rejects a name that its binding finds unbound, before that and after
it. Under the empty prelude this needs that no constant form was found in the signature before: the
standard one finds them for every prelude. -/
theorem check_rejects_of_bind_error (hs : s.Reachable)
    (hparse : s.unit.parse tokens = (.ok item, u))
    (hrun : Session.Run ⟨u, s.preludes, s.checkers⟩ t) (hitem : t.unit.HoldsItem item function)
    (hprelude : prelude ∈ t.preludes ∨
      prelude = .empty ∧ t.unit.Unevaluated function.signature) :
    (∀ name pos v, t.unit.bind item prelude = .ok (.error (.unbound name pos), v) →
      ∃ answer, v.check item prelude = .ok answer ∧
        t.unit.Rejects function name pos answer) ∧
    ∃ answer, t.unit.check item prelude = .ok answer ∧
      ∀ name pos v, answer.unit.bind item prelude = .ok (.error (.unbound name pos), v) →
        t.unit.Rejects function name pos answer := by
  obtain ⟨hsound, hgrown, -, hmade⟩ := parse_spec hs.sound.unit tokens
  rw [hparse] at hsound hgrown hmade
  obtain ⟨header, statement, made, -, rfl, hitems, -, hspellsMade⟩ := hmade item rfl
  obtain ⟨hafter, hgrownRun⟩ := (hs.sound.grow hsound hgrown).run hrun
  obtain rfl : made = function :=
    (hgrownRun.holdsItem (holdsItem_of_items_eq_push hitems)).item_eq.symm.trans hitem.item_eq
  have hspells := hgrownRun.spellsItem hspellsMade
  have hprelude' := hprelude.imp_left (hafter.preludes prelude)
  exact ⟨fun _ _ _ => check_rejects_after_bind hafter.unit hprelude' hitem hspells,
    check_rejects_before_bind hafter.unit hprelude' hitem hspells⟩

/-- Under the empty prelude the name of the integer type is unbound, and unknown to the check. -/
theorem check_rejects_literalUnit : ∃ bound after before,
    (literalUnit ⟨1⟩ 0).bind ⟨0⟩ .empty = .ok (.error (.unbound ⟨0⟩ .start), bound) ∧
      bound.check ⟨0⟩ .empty = .ok after ∧ after.value = .error (.unknownName ⟨0⟩ .start) ∧
      (literalUnit ⟨1⟩ 0).check ⟨0⟩ .empty = .ok before ∧
      before.value = .error (.unknownName ⟨0⟩ .start) := by
  have hparse : twoNames.parse (literalFunction ⟨1⟩ 0) = (.ok ⟨0⟩, literalUnit ⟨1⟩ 0) :=
    Prod.ext (by decide +kernel) rfl
  have hread : readItem (literalFunction ⟨1⟩ 0) =
      .ok (⟨.start, ⟨1⟩, .start, ⟨[], ⟨0⟩, .start⟩⟩, ⟨.start, .literal (.small 1) .start⟩) := by
    decide +kernel
  have hfirst : twoNames.items.size = 0 := by decide +kernel
  have hfirstBound : ((literalUnit ⟨1⟩ 0).bind ⟨0⟩ .empty).toOption.map (fun bound => bound.1) =
      some (.error (.unbound ⟨0⟩ .start)) := by
    decide +kernel
  have hthenBound : ((literalUnit ⟨1⟩ 0).check ⟨0⟩ .empty).toOption.bind (fun before =>
      (before.unit.bind ⟨0⟩ .empty).toOption.map fun bound => bound.1) =
        some (.error (.unbound ⟨0⟩ .start)) := by
    decide +kernel
  obtain ⟨hitem, hname, hinside⟩ := literalUnit_holds (by decide : (⟨1⟩ : Name).index < 2)
  obtain ⟨function, -, hchains, -⟩ := parse_twoChains twoNames hread
  have hmade : (literalUnit ⟨1⟩ 0).HoldsItem ⟨0⟩ function :=
    hfirst ▸ holdsItem_of_items_eq_push hchains.items_eq
  obtain rfl := hmade.item_eq.symm.trans hitem.item_eq
  have hunevaluated := (hchains.addsTree twoNames_reachable.sound.unit.complete).unevaluated
  obtain ⟨hafter, before, hbefore, hrejects⟩ :=
    check_rejects_of_bind_error twoNames_reachable hparse .refl hitem (.inr ⟨rfl, hunevaluated⟩)
  obtain ⟨⟨_, bound⟩, hbind, rfl⟩ := Option.map_eq_some_iff.mp hfirstBound
  have hbind := toOption_eq_some_iff.mp hbind
  obtain ⟨after, hcheck, hafterRejects⟩ := hafter _ _ _ hbind
  rw [hbefore] at hthenBound
  obtain ⟨⟨_, last⟩, hlast, rfl⟩ := Option.map_eq_some_iff.mp hthenBound
  have hlast := toOption_eq_some_iff.mp hlast
  have htrail := Trail.out hinside (.stay _)
  exact ⟨bound, after, before, hbind, hcheck, hafterRejects.signature _ _ htrail hname, hbefore,
    (hrejects _ _ _ hlast).signature _ _ htrail hname⟩

/-- An item that was neither bound nor checked may pass although a name in its signature is unbound
under the empty prelude: another item with its signature was checked under the standard one. -/
theorem not_forall_check_rejects_of_bind_error :
    ¬ ∀ (hash : Hasher) (s : Session hash) (tokens : List Token) (item : ItemId)
      (u v bound : CompilationUnit hash) (prelude : Prelude) (other : FunctionItem) (name : Name)
      (pos : Position) (answer : Answer hash Unit), s.Reachable →
      s.unit.parse tokens = (.ok item, u) →
      prelude ∈ s.preludes → Session.Step ⟨u, s.preludes, s.checkers⟩
        ⟨(u.addItem other).2, s.preludes, s.checkers⟩ →
      (u.addItem other).2.check (u.addItem other).1 prelude = .ok ⟨.ok (), v⟩ →
      v.bind item .empty = .ok (.error (.unbound name pos), bound) →
      bound.check item .empty = .ok answer → ∃ e, answer.value = .error e := by
  intro hrejectsUnbound
  have hparse : twoNames.parse (literalFunction ⟨1⟩ 0) = (.ok ⟨0⟩, literalUnit ⟨1⟩ 0) :=
    Prod.ext (by decide +kernel) rfl
  have hadd := Session.Step.addItem ⟨literalUnit ⟨1⟩ 0, [Prelude.initial], []⟩
    ⟨⟨1⟩, ⟨5⟩, ⟨6⟩, .start⟩ (by decide +kernel) (by decide +kernel) (by decide +kernel)
  have hplace : ((literalUnit ⟨1⟩ 0).addItem ⟨⟨1⟩, ⟨5⟩, ⟨6⟩, .start⟩).1 = ⟨1⟩ := by decide +kernel
  have hresult : (((((literalUnit ⟨1⟩ 0).addItem ⟨⟨1⟩, ⟨5⟩, ⟨6⟩, .start⟩).2.passed? ⟨1⟩
      Prelude.initial).bind fun v => (v.bind ⟨0⟩ .empty).toOption).bind fun bound =>
        (bound.2.passed? ⟨0⟩ .empty).map fun _ => bound.1) =
          some (.error (.unbound ⟨0⟩ .start)) := by
    decide +kernel
  obtain ⟨⟨bindAnswer, bound⟩, hbound, hpassed⟩ := Option.bind_eq_some_iff.mp hresult
  obtain ⟨v, hv, hbind⟩ := Option.bind_eq_some_iff.mp hbound
  obtain ⟨w, hw, heq⟩ := Option.map_eq_some_iff.mp hpassed
  dsimp only at hw heq
  subst heq
  obtain ⟨e, herror⟩ := hrejectsUnbound _ _ _ _ _ v bound _ _ _ _ ⟨.ok (), w⟩
    twoNames_reachable hparse
    (List.mem_singleton_self _) hadd (hplace ▸ passed?_eq_some_iff.mp hv)
    (toOption_eq_some_iff.mp hbind) (passed?_eq_some_iff.mp hw)
  cases herror

end CompilationUnit

end FrontEnd
