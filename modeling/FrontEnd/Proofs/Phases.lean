import FrontEnd.Proofs.Grammar.Sizes
import FrontEnd.Proofs.Grammar.SourceTokens
import FrontEnd.Proofs.Typing.Answers
import FrontEnd.Proofs.UnboundItems

/-! # Phases over a parsed item

An item whose names are known can be checked again and again, and bound once between. Each phase is
answered, its error has a text, and the item has a listing after it. -/

namespace FrontEnd

variable {hash : Hasher}

/-- A phase after parsing. -/
inductive Phase where
  | bind
  | check
deriving DecidableEq

/-! ## Texts of errors -/

theorem BindingError.exists_message {u : CompilationUnit hash} {e : BindingError}
    (h : ∀ name pos, e = .unbound name pos → u.Knows name) :
    ∃ text, e.message u.names = .ok text := by
  cases e with
  | unbound name pos =>
      obtain ⟨text, htext⟩ := Interner.lookup_of_lt (h name pos rfl)
      exact ⟨_, by rw [message, htext]; rfl⟩

theorem TypingError.exists_message {u : CompilationUnit hash} {e : TypingError}
    (hname : ∀ name pos, e = .unknownName name pos → u.Knows name)
    (htypes : ∀ expected actual pos, e = .mismatch expected actual pos →
      expected.index < u.types.size ∧ actual.index < u.types.size) :
    ∃ text, e.message u = .ok text := by
  cases e with
  | unknownName name pos =>
      obtain ⟨text, htext⟩ := Interner.lookup_of_lt (hname name pos rfl)
      exact ⟨_, by rw [message, htext]; rfl⟩
  | mismatch expected actual pos =>
      obtain ⟨hexpected, hactual⟩ := htypes expected actual pos rfl
      rw [message, checkIndex_bind_of_lt hexpected, checkIndex_bind_of_lt hactual]
      exact ⟨_, rfl⟩
  | strayReturn pos => exact ⟨_, rfl⟩

/-! ## Preludes -/

/-- A prelude is empty or the standard one of a unit. -/
def Prelude.FitsIn (u : CompilationUnit hash) (prelude : Prelude) : Prop :=
  prelude = .empty ∨ prelude.IsStandard u

namespace Prelude.FitsIn

variable {constants : Constants} {u v : CompilationUnit hash} {prelude : Prelude}

theorem grow (h : prelude.FitsIn u) (hgrown : u.Grown v) : prelude.FitsIn v :=
  h.imp_right fun hstandard => hstandard.grow hgrown

theorem exists_table (h : prelude.FitsIn u) :
    ∃ table : Bindings hash, Bindings.ofPrelude prelude = .ok table ∧ table.WellFormed := by
  rcases h with rfl | ⟨name, binding, constant, hentries, -⟩
  · exact ⟨_, rfl, Scopes.empty_wellFormed.push⟩
  · obtain ⟨table, htable, hwellFormed, -⟩ := Bindings.ofPrelude_eq hash hentries
    exact ⟨table, htable, hwellFormed⟩

theorem exists_checker (h : prelude.FitsIn u) (hsound : u.Sound constants) :
    ∃ c, Checker.ofPrelude u prelude = .ok c ∧ c.Fits (standardConstants u.names) ∧
      c.returnType = none := by
  rcases h with rfl | hstandard
  · obtain ⟨c, hc, hscopes, hout, hlookup⟩ := Checker.ofPrelude_empty u
    refine ⟨c, hc, ⟨hscopes, fun name binding hname => ?_⟩, hout⟩
    rw [hlookup] at hname
    cases hname
  · obtain ⟨c, hc, hscopes, hout, hlookup⟩ := Checker.ofPrelude_standard hsound hstandard
    exact ⟨c, hc, ⟨hscopes, fun name binding hname => hlookup name ▸ hname⟩, hout⟩

/-- Growth keeps the checker for a prelude. -/
theorem ofPrelude_eq (h : prelude.FitsIn u) (hgrown : u.Grown v) :
    Checker.ofPrelude v prelude = Checker.ofPrelude u prelude := by
  refine Checker.ofPrelude_congr fun entry hentry => ?_
  rcases h with rfl | ⟨name, binding, constant, hentries, -, -, hconstant⟩
  · cases hentry
  · rw [hentries] at hentry
    obtain rfl := List.mem_singleton.mp hentry
    have hlater := hgrown.holdsDecl hconstant
    rw [checkIndex_of_lt hlater.lt, checkIndex_of_lt hconstant.lt, hlater.decl_eq,
      hconstant.decl_eq]
    exact ⟨rfl, rfl⟩

end Prelude.FitsIn

namespace CompilationUnit

/-! ## Runs of phases -/

/-- The text of the error of a phase, if there is one, with the unit that it leaves. -/
def runPhase (u : CompilationUnit hash) (item : ItemId) (prelude : Prelude) :
    Phase → Except Breach (Option String × CompilationUnit hash)
  | .bind => do
    let (answer, u) ← u.bind item prelude
    match answer with
    | .error e => return (some (← e.message u.names), u)
    | .ok () => return (none, u)
  | .check => do
    let answer ← u.check item prelude
    match answer.value with
    | .error e => return (some (← e.message answer.unit), answer.unit)
    | .ok () => return (none, answer.unit)

/-- Goes on with each phase whatever the ones before it answer. Each says its error, if there is
one, and then the listing of the item. -/
def runPhases (u : CompilationUnit hash) (item : ItemId) (prelude : Prelude) :
    List Phase → Except Breach (List String × CompilationUnit hash)
  | [] => .ok ([], u)
  | phase :: rest => do
    let (error?, u) ← u.runPhase item prelude phase
    let listing ← u.itemListing item
    let (said, u) ← u.runPhases item prelude rest
    return (error?.toList ++ listing :: said, u)

variable {constants : Constants} {u v : CompilationUnit hash} {item : ItemId}
  {function : FunctionItem} {header : HeaderSyntax} {statement : StatementSyntax}
  {prelude : Prelude} {nodes decls : Nat}

/-- An item that is spelled with known names. -/
structure ParsedItem (u : CompilationUnit hash) (item : ItemId) (function : FunctionItem)
    (header : HeaderSyntax) (statement : StatementSyntax) : Prop where
  sound : u.Sound (standardConstants u.names)
  item : u.HoldsItem item function
  spells : u.SpellsItem function header statement
  knows : u.KnowsItem header statement

namespace ParsedItem

theorem legible (h : u.ParsedItem item function header statement) : u.LegibleItem item function :=
  h.spells.legible h.item h.knows

theorem signature_legible (h : u.ParsedItem item function header statement) :
    u.Legible (header.result.opens.length + 1) function.signature := by
  have hlegible := h.spells.signature.legible h.knows.result
  rwa [List.length_cons, List.length_reverse] at hlegible

theorem grow (h : u.ParsedItem item function header statement) (hgrown : u.Grown v)
    (hsound : v.Sound (standardConstants u.names)) :
    v.ParsedItem item function header statement where
  sound := hsound.standard hgrown.names.standardConstants
  item := hgrown.holdsItem h.item
  spells := hgrown.spellsItem h.spells
  knows := ⟨h.knows.name.grow hgrown, h.knows.result.grow hgrown,
    fun name hname => (h.knows.value name hname).grow hgrown⟩

theorem standardPrelude (h : u.ParsedItem item function header statement)
    (hroom : u.names.size + 1 < 2 ^ 32) :
    (Prelude.standard u).2.ParsedItem item function header statement ∧
      (Prelude.standard u).1.FitsIn (Prelude.standard u).2 := by
  obtain ⟨hsound, hgrown, hstandard⟩ := Prelude.standard_spec h.sound hroom
  exact ⟨h.grow hgrown hsound, .inr hstandard⟩

theorem exists_listing (h : u.ParsedItem item function header statement) :
    ∃ text, u.itemListing item = .ok text :=
  h.sound.itemListing_legible h.sound.constantsLegible_standard h.legible

/-- The check is answered, as the signature is a function type expression. -/
theorem check_answered (h : u.ParsedItem item function header statement)
    (hprelude : prelude.FitsIn u) : ∃ answer, u.check item prelude = .ok answer ∧
      answer.unit.ParsedItem item function header statement ∧ u.Queried answer.unit ∧
      answer.Modest u (header.result.opens.length + 1) (header.result.opens.length + 1) ∧
      answer.KnowsTypes := by
  obtain ⟨c, hc, hfits, hout⟩ := hprelude.exists_checker h.sound
  obtain ⟨answer, d, hanswer, hsound, hqueried⟩ :=
    Checker.check_answered_of_spells h.sound hfits hout h.item h.spells
  exact ⟨answer, (check_eq_ok_iff hc).mpr ⟨d, hanswer⟩, h.grow hqueried.toGrown hsound, hqueried,
    Checker.check_modest h.sound hfits hout h.sound.constantsLegible_standard h.legible
      h.signature_legible hanswer,
    Checker.check_knowsTypes h.sound hfits hout hanswer⟩

/-- The first binding is answered. -/
theorem bind_answered (h : u.ParsedItem item function header statement)
    (hprelude : prelude.FitsIn u) (hunbound : u.Unbound item function) :
    ∃ answer v, u.bind item prelude = .ok (answer, v) ∧
      v.ParsedItem item function header statement ∧ u.Grown v ∧ u.Referred v ∧
      v.declarations.size = u.declarations.size + 1 ∧
      ∀ name pos, answer = .error (.unbound name pos) → v.Knows name := by
  obtain ⟨table, htable, hwellFormed⟩ := hprelude.exists_table
  obtain ⟨answer, v, hanswer, hreferred, hcount, hknows⟩ :=
    hunbound.bind_answered h.sound h.legible htable hwellFormed
  obtain ⟨hsound, hgrown, -⟩ := bind_spec h.sound h.item hanswer
  exact ⟨answer, v, hanswer, h.grow hgrown hsound, hgrown, hreferred, hcount,
    fun name pos herror => (hknows name pos herror).grow hgrown⟩

end ParsedItem

/-- A binding is answered, and so is what its error says. -/
theorem ParsedItem.runPhase_bind (h : u.ParsedItem item function header statement)
    (hprelude : prelude.FitsIn u) (hunbound : u.Unbound item function) :
    ∃ error? v, u.runPhase item prelude .bind = .ok (error?, v) ∧
      v.ParsedItem item function header statement ∧ u.Grown v ∧ u.Referred v ∧
      v.declarations.size = u.declarations.size + 1 := by
  obtain ⟨answer, v, hanswer, hparsed, hgrown, hreferred, hcount, hknows⟩ :=
    h.bind_answered hprelude hunbound
  simp only [runPhase, hanswer, Bind.bind, Except.bind]
  cases answer with
  | ok done => exact ⟨none, v, rfl, hparsed, hgrown, hreferred, hcount⟩
  | error e =>
      obtain ⟨text, htext⟩ := e.exists_message fun name pos heq => hknows name pos (heq ▸ rfl)
      simp only [htext]
      exact ⟨some text, v, rfl, hparsed, hgrown, hreferred, hcount⟩

/-- A check is answered, and so is what its error says. -/
theorem ParsedItem.runPhase_check (h : u.ParsedItem item function header statement)
    (hprelude : prelude.FitsIn u) :
    ∃ error? v, u.runPhase item prelude .check = .ok (error?, v) ∧
      v.ParsedItem item function header statement ∧ u.Queried v ∧
      u.Adds v (header.result.opens.length + 1) (header.result.opens.length + 1) := by
  obtain ⟨answer, hanswer, hparsed, hqueried, hmodest, htypes⟩ := h.check_answered hprelude
  simp only [runPhase, hanswer, Bind.bind, Except.bind]
  cases hvalue : answer.value with
  | ok done => exact ⟨none, answer.unit, rfl, hparsed, hqueried, hmodest.toAdds⟩
  | error e =>
      obtain ⟨text, htext⟩ := e.exists_message
        (fun name pos heq => hmodest.knows name pos (hvalue.trans (heq ▸ rfl)))
        (fun expected actual pos heq => htypes expected actual pos (hvalue.trans (heq ▸ rfl)))
      simp only [htext]
      exact ⟨some text, answer.unit, rfl, hparsed, hqueried, hmodest.toAdds⟩

theorem HasRoom.referred (h : u.HasRoom nodes (decls + 1)) (hreferred : u.Referred v)
    (hcount : v.declarations.size = u.declarations.size + 1) : v.HasRoom nodes decls where
  sources := hreferred.sources_eq ▸ h.sources
  items := hreferred.items_eq ▸ h.items
  exprs := hreferred.exprs_eq ▸ h.exprs
  types := hreferred.types_eq ▸ h.types
  declarations := by have := h.declarations; omega

/-- The phases bind an item at most once, and only one that is not bound. -/
def BindsOnce (u : CompilationUnit hash) (item : ItemId) (function : FunctionItem)
    (phases : List Phase) : Prop :=
  phases.count .bind = 0 ∨ phases.count .bind = 1 ∧ u.Unbound item function

/-- A phase is answered and leaves a parsed item for the rest of the phases. It takes a declaration
to bind, and expressions and types for the signature to check. -/
theorem ParsedItem.runPhase_answered (h : u.ParsedItem item function header statement)
    (hprelude : prelude.FitsIn u) {phase : Phase} {rest : List Phase}
    (hbinds : u.BindsOnce item function (phase :: rest)) :
    ∃ error? v, u.runPhase item prelude phase = .ok (error?, v) ∧
      v.ParsedItem item function header statement ∧ u.Grown v ∧ v.BindsOnce item function rest ∧
      (u.HasRoom ((phase :: rest).count .check * (header.result.opens.length + 1))
          ((phase :: rest).count .bind) →
        v.HasRoom (rest.count .check * (header.result.opens.length + 1)) (rest.count .bind)) := by
  cases phase with
  | bind =>
      rw [BindsOnce, List.count_cons_self] at hbinds
      obtain hnever | ⟨honce, hunbound⟩ := hbinds
      · exact absurd hnever (Nat.succ_ne_zero _)
      obtain ⟨error?, v, hphase, hparsed, hgrown, hreferred, hcount⟩ :=
        h.runPhase_bind hprelude hunbound
      refine ⟨error?, v, hphase, hparsed, hgrown, .inl (Nat.succ.inj honce), ?_⟩
      rw [List.count_cons_self, List.count_cons_of_ne (by decide)]
      exact fun hroom => hroom.referred hreferred hcount
  | check =>
      obtain ⟨error?, v, hphase, hparsed, hqueried, hadds⟩ := h.runPhase_check hprelude
      have hcount : (Phase.check :: rest).count .bind = rest.count .bind :=
        List.count_cons_of_ne (by decide)
      rw [BindsOnce, hcount] at hbinds
      refine ⟨error?, v, hphase, hparsed, hqueried.toGrown, hbinds.imp_right
        fun ⟨honce, hunbound⟩ =>
          ⟨honce, hunbound.queried h.sound hparsed.sound hqueried h.item⟩, ?_⟩
      rw [hcount, List.count_cons_self, Nat.succ_mul]
      exact fun hroom => hroom.queried hqueried hadds (by omega) (by omega)

/-- All phases are answered, one after the other. -/
theorem ParsedItem.runPhases_answered (h : u.ParsedItem item function header statement)
    (hprelude : prelude.FitsIn u) {phases : List Phase}
    (hbinds : u.BindsOnce item function phases) :
    ∃ said v, u.runPhases item prelude phases = .ok (said, v) ∧
      v.Sound (standardConstants v.names) ∧
      (u.HasRoom (phases.count .check * (header.result.opens.length + 1)) (phases.count .bind) →
        v.HasRoom 0 0) := by
  induction phases generalizing u with
  | nil => exact ⟨[], u, rfl, h.sound, by simp⟩
  | cons phase rest ih =>
      obtain ⟨error?, v, hphase, hparsed, hgrown, hafter, hroom⟩ :=
        h.runPhase_answered hprelude hbinds
      obtain ⟨listing, hlisting⟩ := hparsed.exists_listing
      obtain ⟨said, w, hrest, hsound, hroom'⟩ := ih hparsed (hprelude.grow hgrown) hafter
      refine ⟨error?.toList ++ listing :: said, w, ?_, hsound, fun h => hroom' (hroom h)⟩
      simp only [runPhases, hphase, hlisting, hrest, Bind.bind, Except.bind]
      rfl

end CompilationUnit

end FrontEnd
