import FrontEnd.Proofs.Coherence.Runs
import FrontEnd.Proofs.Typing.Frames
import FrontEnd.Proofs.Typing.Resumption

/-! # Checkers carry nothing from one question to the next

One checker answers questions as new ones do that are made for each of them, however the questions
before are answered. -/

namespace FrontEnd

variable {hash : Hasher}

open CompilationUnit

/-! ## Questions and replies -/

/-- What a checker can be asked. -/
inductive Query where
  | constantForm (id : ExprId)
  | denotedType (id : ExprId)
  | typeOf (id : ExprId)
  | check (item : ItemId)
deriving DecidableEq

/-- What a checker replies, which may be an error. -/
inductive Reply where
  | constantForm (form : Except TypingError (Option ExprId))
  | denotedType (type : Option TypeId)
  | typeOf (type : Except TypingError TypeId)
  | check (passed : Except TypingError Unit)
deriving DecidableEq

namespace Checker

variable {prelude : Prelude} {u v : CompilationUnit hash} {c d first : Checker hash} {query : Query}
  {queries : List Query} {reply : Reply} {replies : List Reply}

/-- The reply to a question with the unit that it leaves, and the checker that is left. -/
def ask (c : Checker hash) (u : CompilationUnit hash) :
    Query → Except Breach ((Reply × CompilationUnit hash) × Checker hash)
  | .constantForm id =>
    (c.constantForm u id).map fun answer => ((.constantForm answer.value, answer.unit), c)
  | .denotedType id =>
    (denotedType u id).map fun (type, v) => ((.denotedType type, v), c)
  | .typeOf id => (c.typeOf u id).map fun answer => ((.typeOf answer.value, answer.unit), c)
  | .check item =>
    (c.check u item).map fun (answer, d) => ((.check answer.value, answer.unit), d)

/-- Asks one checker all questions. -/
def askAll (c : Checker hash) (u : CompilationUnit hash) :
    List Query → Except Breach ((List Reply × CompilationUnit hash) × Checker hash)
  | [] => .ok (([], u), c)
  | query :: rest => do
    let ((reply, u), c) ← c.ask u query
    let ((replies, u), c) ← c.askAll u rest
    return ((reply :: replies, u), c)

/-- Asks each question of a checker that is made for it. -/
def askAnew (prelude : Prelude) (u : CompilationUnit hash) :
    List Query → Except Breach (List Reply × CompilationUnit hash)
  | [] => .ok ([], u)
  | query :: rest => do
    let c ← ofPrelude u prelude
    let ((reply, u), _) ← c.ask u query
    let (replies, u) ← askAnew prelude u rest
    return (reply :: replies, u)

/-! ### One question -/

theorem ask_fills (hok : c.ask u query = .ok ((reply, v), d)) : u.Fills Set.univ v := by
  cases query with
  | constantForm id =>
      obtain ⟨answer, hanswer, ⟨⟩⟩ := Except.map_eq_ok_iff.mp hok
      exact (constantForm_fills hanswer).mono (Set.subset_univ _)
  | denotedType id =>
      obtain ⟨⟨type, w⟩, hanswer, ⟨⟩⟩ := Except.map_eq_ok_iff.mp hok
      exact (denotedType_fills hanswer).mono (Set.subset_univ _)
  | typeOf id =>
      obtain ⟨answer, hanswer, ⟨⟩⟩ := Except.map_eq_ok_iff.mp hok
      exact (typeOf_fills hanswer).mono (Set.subset_univ _)
  | check item =>
      obtain ⟨⟨answer, d'⟩, hanswer, ⟨⟩⟩ := Except.map_eq_ok_iff.mp hok
      obtain ⟨first, hfirst, hafter⟩ := check_fills_after_form hanswer
      exact ((constantForm_fills hfirst).mono (Set.subset_univ _)).trans
        (hafter.mono (Set.subset_univ _))

theorem ask_resumes (h : c.scopes.Cleared) (hok : c.ask u query = .ok ((reply, v), d)) :
    c.Resumes d := by
  cases query with
  | check item =>
      obtain ⟨⟨answer, d'⟩, hanswer, ⟨⟩⟩ := Except.map_eq_ok_iff.mp hok
      exact check_resumes h hanswer
  | _ =>
      obtain ⟨answer, -, ⟨⟩⟩ := Except.map_eq_ok_iff.mp hok
      exact .refl h

/-- A question is answered the same again by the checker that is left. -/
theorem Resumes.ask (h : first.Resumes c) (hfirst : first.scopes.Cleared) (u : CompilationUnit hash)
    (query : Query) : (c.ask u query).map Prod.fst = (first.ask u query).map Prod.fst := by
  cases query with
  | constantForm id =>
      rw [Checker.ask, Checker.ask, h.seenAlike.constantForm]
      cases first.constantForm u id <;> rfl
  | denotedType id =>
      rw [Checker.ask, Checker.ask]
      cases denotedType u id <;> rfl
  | typeOf id =>
      rw [Checker.ask, Checker.ask, h.seenAlike.typeOf]
      cases first.typeOf u id <;> rfl
  | check item =>
      have hreply : ∀ checked : Except Breach (Answer hash Unit × Checker hash),
          (checked.map fun (answer, d) =>
              ((Reply.check answer.value, answer.unit), d)).map Prod.fst =
            (checked.map Prod.fst).map fun answer => (Reply.check answer.value, answer.unit) :=
        fun checked => by cases checked <;> rfl
      rw [Checker.ask, Checker.ask, hreply, hreply, h.check hfirst]

/-! ### Questions one after another -/

theorem askAll_cons_eq_ok_iff {answered : (List Reply × CompilationUnit hash) × Checker hash} :
    c.askAll u (query :: queries) = .ok answered ↔ ∃ reply v d replies w e,
      c.ask u query = .ok ((reply, v), d) ∧ d.askAll v queries = .ok ((replies, w), e) ∧
      answered = ((reply :: replies, w), e) := by
  constructor
  · intro hok
    obtain ⟨⟨⟨reply, v⟩, d⟩, hreply, hok⟩ := Except.bind_eq_ok_iff.mp hok
    obtain ⟨⟨⟨replies, w⟩, e⟩, hreplies, hok⟩ := Except.bind_eq_ok_iff.mp hok
    cases hok
    exact ⟨reply, v, d, replies, w, e, hreply, hreplies, rfl⟩
  · rintro ⟨reply, v, d, replies, w, e, hreply, hreplies, rfl⟩
    simp only [askAll, hreply, hreplies, Bind.bind, Except.bind]
    rfl

theorem askAll_fills_and_resumes (h : c.scopes.Cleared)
    (hok : c.askAll u queries = .ok ((replies, v), d)) : u.Fills Set.univ v ∧ c.Resumes d := by
  induction queries generalizing u c replies with
  | nil =>
      cases hok
      exact ⟨.refl _, .refl h⟩
  | cons query rest ih =>
      obtain ⟨reply, w, e, replies, _, _, hreply, hreplies, ⟨⟩⟩ := askAll_cons_eq_ok_iff.mp hok
      have hresumes := ask_resumes h hreply
      obtain ⟨hfills, hresumes'⟩ := ih hresumes.cleared hreplies
      exact ⟨(ask_fills hreply).trans hfills, hresumes.trans hresumes'⟩

/-- One checker answers all questions as new ones do. -/
theorem askAll_eq_askAnew (hfirst : ofPrelude u prelude = .ok first)
    (hcleared : first.scopes.Cleared) (h : first.Resumes c) (queries : List Query) :
    (c.askAll u queries).map Prod.fst = askAnew prelude u queries := by
  induction queries generalizing u c with
  | nil => rfl
  | cons query rest ih =>
      have hsame := h.ask hcleared u query
      rw [askAll, askAnew, hfirst]
      cases hreply : c.ask u query with
      | error breach =>
          rw [hreply] at hsame
          have hreply' := Except.map_eq_error_iff.mp hsame.symm
          simp only [hreply', Bind.bind, Except.bind]
          rfl
      | ok answered =>
          obtain ⟨⟨reply, v⟩, d⟩ := answered
          rw [hreply] at hsame
          obtain ⟨⟨answered, d'⟩, hreply', hsame⟩ := Except.map_eq_ok_iff.mp hsame.symm
          obtain rfl : answered = (reply, v) := hsame
          -- the declarations from which checkers are made stay
          have hdeclarations := (ask_fills hreply).declarations_eq
          have hagain : ofPrelude v prelude = .ok first :=
            (ofPrelude_congr fun entry _ => by
              rw [decl, decl, hdeclarations]
              exact ⟨rfl, rfl⟩).trans hfirst
          have hrest := ih hagain (h.trans (ask_resumes h.cleared hreply))
          simp only [hreply', Bind.bind, Except.bind, ← hrest]
          cases d.askAll v rest <;> rfl

end Checker

namespace Session

variable {s : Session hash}

/-- There is a checker for every prelude whose constants are there. One replies to all questions
what new checkers do that are made for each question, and leaves the unit that they leave. After any
of the questions one scope is open, and a return for which no type was found is astray. -/
theorem askAll_carries_nothing (hs : Operations (new hash) s) (prelude : Prelude) :
    ((∃ c, Checker.ofPrelude s.unit prelude = .ok c) ↔
      ∀ entry ∈ prelude.entries, entry.constant.index < s.unit.declarations.size) ∧
    ∀ c, Checker.ofPrelude s.unit prelude = .ok c → ∀ queries,
      (c.askAll s.unit queries).map Prod.fst = Checker.askAnew prelude s.unit queries ∧
      ∀ replies v d, c.askAll s.unit queries = .ok ((replies, v), d) →
        d.scopes.depth = 1 ∧
        ∀ id value pos, v.Holds id (.return_ value) pos → (v.findingsOf id).type = none →
          d.typeOf v id = .ok ⟨.error (.strayReturn pos), v⟩ := by
  refine ⟨Checker.exists_ofPrelude_iff, fun c hc queries => ?_⟩
  obtain ⟨hdepth, hcleared, hout⟩ := Checker.ofPrelude_opens hc
  refine ⟨Checker.askAll_eq_askAnew hc hcleared (.refl hcleared) queries,
    fun replies v d hok => ?_⟩
  obtain ⟨hfills, hresumes⟩ := Checker.askAll_fills_and_resumes hcleared hok
  refine ⟨(congrArg List.length hresumes.scopes_eq).trans hdepth,
    fun id value pos hreturn hnone => ?_⟩
  have hdown : LeadsDown (Checker.pendingValue? v) := by
    intro outer inner hinner
    obtain ⟨-, pos', hholds⟩ := Checker.pendingValue?_eq_some_iff.mp hinner
    rcases hfills.holds_or _ _ _ hholds with hbefore | ⟨result, ⟨⟩⟩
    exact (new_coherent.operations hs).1.unit.exprsDescend outer inner (child?_of_holds hbefore)
  rw [Checker.typeOf_stray hdown (hresumes.returnType_eq.trans hout)
    (Checker.pendingValue?_eq_some_iff.mpr ⟨hnone, pos, hreturn⟩), hreturn.expr_eq]

/-- A check ends in an error about the value that is returned. Then the return is astray, and what
the constant form of the signature denotes was found by the check. -/
theorem askAll_carries_nothing_literalUnit : ∃ c v d,
    Checker.ofPrelude (literalUnit ⟨1⟩ 1) Prelude.initial = .ok c ∧
      c.askAll (literalUnit ⟨1⟩ 1) [.check ⟨0⟩, .typeOf ⟨8⟩, .denotedType ⟨10⟩] =
        .ok (([.check (.error (.mismatch ⟨4⟩ BaseType.int32.typeId .start)),
          .typeOf (.error (.strayReturn .start)), .denotedType (some ⟨5⟩)], v), d) ∧
      Checker.askAnew Prelude.initial (literalUnit ⟨1⟩ 1)
          [.check ⟨0⟩, .typeOf ⟨8⟩, .denotedType ⟨10⟩] =
        .ok ([.check (.error (.mismatch ⟨4⟩ BaseType.int32.typeId .start)),
          .typeOf (.error (.strayReturn .start)), .denotedType (some ⟨5⟩)], v) ∧
      d.scopes.depth = 1 := by
  have hresult : (Checker.ofPrelude (literalUnit ⟨1⟩ 1) Prelude.initial).toOption.bind
      (fun c => (c.askAll (literalUnit ⟨1⟩ 1)
        [.check ⟨0⟩, .typeOf ⟨8⟩, .denotedType ⟨10⟩]).toOption.map fun answered =>
          answered.1.1) =
      some [.check (.error (.mismatch ⟨4⟩ BaseType.int32.typeId .start)),
        .typeOf (.error (.strayReturn .start)), .denotedType (some ⟨5⟩)] := by
    decide +kernel
  obtain ⟨hmade, hall⟩ :=
    askAll_carries_nothing literalUnit_operations Prelude.initial
  obtain ⟨c, hc⟩ := hmade.mpr (by decide +kernel)
  dsimp only at hc
  rw [hc] at hresult
  obtain ⟨⟨⟨replies, v⟩, d⟩, hreplies, rfl⟩ := Option.map_eq_some_iff.mp hresult
  rw [toOption_eq_some_iff] at hreplies
  obtain ⟨hanew, hafter⟩ := hall c hc [.check ⟨0⟩, .typeOf ⟨8⟩, .denotedType ⟨10⟩]
  dsimp only at hanew hafter
  rw [hreplies] at hanew
  exact ⟨c, v, d, hc, hreplies, hanew.symm, (hafter _ _ _ hreplies).1⟩

end Session

end FrontEnd
