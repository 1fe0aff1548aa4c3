import FrontEnd.Proofs.Grammar.Sentences

/-! # Moves over a stream

Whatever is done with a stream, it stands at one of the tokens that it was made of. A move takes the
token where the stream stands and goes on to the next one, and the last one is taken again and
again. An end of the file stops the moves only if it is the last token. -/

namespace FrontEnd

namespace TokenStream

/-! ## Operations -/

/-- What may be done with a stream. -/
inductive Operation where
  | current
  | check (kind : TokenKind)
  | advance
  | skipIf (kind : TokenKind)
  | expect (kind : TokenKind) (construct : Construct)
deriving DecidableEq

/-- What an operation answers. -/
inductive Reply where
  | token (token : Token)
  | flag (answer : Bool)
  | error (e : SyntaxError)
deriving DecidableEq

/-- The reply is that something else stands where a kind of token was asked for. -/
inductive Reply.Refuses : Reply → Prop where
  | flag : Refuses (.flag false)
  | error (e : SyntaxError) : Refuses (.error e)

theorem Reply.not_refuses_token (token : Token) : ¬ (Reply.token token).Refuses := by
  intro h
  cases h

theorem Reply.not_refuses_flag : ¬ (Reply.flag true).Refuses := by
  intro h
  cases h

namespace Operation

def perform (s : TokenStream) : Operation → Reply × TokenStream
  | current => (.token s.current, s)
  | check kind => (.flag (s.isAt kind), s)
  | advance => (.token s.current, s.advance)
  | skipIf kind =>
    let (found, next) := s.skipIf kind
    (.flag found, next)
  | expect kind construct =>
    match s.expect kind construct with
    | .ok (token, next) => (.token token, next)
    | .error e => (.error e, s)

/-- The token that an operation takes from a stream, by its reply. Only a look at a token answers
with one and takes none. -/
def taken? (s : TokenStream) (op : Operation) : Option Token :=
  match op, (op.perform s).1 with
  | advance, .token token => some token
  | expect _ _, .token token => some token
  | skipIf _, .flag true => some s.current
  | _, _ => none

/-- An operation takes the current token and moves, or takes none and stays. One that is refused
stays. -/
theorem perform_cases (s : TokenStream) (op : Operation) :
    (op.taken? s = some s.current ∧ (op.perform s).2 = s.advance ∧ ¬ (op.perform s).1.Refuses) ∨
      (op.taken? s = none ∧ (op.perform s).2 = s) := by
  cases op with
  | current => exact .inr ⟨rfl, rfl⟩
  | check kind => exact .inr ⟨rfl, rfl⟩
  | advance => exact .inl ⟨rfl, rfl, Reply.not_refuses_token _⟩
  | skipIf kind =>
      by_cases hkind : s.isAt kind
      · left
        simp only [taken?, perform, TokenStream.skipIf, hkind, if_true, true_and]
        exact Reply.not_refuses_flag
      · right
        simp [taken?, perform, TokenStream.skipIf, hkind]
  | expect kind construct =>
      by_cases hkind : s.isAt kind
      · left
        simp only [taken?, perform, TokenStream.expect, hkind, if_true, true_and]
        exact Reply.not_refuses_token _
      · right
        simp [taken?, perform, TokenStream.expect, hkind]

end Operation

/-- Does one operation after another. The tokens that they take come with the stream that is
left. -/
def run (s : TokenStream) : List Operation → List Token × TokenStream
  | [] => ([], s)
  | op :: ops =>
    let (taken, last) := (op.perform s).2.run ops
    ((op.taken? s).toList ++ taken, last)

/-! ## Places -/

/-- A stream stands at a place in a list of tokens, and has those from there on. -/
def StandsAt (s : TokenStream) (tokens : List Token) (place : Nat) : Prop :=
  tokens.drop place = s.tokens

variable {s start : TokenStream} {tokens : List Token} {place : Nat}

theorem StandsAt.lt (h : s.StandsAt tokens place) : place < tokens.length := by
  apply Nat.lt_of_not_le
  intro hge
  rw [StandsAt, List.drop_eq_nil_of_le hge] at h
  cases h

theorem StandsAt.current (h : s.StandsAt tokens place) : tokens[place]? = some s.current := by
  have hhead := congrArg List.head? h
  rwa [List.head?_drop] at hhead

/-- There are no more tokens exactly at the last place. -/
theorem StandsAt.rest_eq_nil_iff (h : s.StandsAt tokens place) :
    s.rest = [] ↔ place = tokens.length - 1 := by
  have hlt := h.lt
  have hlength := congrArg List.length h
  simp only [TokenStream.tokens, List.length_drop, List.length_cons] at hlength
  rw [← List.length_eq_zero_iff]
  omega

theorem standsAt_of_ofTokens (h : ofTokens tokens = .ok start) : start.StandsAt tokens 0 := by
  cases tokens with
  | nil => cases h
  | cons token rest =>
      unfold ofTokens at h
      dsimp only at h
      split at h
      · cases h
        rfl
      · cases h

/-- A move goes to the next place, and stays at the last one. -/
theorem StandsAt.advance (h : s.StandsAt tokens place) :
    s.advance.StandsAt tokens (min (place + 1) (tokens.length - 1)) := by
  have hlt := h.lt
  have hlast := h.rest_eq_nil_iff
  obtain ⟨current, rest⟩ := s
  cases rest with
  | nil =>
      have hplace : place = tokens.length - 1 := hlast.mp rfl
      rwa [Nat.min_eq_right (by omega), ← hplace]
  | cons next rest =>
      have hplace : place ≠ tokens.length - 1 := fun heq => List.cons_ne_nil _ _ (hlast.mpr heq)
      rw [Nat.min_eq_left (by omega), StandsAt, ← List.drop_drop, h]
      rfl

/-- After any operations a stream stands as many places further on as tokens were taken, or at the
last place. The tokens taken are those of the places in between. -/
theorem StandsAt.run (h : s.StandsAt tokens place) (ops : List Operation) :
    (s.run ops).2.StandsAt tokens (min (place + (s.run ops).1.length) (tokens.length - 1)) ∧
      ∀ i < (s.run ops).1.length,
        (s.run ops).1[i]? = tokens[min (place + i) (tokens.length - 1)]? := by
  have hlt := h.lt
  induction ops generalizing s place with
  | nil =>
      refine ⟨?_, fun i hi => absurd hi (Nat.not_lt_zero i)⟩
      rwa [TokenStream.run, List.length_nil, Nat.min_eq_left (by omega)]
  | cons op ops ih =>
      simp only [TokenStream.run]
      rcases op.perform_cases s with ⟨htaken, hnext, -⟩ | ⟨htaken, hnext⟩
      · obtain ⟨hlast, hplaces⟩ := ih h.advance h.advance.lt
        -- how far the rest of the operations lead, counted from this place
        have hfrom : ∀ i, min (min (place + 1) (tokens.length - 1) + i) (tokens.length - 1) =
            min (place + (i + 1)) (tokens.length - 1) := by
          intro i
          omega
        rw [htaken, hnext, Option.toList_some, List.singleton_append, List.length_cons]
        constructor
        · rwa [← hfrom]
        · intro i hi
          cases i with
          | zero =>
              rw [List.getElem?_cons_zero, Nat.add_zero, Nat.min_eq_left (by omega), h.current]
          | succ i => rw [List.getElem?_cons_succ, hplaces i (Nat.lt_of_succ_lt_succ hi), hfrom]
      · rw [htaken, hnext, Option.toList_none, List.nil_append]
        exact ih h hlt

/-! ## The end of the file -/

/-- No operation moves a stream exactly if its current token is the last one. -/
theorem forall_perform_eq_iff (s : TokenStream) :
    (∀ op : Operation, (op.perform s).2 = s) ↔ s.rest = [] := by
  constructor
  · intro h
    have hstay : s.advance = s := h .advance
    obtain ⟨current, rest⟩ := s
    cases rest with
    | nil => rfl
    | cons next rest =>
        have hlength := congrArg (fun s => s.rest.length) hstay
        simp [TokenStream.advance] at hlength
  · intro h op
    have hstay : s.advance = s := by
      obtain ⟨current, rest⟩ := s
      obtain rfl : rest = [] := h
      rfl
    rcases op.perform_cases s with ⟨-, hnext, -⟩ | ⟨-, hnext⟩
    · exact hnext.trans hstay
    · exact hnext

theorem length_run_replicate_advance (s : TokenStream) (n : Nat) :
    (s.run (List.replicate n .advance)).1.length = n := by
  induction n generalizing s with
  | zero => rfl
  | succ n ih =>
      rw [List.replicate_succ, run, List.length_append, ih]
      exact Nat.add_comm 1 n

/-- Moves alone lead to every place. -/
theorem StandsAt.exists_run (h : start.StandsAt tokens 0) (hplace : place < tokens.length) :
    ∃ ops, (start.run ops).2.StandsAt tokens place := by
  refine ⟨List.replicate place .advance, ?_⟩
  have hlast := (h.run (List.replicate place .advance)).1
  rwa [length_run_replicate_advance, Nat.zero_add, Nat.min_eq_left (by omega)] at hlast

theorem exists_concat_of_ofTokens (h : ofTokens tokens = .ok start) :
    ∃ before last, tokens = before ++ [last] ∧ last.kind = .endOfFile := by
  cases tokens with
  | nil => cases h
  | cons token rest =>
      unfold ofTokens at h
      dsimp only at h
      split at h
      · rename_i hlast
        refine ⟨(token :: rest).dropLast, rest.getLastD token, ?_, hlast⟩
        rw [← List.getLast_eq_getLastD (List.cons_ne_nil token rest), List.dropLast_concat_getLast]
      · cases h

/-- Streams of a list stay at every end of the file exactly if only its last token is one. -/
theorem forall_run_stays_iff (h : ofTokens tokens = .ok start) :
    (∀ ops (op : Operation), (start.run ops).2.current.kind = .endOfFile →
      (op.perform (start.run ops).2).2 = (start.run ops).2) ↔ EndsOnce tokens := by
  have hstart := standsAt_of_ofTokens h
  obtain ⟨before, last, rfl, hlast⟩ := exists_concat_of_ofTokens h
  have hlength : (before ++ [last]).length - 1 = before.length := by simp
  rw [endsOnce_concat_iff hlast]
  constructor
  · intro hstays token htoken hend
    obtain ⟨place, hplace, rfl⟩ := List.mem_iff_getElem.mp htoken
    have hinside : place < (before ++ [last]).length := by
      rw [List.length_append]
      exact Nat.lt_add_right _ hplace
    obtain ⟨ops, hstands⟩ := hstart.exists_run hinside
    have hcurrent := hstands.current
    rw [List.getElem?_append_left hplace, List.getElem?_eq_getElem hplace,
      Option.some.injEq] at hcurrent
    have hrest := (forall_perform_eq_iff _).mp fun op => hstays ops op (hcurrent ▸ hend)
    have hlastPlace := hstands.rest_eq_nil_iff.mp hrest
    omega
  · intro hbefore ops op hend
    have hstands := (hstart.run ops).1
    have hcurrent := hstands.current
    generalize min (0 + (start.run ops).1.length) _ = place at hstands hcurrent
    apply (forall_perform_eq_iff _).mpr
    rw [hstands.rest_eq_nil_iff, hlength]
    have hlt := hstands.lt
    rw [List.length_append, List.length_singleton] at hlt
    -- every place before the last one has another kind of token
    apply Nat.le_antisymm (Nat.le_of_lt_succ hlt)
    apply Nat.le_of_not_lt
    intro hplace
    rw [List.getElem?_append_left hplace] at hcurrent
    exact hbefore _ (List.mem_of_getElem? hcurrent) hend

/-- A stream that was made of tokens stands at one of them after any operations: it is as many
places on as tokens were taken, or at the last one. The tokens taken are those of the places in
between, one after another, and the last one again and again. An operation that is refused leaves
the stream where it is, and no operation leaves the last token. So an end of the file is left where
tokens come after it: every end of the file stops the moves exactly if the list ends once. -/
theorem run_stays_on_tokens (h : ofTokens tokens = .ok start) :
    (∀ ops, let (taken, s) := start.run ops
      tokens[min taken.length (tokens.length - 1)]? = some s.current ∧
      (∀ i < taken.length, taken[i]? = tokens[min i (tokens.length - 1)]?) ∧
      (∀ op : Operation, (op.perform s).1.Refuses → (op.perform s).2 = s) ∧
      ((∀ op : Operation, (op.perform s).2 = s) ↔ tokens.length ≤ taken.length + 1)) ∧
    ((∀ ops (op : Operation), (start.run ops).2.current.kind = .endOfFile →
      (op.perform (start.run ops).2).2 = (start.run ops).2) ↔ EndsOnce tokens) := by
  refine ⟨fun ops => ?_, forall_run_stays_iff h⟩
  have hstart := standsAt_of_ofTokens h
  obtain ⟨hstands, hplaces⟩ := hstart.run ops
  simp only [Nat.zero_add] at hstands hplaces
  refine ⟨hstands.current, hplaces, fun op hrefuses => ?_, ?_⟩
  · rcases op.perform_cases (start.run ops).2 with ⟨-, -, hnot⟩ | ⟨-, hstay⟩
    · exact absurd hrefuses hnot
    · exact hstay
  · have hlt := hstart.lt
    rw [forall_perform_eq_iff, hstands.rest_eq_nil_iff]
    omega

/-- A list with two ends of the file. -/
def twoEnds : List Token :=
  [⟨.keyword .def_, .start, .none⟩, .endOfFile ⟨1, 5⟩, .endOfFile ⟨1, 6⟩]

/-- Four moves take the three tokens and the last one again. The first end of the file does not stop
them. -/
theorem run_stays_on_tokens_twoEnds : ∃ start, ofTokens twoEnds = .ok start ∧
    (start.run [.skipIf .identifier, .expect (.keyword .def_) .item, .advance,
      .skipIf .endOfFile, .advance]).1 = twoEnds ++ [.endOfFile ⟨1, 6⟩] ∧
    ¬ ∀ ops (op : Operation), (start.run ops).2.current.kind = .endOfFile →
      (op.perform (start.run ops).2).2 = (start.run ops).2 := by
  have hstart : ofTokens twoEnds =
      .ok ⟨⟨.keyword .def_, .start, .none⟩, [.endOfFile ⟨1, 5⟩, .endOfFile ⟨1, 6⟩]⟩ := rfl
  refine ⟨_, hstart, by decide, ?_⟩
  rw [(run_stays_on_tokens hstart).2]
  rintro (_ | ⟨-, _ | ⟨hfirst, -⟩⟩)
  exact hfirst rfl

/-- The current token may be an end of the file that a move leaves. -/
theorem not_forall_stays_at_end : ¬ ∀ (tokens : List Token) (start : TokenStream)
    (ops : List Operation) (op : Operation), ofTokens tokens = .ok start →
    (start.run ops).2.current.kind = .endOfFile →
      (op.perform (start.run ops).2).2.current = (start.run ops).2.current := by
  intro hstaysAtEnd
  have hstays := hstaysAtEnd twoEnds ⟨_, _⟩ [.expect (.keyword .def_) .item] .advance rfl rfl
  exact absurd hstays (by decide)

end TokenStream

end FrontEnd
