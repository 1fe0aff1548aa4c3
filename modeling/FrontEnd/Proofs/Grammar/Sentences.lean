import FrontEnd.Grammar.Parts
import FrontEnd.Proofs.Except

/-! # Sentences and their derivations

The grammar of an item is one of kinds of tokens. A derivation of tokens is what they spell, and
the readers find exactly the derivations. -/

namespace FrontEnd

/-! ## The grammar -/

/-- `type := IDENT | ( ) -> type` -/
inductive IsType : List TokenKind → Prop where
  | name : IsType [.identifier]
  | function {kinds} : IsType kinds →
      IsType (.symbol .leftParen :: .symbol .rightParen :: .symbol .arrow :: kinds)

/-- `value := INT | type` -/
inductive IsValue : List TokenKind → Prop where
  | literal : IsValue [.intLiteral]
  | type {kinds} : IsType kinds → IsValue kinds

/-- `end := ;? } EOF` -/
inductive IsEnd : List TokenKind → Prop where
  | plain : IsEnd [.symbol .rightBrace, .endOfFile]
  | semicolon : IsEnd [.symbol .semicolon, .symbol .rightBrace, .endOfFile]

/-- `item := def IDENT ( ) -> type { return value end` -/
inductive IsItem : List TokenKind → Prop where
  | mk {type value rest} : IsType type → IsValue value → IsEnd rest →
      IsItem (.keyword .def_ :: .identifier :: .symbol .leftParen :: .symbol .rightParen ::
        .symbol .arrow ::
          (type ++ .symbol .leftBrace :: .keyword .return_ :: (value ++ rest)))

/-! ## Derivations -/

/-- What the tokens of a type spell. -/
inductive DerivesType : List Token → TypeSyntax → Prop where
  | name {token : Token} {name} : token.kind = .identifier → token.value = .ident name →
      DerivesType [token] ⟨[], name, token.pos⟩
  | function {opening closing arrow : Token} {tokens type} :
      opening.kind = .symbol .leftParen → closing.kind = .symbol .rightParen →
      arrow.kind = .symbol .arrow → DerivesType tokens type →
      DerivesType (opening :: closing :: arrow :: tokens)
        { type with opens := type.opens ++ [opening.pos] }

inductive DerivesValue : List Token → ValueSyntax → Prop where
  | literal {token : Token} {value} : token.kind = .intLiteral → token.value = .int value →
      DerivesValue [token] (.literal value token.pos)
  | type {tokens type} : DerivesType tokens type → DerivesValue tokens (.type type)

inductive DerivesHeader : List Token → HeaderSyntax → Prop where
  | mk {start word opening closing arrow : Token} {name tokens type} :
      start.kind = .keyword .def_ → word.kind = .identifier → word.value = .ident name →
      opening.kind = .symbol .leftParen → closing.kind = .symbol .rightParen →
      arrow.kind = .symbol .arrow → DerivesType tokens type →
      DerivesHeader (start :: word :: opening :: closing :: arrow :: tokens)
        ⟨start.pos, name, opening.pos, type⟩

/-- A statement without the semicolon that may follow it. -/
inductive DerivesStatement : List Token → StatementSyntax → Prop where
  | mk {brace start : Token} {tokens value} : brace.kind = .symbol .leftBrace →
      start.kind = .keyword .return_ → DerivesValue tokens value →
      DerivesStatement (brace :: start :: tokens) ⟨start.pos, value⟩

inductive DerivesItem : List Token → HeaderSyntax → StatementSyntax → Prop where
  | mk {first second rest header statement} : DerivesHeader first header →
      DerivesStatement second statement → IsEnd (rest.map Token.kind) →
      DerivesItem (first ++ (second ++ rest)) header statement

/-! ### Derivations are of sentences -/

theorem DerivesType.isType {tokens : List Token} {type : TypeSyntax} (h : DerivesType tokens type) :
    IsType (tokens.map Token.kind) := by
  induction h with
  | name hkind _ => simpa [hkind] using IsType.name
  | function hopening hclosing harrow _ ih =>
      simpa [hopening, hclosing, harrow] using IsType.function ih

theorem DerivesValue.isValue {tokens : List Token} {value : ValueSyntax}
    (h : DerivesValue tokens value) : IsValue (tokens.map Token.kind) := by
  cases h with
  | literal hkind _ => simpa [hkind] using IsValue.literal
  | type htype => exact .type htype.isType

theorem DerivesItem.isItem {tokens : List Token} {header : HeaderSyntax}
    {statement : StatementSyntax} (h : DerivesItem tokens header statement) :
    IsItem (tokens.map Token.kind) := by
  obtain ⟨⟨hstart, hword, -, hopening, hclosing, harrow, htype⟩,
    ⟨hbrace, hreturn, hvalue⟩, hend⟩ := h
  simpa [hstart, hword, hopening, hclosing, harrow, hbrace, hreturn] using
    IsItem.mk htype.isType hvalue.isValue hend

/-! ### Sentences have derivations -/

/-- An identifier has a name, and an integer literal a number. -/
structure Token.Carries (token : Token) : Prop where
  ident : token.kind = .identifier → ∃ name, token.value = .ident name
  int : token.kind = .intLiteral → ∃ value, token.value = .int value

theorem IsType.derives {kinds : List TokenKind} (h : IsType kinds) {tokens : List Token}
    (hkinds : tokens.map Token.kind = kinds) (hcarries : ∀ token ∈ tokens, token.Carries) :
    ∃ type, DerivesType tokens type := by
  induction h generalizing tokens with
  | name =>
      obtain ⟨token, rfl, hkind⟩ := List.map_eq_singleton_iff.mp hkinds
      obtain ⟨name, hname⟩ := (hcarries token (by simp)).ident hkind
      exact ⟨_, .name hkind hname⟩
  | function _ ih =>
      obtain ⟨opening, _, rfl, hopening, hkinds⟩ := List.map_eq_cons_iff.mp hkinds
      obtain ⟨closing, _, rfl, hclosing, hkinds⟩ := List.map_eq_cons_iff.mp hkinds
      obtain ⟨arrow, tokens, rfl, harrow, hkinds⟩ := List.map_eq_cons_iff.mp hkinds
      obtain ⟨type, htype⟩ := ih hkinds fun token htoken => hcarries token (by simp [htoken])
      exact ⟨_, .function hopening hclosing harrow htype⟩

theorem IsValue.derives {tokens : List Token} (h : IsValue (tokens.map Token.kind))
    (hcarries : ∀ token ∈ tokens, token.Carries) : ∃ value, DerivesValue tokens value := by
  generalize hkinds : tokens.map Token.kind = kinds at h
  cases h with
  | literal =>
      obtain ⟨token, rfl, hkind⟩ := List.map_eq_singleton_iff.mp hkinds
      obtain ⟨value, hvalue⟩ := (hcarries token (by simp)).int hkind
      exact ⟨_, .literal hkind hvalue⟩
  | type htype =>
      obtain ⟨type, htype⟩ := htype.derives hkinds hcarries
      exact ⟨_, .type htype⟩

theorem IsItem.derives {tokens : List Token} (h : IsItem (tokens.map Token.kind))
    (hcarries : ∀ token ∈ tokens, token.Carries) :
    ∃ header statement, DerivesItem tokens header statement := by
  generalize hkinds : tokens.map Token.kind = kinds at h
  obtain ⟨htype, hvalue, hend⟩ := h
  obtain ⟨start, _, rfl, hstart, hkinds⟩ := List.map_eq_cons_iff.mp hkinds
  obtain ⟨word, _, rfl, hword, hkinds⟩ := List.map_eq_cons_iff.mp hkinds
  obtain ⟨opening, _, rfl, hopening, hkinds⟩ := List.map_eq_cons_iff.mp hkinds
  obtain ⟨closing, _, rfl, hclosing, hkinds⟩ := List.map_eq_cons_iff.mp hkinds
  obtain ⟨arrow, _, rfl, harrow, hkinds⟩ := List.map_eq_cons_iff.mp hkinds
  obtain ⟨typeTokens, _, rfl, rfl, hinner⟩ := List.map_eq_append_iff.mp hkinds
  obtain ⟨brace, _, rfl, hbrace, hinner⟩ := List.map_eq_cons_iff.mp hinner
  obtain ⟨back, _, rfl, hreturn, hinner⟩ := List.map_eq_cons_iff.mp hinner
  obtain ⟨valueTokens, rest, rfl, rfl, rfl⟩ := List.map_eq_append_iff.mp hinner
  obtain ⟨name, hname⟩ := (hcarries word (by simp)).ident hword
  obtain ⟨type, htype⟩ := htype.derives rfl fun token htoken => hcarries token (by simp [htoken])
  obtain ⟨value, hvalue⟩ := hvalue.derives fun token htoken => hcarries token (by simp [htoken])
  exact ⟨_, _, .mk (.mk hstart hword hname hopening hclosing harrow htype)
    (.mk hbrace hreturn hvalue) hend⟩

/-! ## Streams -/

/-- The only end of the file is the last token. -/
inductive EndsOnce : List Token → Prop where
  | last {token : Token} : token.kind = .endOfFile → EndsOnce [token]
  | cons {token : Token} {rest} : token.kind ≠ .endOfFile → EndsOnce rest →
      EndsOnce (token :: rest)

theorem EndsOnce.of_append {first rest : List Token} (h : EndsOnce (first ++ rest))
    (hrest : rest ≠ []) : EndsOnce rest := by
  induction first with
  | nil => exact h
  | cons token first ih =>
      rw [List.cons_append] at h
      generalize hall : first ++ rest = all at h
      cases h with
      | last _ => exact absurd (List.append_eq_nil_iff.mp hall).2 hrest
      | cons _ htail => exact ih (hall ▸ htail)

theorem endsOnce_concat_iff {before : List Token} {last : Token} (hlast : last.kind = .endOfFile) :
    EndsOnce (before ++ [last]) ↔ ∀ token ∈ before, token.kind ≠ .endOfFile := by
  induction before with
  | nil => exact iff_of_true (.last hlast) nofun
  | cons token before ih =>
      rw [List.forall_mem_cons, ← ih, List.cons_append]
      constructor
      · intro h
        generalize hall : before ++ [last] = all at h
        cases h with
        | last _ => exact absurd hall (List.append_ne_nil_of_right_ne_nil _ (List.cons_ne_nil _ _))
        | cons htoken hrest => exact ⟨htoken, hrest⟩
      · rintro ⟨htoken, hrest⟩
        exact .cons htoken hrest

namespace TokenStream

def tokens (s : TokenStream) : List Token := s.current :: s.rest

theorem exists_tokens_eq {tokens : List Token} (h : tokens ≠ []) :
    ∃ s : TokenStream, s.tokens = tokens := by
  cases tokens with
  | nil => exact absurd rfl h
  | cons token rest => exact ⟨⟨token, rest⟩, rfl⟩

/-- A stream that goes on moves over its current token. -/
theorem eq_of_tokens_eq {s t : TokenStream} {token : Token} (h : s.tokens = token :: t.tokens) :
    s.current = token ∧ s.advance = t := by
  obtain ⟨current, rest⟩ := s
  cases h
  exact ⟨rfl, rfl⟩

/-- The end of the file is the only token that is not moved over. -/
theorem tokens_eq_cons {s : TokenStream} (h : EndsOnce s.tokens)
    (hkind : s.current.kind ≠ .endOfFile) :
    s.tokens = s.current :: s.advance.tokens ∧ EndsOnce s.advance.tokens := by
  obtain ⟨current, rest⟩ := s
  cases h with
  | last hlast => exact absurd hlast hkind
  | cons _ hrest =>
      cases rest with
      | nil => cases hrest
      | cons next rest => exact ⟨rfl, hrest⟩

theorem ofTokens_tokens {s : TokenStream} (h : EndsOnce s.tokens) : ofTokens s.tokens = .ok s := by
  obtain ⟨current, rest⟩ := s
  have hlast : ∀ {tokens : List Token} {token : Token}, EndsOnce (token :: tokens) →
      (tokens.getLastD token).kind = .endOfFile := by
    intro tokens
    induction tokens with
    | nil =>
        rintro token (hend | ⟨-, ⟨⟩⟩)
        exact hend
    | cons next tokens ih =>
        rintro token (_ | ⟨-, hrest⟩)
        rw [List.getLastD_cons]
        exact ih hrest
  exact if_pos (hlast h)

theorem exists_ofTokens {tokens : List Token} (h : EndsOnce tokens) :
    ∃ s : TokenStream, s.tokens = tokens ∧ ofTokens tokens = .ok s := by
  have hne : tokens ≠ [] := by
    rintro rfl
    cases h
  obtain ⟨s, rfl⟩ := exists_tokens_eq hne
  exact ⟨s, rfl, ofTokens_tokens h⟩

theorem expect_of_tokens_eq {s t : TokenStream} {token : Token} {kind : TokenKind}
    {construct : Construct} (h : s.tokens = token :: t.tokens) (hkind : token.kind = kind) :
    s.expect kind construct = .ok (token, t) := by
  obtain ⟨rfl, rfl⟩ := eq_of_tokens_eq h
  simp [expect, isAt, hkind]

theorem exists_next {s : TokenStream} {token : Token} {rest : List Token}
    (h : s.tokens = token :: rest) (hrest : rest ≠ []) :
    ∃ t : TokenStream, s.tokens = token :: t.tokens ∧ t.tokens = rest := by
  obtain ⟨t, rfl⟩ := exists_tokens_eq hrest
  exact ⟨t, h, rfl⟩

variable {α : Type} {s : TokenStream} {kind : TokenKind} {construct : Construct}
  {next : Token × TokenStream → Except SyntaxError α} {answer : α}

/-- What is expected stands next, and reading goes on after it. -/
theorem expect_bind_sound (h : EndsOnce s.tokens) (hkind : kind ≠ .endOfFile)
    (hok : (s.expect kind construct >>= next) = .ok answer) : ∃ token t,
      s.tokens = token :: t.tokens ∧ EndsOnce t.tokens ∧ token.kind = kind ∧
      next (token, t) = .ok answer := by
  by_cases hat : s.current.kind = kind
  · obtain ⟨htokens, hrest⟩ := tokens_eq_cons h (hat ▸ hkind)
    refine ⟨s.current, s.advance, htokens, hrest, hat, ?_⟩
    simpa [expect, isAt, hat, Bind.bind, Except.bind] using hok
  · simp [expect, isAt, hat, Bind.bind, Except.bind] at hok

end TokenStream

/-! ## Readers -/

theorem Token.ident_eq_ok_iff {token : Token} {name : Name} :
    token.ident = .ok name ↔ token.value = .ident name := by
  unfold Token.ident
  split <;> simp_all

theorem Token.int_eq_ok_iff {token : Token} {value : IntegerValue Name} :
    token.int = .ok value ↔ token.value = .int value := by
  unfold Token.int
  split <;> simp_all

variable {s t : TokenStream}

/-- A type that is read inside of function types is derived, and then put inside of them. -/
theorem TypeSyntax.readInside_sound {opens : List Position} {construct : Construct}
    {type : TypeSyntax} (h : EndsOnce s.tokens)
    (hok : TypeSyntax.readInside opens construct s = .ok (type, t)) :
    EndsOnce t.tokens ∧ ∃ tokens inner, s.tokens = tokens ++ t.tokens ∧
      DerivesType tokens inner ∧ type = { inner with opens := inner.opens ++ opens } := by
  fun_induction TypeSyntax.readInside opens construct s with
  | case1 opens construct s hkind =>
      obtain ⟨name, hname, heq⟩ := Except.map_eq_ok_iff.mp hok
      cases heq
      obtain ⟨htokens, hrest⟩ := TokenStream.tokens_eq_cons h (by simp [hkind])
      exact ⟨hrest, [s.current], _, htokens, .name hkind (Token.ident_eq_ok_iff.mp hname), rfl⟩
  | case2 opens construct s _ hopen close hclose arrow harrow _ _ _ ih =>
      obtain ⟨htokens, hrest⟩ := TokenStream.tokens_eq_cons h (by simp [hopen])
      obtain ⟨htokens₁, hrest₁⟩ := TokenStream.tokens_eq_cons hrest (by simp [close, hclose])
      have harrow : arrow.current.kind = .symbol .arrow := by simpa [TokenStream.isAt] using harrow
      obtain ⟨htokens₂, hrest₂⟩ := TokenStream.tokens_eq_cons hrest₁
        fun heq => by cases harrow.symm.trans heq
      obtain ⟨hlast, tokens, inner, htokens₃, hinner, rfl⟩ := ih hrest₂ hok
      refine ⟨hlast, _, _, ?_, .function hopen hclose harrow hinner, by simp⟩
      rw [htokens, htokens₁, htokens₂, htokens₃]
      rfl
  | case3 => cases hok
  | case4 => cases hok
  | case5 => cases hok

theorem TypeSyntax.readInside_complete {tokens : List Token} {inner : TypeSyntax}
    (h : DerivesType tokens inner) (opens : List Position) (construct : Construct)
    (htokens : s.tokens = tokens ++ t.tokens) : TypeSyntax.readInside opens construct s =
      .ok ({ inner with opens := inner.opens ++ opens }, t) := by
  induction h generalizing s opens construct with
  | @name token name hkind hvalue =>
      obtain ⟨rfl, rfl⟩ := TokenStream.eq_of_tokens_eq htokens
      rw [TypeSyntax.readInside, if_pos hkind, Token.ident_eq_ok_iff.mpr hvalue]
      rfl
  | @function opening closing arrow tokens type hopening hclosing harrow _ ih =>
      obtain ⟨s₁, hs, hs₁⟩ := TokenStream.exists_next htokens (by simp)
      obtain ⟨s₂, hs₁, hs₂⟩ := TokenStream.exists_next hs₁ (by simp)
      obtain ⟨s₃, hs₂, hs₃⟩ := TokenStream.exists_next hs₂ (by simp [TokenStream.tokens])
      obtain ⟨rfl, rfl⟩ := TokenStream.eq_of_tokens_eq hs
      obtain ⟨rfl, rfl⟩ := TokenStream.eq_of_tokens_eq hs₁
      obtain ⟨rfl, rfl⟩ := TokenStream.eq_of_tokens_eq hs₂
      rw [TypeSyntax.readInside, if_neg (by simp [hopening]), dif_pos hopening, dif_pos hclosing,
        if_pos (by simpa [TokenStream.isAt] using harrow), ih _ _ hs₃]
      simp

theorem TypeSyntax.read_complete {tokens : List Token} {type : TypeSyntax}
    {construct : Construct} (h : DerivesType tokens type)
    (htokens : s.tokens = tokens ++ t.tokens) :
    TypeSyntax.read construct s = .ok (type, t) := by
  rw [TypeSyntax.read, TypeSyntax.readInside_complete h [] construct htokens, List.append_nil]

theorem TypeSyntax.read_sound {construct : Construct} {type : TypeSyntax}
    (h : EndsOnce s.tokens) (hok : TypeSyntax.read construct s = .ok (type, t)) :
    ∃ tokens, s.tokens = tokens ++ t.tokens ∧ EndsOnce t.tokens ∧ DerivesType tokens type := by
  obtain ⟨hrest, tokens, inner, htokens, hinner, rfl⟩ := TypeSyntax.readInside_sound h hok
  refine ⟨tokens, htokens, hrest, ?_⟩
  rwa [List.append_nil]

/-- No type starts with a literal. -/
theorem DerivesType.exists_cons {tokens : List Token} {type : TypeSyntax}
    (h : DerivesType tokens type) :
    ∃ first rest, tokens = first :: rest ∧ first.kind ≠ .intLiteral := by
  cases h with
  | name hkind _ => exact ⟨_, _, rfl, by simp [hkind]⟩
  | function hopening _ _ _ => exact ⟨_, _, rfl, by simp [hopening]⟩

theorem ValueSyntax.read_sound {value : ValueSyntax} (h : EndsOnce s.tokens)
    (hok : ValueSyntax.read s = .ok (value, t)) :
    ∃ tokens, s.tokens = tokens ++ t.tokens ∧ EndsOnce t.tokens ∧ DerivesValue tokens value := by
  unfold ValueSyntax.read at hok
  split at hok
  · rename_i hat
    have hliteral : s.current.kind = .intLiteral := by simpa [TokenStream.isAt] using hat
    obtain ⟨number, hnumber, heq⟩ := Except.map_eq_ok_iff.mp hok
    cases heq
    obtain ⟨htokens, hrest⟩ := TokenStream.tokens_eq_cons h (by simp [hliteral])
    exact ⟨[s.current], htokens, hrest, .literal hliteral (Token.int_eq_ok_iff.mp hnumber)⟩
  · obtain ⟨⟨type, t⟩, htype, heq⟩ := Except.map_eq_ok_iff.mp hok
    cases heq
    obtain ⟨tokens, htokens, hrest, htype⟩ := TypeSyntax.read_sound h htype
    exact ⟨tokens, htokens, hrest, .type htype⟩

theorem ValueSyntax.read_complete {tokens : List Token} {value : ValueSyntax}
    (h : DerivesValue tokens value) (htokens : s.tokens = tokens ++ t.tokens) :
    ValueSyntax.read s = .ok (value, t) := by
  unfold ValueSyntax.read
  cases h with
  | literal hliteral hnumber =>
      obtain ⟨rfl, rfl⟩ := TokenStream.eq_of_tokens_eq htokens
      rw [if_pos (by simpa [TokenStream.isAt] using hliteral), Token.int_eq_ok_iff.mpr hnumber]
      rfl
  | type htype =>
      have hfirst : s.current.kind ≠ .intLiteral := by
        obtain ⟨first, rest, rfl, hfirst⟩ := htype.exists_cons
        exact List.head_eq_of_cons_eq htokens ▸ hfirst
      rw [if_neg (by simpa [TokenStream.isAt] using hfirst), TypeSyntax.read_complete htype htokens]
      rfl

theorem HeaderSyntax.read_sound {header : HeaderSyntax} (h : EndsOnce s.tokens)
    (hok : HeaderSyntax.read s = .ok (header, t)) : ∃ tokens, s.tokens = tokens ++ t.tokens ∧
      EndsOnce t.tokens ∧ DerivesHeader tokens header := by
  unfold HeaderSyntax.read at hok
  obtain ⟨start, s₁, hs, h₁, hstart, hok⟩ :=
    TokenStream.expect_bind_sound h (by simp) hok
  obtain ⟨word, s₂, hs₁, h₂, hword, hok⟩ :=
    TokenStream.expect_bind_sound h₁ (by simp) hok
  obtain ⟨name, hname, hok⟩ := Except.bind_eq_ok_iff.mp hok
  obtain ⟨opening, s₃, hs₂, h₃, hopening, hok⟩ :=
    TokenStream.expect_bind_sound h₂ (by simp) hok
  obtain ⟨closing, s₄, hs₃, h₄, hclosing, hok⟩ :=
    TokenStream.expect_bind_sound h₃ (by simp) hok
  obtain ⟨arrow, s₅, hs₄, h₅, harrow, hok⟩ :=
    TokenStream.expect_bind_sound h₄ (by simp) hok
  obtain ⟨⟨type, s₆⟩, htype, hok⟩ := Except.bind_eq_ok_iff.mp hok
  cases hok
  obtain ⟨tokens, hs₅, hrest, htype⟩ := TypeSyntax.read_sound h₅ htype
  refine ⟨_, ?_, hrest, .mk hstart hword (Token.ident_eq_ok_iff.mp hname) hopening hclosing
    harrow htype⟩
  rw [hs, hs₁, hs₂, hs₃, hs₄, hs₅]
  rfl

theorem HeaderSyntax.read_complete {tokens : List Token} {header : HeaderSyntax}
    (h : DerivesHeader tokens header) (htokens : s.tokens = tokens ++ t.tokens) :
    HeaderSyntax.read s = .ok (header, t) := by
  obtain ⟨hstart, hword, hname, hopening, hclosing, harrow, htype⟩ := h
  obtain ⟨s₁, hs, hs₁⟩ := TokenStream.exists_next htokens (by simp)
  obtain ⟨s₂, hs₁, hs₂⟩ := TokenStream.exists_next hs₁ (by simp)
  obtain ⟨s₃, hs₂, hs₃⟩ := TokenStream.exists_next hs₂ (by simp)
  obtain ⟨s₄, hs₃, hs₄⟩ := TokenStream.exists_next hs₃ (by simp)
  obtain ⟨s₅, hs₄, hs₅⟩ := TokenStream.exists_next hs₄ (by simp [TokenStream.tokens])
  simp only [HeaderSyntax.read, TokenStream.expect_of_tokens_eq hs hstart,
    TokenStream.expect_of_tokens_eq hs₁ hword, Token.ident_eq_ok_iff.mpr hname,
    TokenStream.expect_of_tokens_eq hs₂ hopening, TokenStream.expect_of_tokens_eq hs₃ hclosing,
    TokenStream.expect_of_tokens_eq hs₄ harrow, TypeSyntax.read_complete htype hs₅,
    Bind.bind, Except.bind]
  rfl

/-! ## Items -/

theorem StatementSyntax.read_sound {statement : StatementSyntax} (h : EndsOnce s.tokens)
    (hok : StatementSyntax.read s = .ok (statement, t)) : ∃ tokens, ∃ inner : TokenStream,
      s.tokens = tokens ++ inner.tokens ∧ EndsOnce inner.tokens ∧
      DerivesStatement tokens statement ∧ t = (inner.skipIf (.symbol .semicolon)).2 := by
  unfold StatementSyntax.read at hok
  obtain ⟨brace, s₁, hs, h₁, hbrace, hok⟩ :=
    TokenStream.expect_bind_sound h (by simp) hok
  obtain ⟨start, s₂, hs₁, h₂, hstart, hok⟩ :=
    TokenStream.expect_bind_sound h₁ (by simp) hok
  obtain ⟨⟨value, s₃⟩, hvalue, hok⟩ := Except.bind_eq_ok_iff.mp hok
  cases hok
  obtain ⟨tokens, hs₂, hrest, hvalue⟩ := ValueSyntax.read_sound h₂ hvalue
  refine ⟨_, s₃, ?_, hrest, .mk hbrace hstart hvalue, rfl⟩
  rw [hs, hs₁, hs₂]
  rfl

theorem StatementSyntax.read_complete {tokens : List Token} {statement : StatementSyntax}
    (h : DerivesStatement tokens statement) (htokens : s.tokens = tokens ++ t.tokens) :
    StatementSyntax.read s = .ok (statement, (t.skipIf (.symbol .semicolon)).2) := by
  obtain ⟨hbrace, hstart, hvalue⟩ := h
  obtain ⟨s₁, hs, hs₁⟩ := TokenStream.exists_next htokens (by simp)
  obtain ⟨s₂, hs₁, hs₂⟩ := TokenStream.exists_next hs₁ (by simp [TokenStream.tokens])
  simp only [StatementSyntax.read, TokenStream.expect_of_tokens_eq hs hbrace,
    TokenStream.expect_of_tokens_eq hs₁ hstart, ValueSyntax.read_complete hvalue hs₂,
    Bind.bind, Except.bind]
  rfl

theorem readClose_iff (h : EndsOnce s.tokens) : (∃ done, readClose s = .ok done) ↔
    s.tokens.map Token.kind = [.symbol .rightBrace, .endOfFile] := by
  constructor
  · rintro ⟨done, hok⟩
    obtain ⟨brace, t, hs, ht, hbrace, hok⟩ := TokenStream.expect_bind_sound h (by simp) hok
    have hend : t.current.kind = .endOfFile := by
      refine Decidable.byContradiction fun hend => ?_
      simp [TokenStream.expect, TokenStream.isAt, hend, Bind.bind, Except.bind] at hok
    obtain ⟨current, rest⟩ := t
    cases ht with
    | last hlast =>
        rw [hs]
        simpa [TokenStream.tokens, hbrace] using hlast
    | cons hne _ => exact absurd hend hne
  · intro hkinds
    obtain ⟨brace, _, hs, hbrace, hkinds⟩ := List.map_eq_cons_iff.mp hkinds
    obtain ⟨last, rfl, hlast⟩ := List.map_eq_singleton_iff.mp hkinds
    have hs : s.tokens = brace :: (⟨last, []⟩ : TokenStream).tokens := hs
    have hlast : (⟨last, []⟩ : TokenStream).expect .endOfFile .item = .ok (last, ⟨last, []⟩) :=
      if_pos (by simpa [TokenStream.isAt] using hlast)
    refine ⟨⟨last, []⟩, ?_⟩
    simp only [readClose, TokenStream.expect_of_tokens_eq hs hbrace, hlast, Bind.bind, Except.bind]
    rfl

/-- After a statement there may be a semicolon before the item is closed. -/
theorem readClose_skipIf_iff (h : EndsOnce s.tokens) :
    (∃ done, readClose (s.skipIf (.symbol .semicolon)).2 = .ok done) ↔
      IsEnd (s.tokens.map Token.kind) := by
  have hend : ∀ kinds, IsEnd kinds ↔ kinds = [.symbol .rightBrace, .endOfFile] ∨
      kinds = [.symbol .semicolon, .symbol .rightBrace, .endOfFile] := by
    intro kinds
    constructor
    · rintro ⟨⟩ <;> simp
    · rintro (rfl | rfl)
      · exact .plain
      · exact .semicolon
  by_cases hat : s.current.kind = .symbol .semicolon
  · obtain ⟨hs, hrest⟩ := TokenStream.tokens_eq_cons h (by simp [hat])
    rw [TokenStream.skipIf, if_pos (by simpa [TokenStream.isAt] using hat), readClose_iff hrest,
      hend, hs]
    simp [hat]
  · rw [TokenStream.skipIf, if_neg (by simpa [TokenStream.isAt] using hat), readClose_iff h, hend]
    simp [TokenStream.tokens, hat]

end FrontEnd
