import FrontEnd.Proofs.Grammar.Sentences
import FrontEnd.Proofs.Session

/-! # Names that are read from tokens

The readers make no names: whatever holds of all names in a stream of tokens holds of those in the
parts that are read from it, also where the stream goes wrong after them. -/

namespace FrontEnd

/-- A property of all names in tokens. -/
def Token.AllNames (P : Name → Prop) (tokens : List Token) : Prop :=
  ∀ token ∈ tokens, ∀ name ∈ token.name?, P name

namespace TokenStream

variable {P : Name → Prop} {s t : TokenStream} {token : Token} {kind : TokenKind}
  {construct : Construct}

theorem allNames_current (h : Token.AllNames P s.tokens) : ∀ name ∈ s.current.name?, P name :=
  h s.current (List.mem_cons_self ..)

theorem allNames_advance (h : Token.AllNames P s.tokens) : Token.AllNames P s.advance.tokens := by
  obtain ⟨current, rest⟩ := s
  cases rest with
  | nil => exact h
  | cons next rest => exact fun token htoken => h token (List.mem_cons_of_mem _ htoken)

theorem allNames_expect (h : Token.AllNames P s.tokens)
    (hok : s.expect kind construct = .ok (token, t)) :
    (∀ name ∈ token.name?, P name) ∧ Token.AllNames P t.tokens := by
  unfold expect at hok
  split at hok <;> cases hok
  exact ⟨allNames_current h, allNames_advance h⟩

theorem ofTokens_tokens_eq {tokens : List Token} (hok : ofTokens tokens = .ok s) :
    s.tokens = tokens := by
  unfold ofTokens at hok
  split at hok
  · cases hok
  · split at hok <;> cases hok
    rfl

end TokenStream

variable {P : Name → Prop} {s t : TokenStream}

theorem Token.ident_allNames {token : Token} (h : ∀ name ∈ token.name?, P name) {name : Name}
    (hok : token.ident = .ok name) : P name :=
  h name (by simp [name?, ident_eq_ok_iff.mp hok])

theorem Token.int_allNames {token : Token} (h : ∀ name ∈ token.name?, P name)
    {value : IntegerValue Name} (hok : token.int = .ok value) :
    ∀ name, (Expr.intLiteral value).name? = some name → P name := by
  intro name hname
  refine h name ?_
  rw [Token.name?, int_eq_ok_iff.mp hok]
  cases value with
  | small number => cases hname
  | oversized digits radix => exact hname

theorem TypeSyntax.readInside_allNames {opens : List Position} {construct : Construct}
    {type : TypeSyntax} (h : Token.AllNames P s.tokens)
    (hok : readInside opens construct s = .ok (type, t)) :
    P type.base ∧ Token.AllNames P t.tokens := by
  fun_induction readInside opens construct s with
  | case1 opens construct s hkind =>
      obtain ⟨name, hname, heq⟩ := Except.map_eq_ok_iff.mp hok
      cases heq
      exact ⟨Token.ident_allNames (TokenStream.allNames_current h) hname,
        TokenStream.allNames_advance h⟩
  | case2 opens construct s _ hopen close hclose arrow harrow _ _ _ ih =>
      exact ih (TokenStream.allNames_advance
        (TokenStream.allNames_advance (TokenStream.allNames_advance h))) hok
  | case3 => cases hok
  | case4 => cases hok
  | case5 => cases hok

/-- A property of all names in a value, the digits of a large number included. -/
def ValueSyntax.AllNames (P : Name → Prop) : ValueSyntax → Prop
  | literal value _ => ∀ name, (Expr.intLiteral value).name? = some name → P name
  | type written => P written.base

theorem ValueSyntax.read_allNames {value : ValueSyntax} (h : Token.AllNames P s.tokens)
    (hok : read s = .ok (value, t)) : value.AllNames P ∧ Token.AllNames P t.tokens := by
  unfold read at hok
  split at hok
  · obtain ⟨number, hnumber, heq⟩ := Except.map_eq_ok_iff.mp hok
    cases heq
    exact ⟨Token.int_allNames (TokenStream.allNames_current h) hnumber,
      TokenStream.allNames_advance h⟩
  · obtain ⟨⟨type, rest⟩, htype, heq⟩ := Except.map_eq_ok_iff.mp hok
    cases heq
    exact TypeSyntax.readInside_allNames h htype

theorem HeaderSyntax.read_allNames {header : HeaderSyntax} (h : Token.AllNames P s.tokens)
    (hok : read s = .ok (header, t)) :
    P header.name ∧ P header.result.base ∧ Token.AllNames P t.tokens := by
  unfold read at hok
  obtain ⟨⟨start, s₁⟩, hstart, hok⟩ := Except.bind_eq_ok_iff.mp hok
  obtain ⟨⟨word, s₂⟩, hword, hok⟩ := Except.bind_eq_ok_iff.mp hok
  obtain ⟨name, hname, hok⟩ := Except.bind_eq_ok_iff.mp hok
  obtain ⟨⟨opening, s₃⟩, hopening, hok⟩ := Except.bind_eq_ok_iff.mp hok
  obtain ⟨⟨closing, s₄⟩, hclosing, hok⟩ := Except.bind_eq_ok_iff.mp hok
  obtain ⟨⟨arrow, s₅⟩, harrow, hok⟩ := Except.bind_eq_ok_iff.mp hok
  obtain ⟨⟨type, s₆⟩, htype, hok⟩ := Except.bind_eq_ok_iff.mp hok
  cases hok
  obtain ⟨-, h₁⟩ := TokenStream.allNames_expect h hstart
  obtain ⟨hnames, h₂⟩ := TokenStream.allNames_expect h₁ hword
  obtain ⟨-, h₃⟩ := TokenStream.allNames_expect h₂ hopening
  obtain ⟨-, h₄⟩ := TokenStream.allNames_expect h₃ hclosing
  obtain ⟨-, h₅⟩ := TokenStream.allNames_expect h₄ harrow
  obtain ⟨hbase, h₆⟩ := TypeSyntax.readInside_allNames h₅ htype
  exact ⟨Token.ident_allNames hnames hname, hbase, h₆⟩

theorem StatementSyntax.read_allNames {statement : StatementSyntax}
    (h : Token.AllNames P s.tokens) (hok : read s = .ok (statement, t)) :
    statement.value.AllNames P := by
  unfold read at hok
  obtain ⟨⟨brace, s₁⟩, hbrace, hok⟩ := Except.bind_eq_ok_iff.mp hok
  obtain ⟨⟨start, s₂⟩, hstart, hok⟩ := Except.bind_eq_ok_iff.mp hok
  obtain ⟨⟨value, s₃⟩, hvalue, hok⟩ := Except.bind_eq_ok_iff.mp hok
  cases hok
  obtain ⟨-, h₁⟩ := TokenStream.allNames_expect h hbrace
  obtain ⟨-, h₂⟩ := TokenStream.allNames_expect h₁ hstart
  exact (ValueSyntax.read_allNames h₂ hvalue).1

end FrontEnd
