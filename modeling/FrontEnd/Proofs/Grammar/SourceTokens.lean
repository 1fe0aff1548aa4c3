import FrontEnd.Proofs.Lexical.Counts
import FrontEnd.Proofs.Grammar.Sentences
import FrontEnd.Proofs.CompilationUnit.Listing
import Mathlib.Data.List.Count

/-! # The tokens of a source can be parsed

They end once, carry what their kinds ask for, and have names of the unit that they were read in. -/

namespace FrontEnd

/-! ## Tokens that spell lexemes -/

theorem Interner.lt_size_of_text? {hash : String → UInt32} {names : Interner hash} {name : Name}
    {text : String} (h : names.text? name = some text) : name.index < names.size := by
  rw [Interner.text?_eq_getElem?] at h
  rw [← Interner.length_toList]
  exact (List.getElem?_eq_some_iff.mp h).1

namespace Token

variable {hash : String → UInt32} {names : Interner hash} {token : Token} {placed : PlacedLexeme}

theorem placed?_eq_some_iff : token.placed? names = some placed ↔ token.pos = placed.pos ∧
    token.kind = placed.lexeme.kind ∧ token.value.spelled? names = some placed.lexeme.value := by
  obtain ⟨kind, pos, value⟩ := token
  obtain ⟨pos', kind', value'⟩ := placed
  cases hspelled : value.spelled? names <;> simp [placed?, lexeme?, hspelled]

/-- The names in a token that spells a lexeme are there. -/
theorem name?_lt (h : token.placed? names = some placed) {name : Name}
    (hname : token.name? = some name) : name.index < names.size := by
  obtain ⟨-, -, hvalue⟩ := placed?_eq_some_iff.mp h
  unfold name? at hname
  split at hname
  · rename_i found hfound
    cases hname
    rw [hfound] at hvalue
    obtain ⟨text, htext, -⟩ := Option.map_eq_some_iff.mp hvalue
    exact Interner.lt_size_of_text? htext
  · rename_i found radix hfound
    cases hname
    rw [hfound] at hvalue
    obtain ⟨text, htext, -⟩ := Option.map_eq_some_iff.mp hvalue
    exact Interner.lt_size_of_text? htext
  · cases hname

theorem carries_of_fits (h : token.placed? names = some placed) (hfits : placed.lexeme.Fits) :
    token.Carries := by
  obtain ⟨-, hkind, hvalue⟩ := placed?_eq_some_iff.mp h
  constructor
  · intro hident
    obtain ⟨text, htext⟩ := hfits.ident (hkind ▸ hident)
    rw [htext] at hvalue
    cases hpayload : token.value with
    | ident name => exact ⟨name, rfl⟩
    | none => simp [hpayload, Payload.spelled?] at hvalue
    | int value => cases value <;> simp [hpayload, Payload.spelled?] at hvalue
  · intro hint
    obtain ⟨value, hfound⟩ := hfits.int (hkind ▸ hint)
    rw [hfound] at hvalue
    cases hpayload : token.value with
    | int value => exact ⟨value, rfl⟩
    | none => simp [hpayload, Payload.spelled?] at hvalue
    | ident name => simp [hpayload, Payload.spelled?] at hvalue

end Token

theorem EndsOnce.concat {tokens : List Token} {last : Token}
    (h : ∀ token ∈ tokens, token.kind ≠ .endOfFile) (hlast : last.kind = .endOfFile) :
    EndsOnce (tokens ++ [last]) :=
  (endsOnce_concat_iff hlast).mpr h

/-! ## Tokens of a source -/

theorem exists_placed_of_mem {hash : String → UInt32} {names : Interner hash} {tokens : List Token}
    {lexemes : List PlacedLexeme} (h : tokens.map (Token.placed? names) = lexemes.map some)
    {token : Token} (htoken : token ∈ tokens) : 
    ∃ placed ∈ lexemes, token.placed? names = some placed := by
  have hmem : token.placed? names ∈ lexemes.map some := h ▸ List.mem_map_of_mem htoken
  obtain ⟨placed, hplaced, heq⟩ := List.mem_map.mp hmem
  exact ⟨placed, hplaced, heq.symm⟩

/-- Only lexemes with a value are interned. -/
theorem PlacedLexeme.length_texts_le (placed : List PlacedLexeme) :
    (texts placed).length ≤ placed.countP fun placed => placed.lexeme.value ≠ .none := by
  rw [texts, List.length_filterMap_eq_countP]
  refine List.countP_mono_left fun placed _ hsome => ?_
  cases hvalue : placed.lexeme.value <;> simp_all [Payload.text?]

/-- Tokens that a parser can read in a unit. -/
structure CompilationUnit.TokensFit {hash : Hasher} (u : CompilationUnit hash)
    (tokens : List Token) : Prop where
  ends : EndsOnce tokens
  carries : ∀ token ∈ tokens, token.Carries
  names : ∀ token ∈ tokens, ∀ name ∈ token.name?, u.Knows name

namespace CompilationUnit

variable {hash : Hasher} {constants : Constants} {u : CompilationUnit hash} {config : LayoutConfig}
  {source : SourceId} {tokens : List Token} {lexemes : List PlacedLexeme}

theorem tokensFit_of_placed (h : tokens.map (Token.placed? u.names) = lexemes.map some)
    (hfits : ∀ placed ∈ lexemes, placed.lexeme.Fits) (stop : Position) :
    u.TokensFit (tokens ++ [.endOfFile stop]) where
  ends := by
    refine .concat (fun token htoken => ?_) rfl
    obtain ⟨placed, hplaced, hspells⟩ := exists_placed_of_mem h htoken
    rw [(Token.placed?_eq_some_iff.mp hspells).2.1]
    exact (hfits placed hplaced).kind_ne
  carries := by
    refine List.forall_mem_append.mpr ⟨fun token htoken => ?_, ?_⟩
    · obtain ⟨placed, hplaced, hspells⟩ := exists_placed_of_mem h htoken
      exact Token.carries_of_fits hspells (hfits placed hplaced)
    · exact List.forall_mem_singleton.mpr ⟨nofun, nofun⟩
  names := by
    refine List.forall_mem_append.mpr ⟨fun token htoken name hname => ?_, ?_⟩
    · obtain ⟨placed, -, hspells⟩ := exists_placed_of_mem h htoken
      exact Token.name?_lt hspells hname
    · exact List.forall_mem_singleton.mpr nofun

/-- The tokens of a source that fits into a unit can be parsed in it. A token that stands for itself
leaves room for one more name. -/
theorem tokenizeSource_fits (h : u.Sound constants)
    (hcount : config.limits.maxFileChars < countMax)
    (hroom : u.names.size + config.limits.maxFileChars < 2 ^ 32)
    (hok : (u.tokenizeSource config source).1 = .ok tokens) :
    (u.tokenizeSource config source).2.TokensFit tokens ∧
      tokens.length ≤ config.limits.maxFileChars + 1 ∧
      ((∃ token ∈ tokens, token.kind ≠ .identifier ∧ token.kind ≠ .intLiteral ∧
        token.kind ≠ .endOfFile) →
        (u.tokenizeSource config source).2.names.size + 1 < 2 ^ 32) := by
  have hlength := Reading.length_lexemes_le_maxFileChars hcount (u.source source).content.bytes
  have hfits : ∀ placed ∈ (Reading.ofSource config (u.source source).content.bytes).lexemes,
      placed.lexeme.Fits := fun _ => Reading.fits_of_mem_lexemes
  have hsize : (u.tokenizeSource config source).2.names.size ≤ _ :=
    (size_tokenize config (u.source source).content.bytes u.names).2
  have htexts := PlacedLexeme.length_texts_le
    (Reading.ofSource config (u.source source).content.bytes).lexemes
  have hvalues := PlacedLexeme.length_texts_le_length
    (Reading.ofSource config (u.source source).content.bytes).lexemes
  have hbits : (u.tokenizeSource config source).2.names.size < 2 ^ 32 := by omega
  obtain ⟨-, spelled, hplaced, hanswer⟩ := tokenizeSource_collects h.names hbits
  obtain ⟨stop, -, rfl⟩ := Except.map_eq_ok_iff.mp (hanswer.symm.trans hok)
  generalize (Reading.ofSource config (u.source source).content.bytes).lexemes = lexemes at *
  have hcounted : spelled.length = lexemes.length := by simpa using congrArg List.length hplaced
  refine ⟨tokensFit_of_placed hplaced hfits stop, ?_, ?_⟩
  · rw [List.length_append, List.length_singleton, hcounted]
    exact Nat.succ_le_succ hlength
  · rintro ⟨token, htoken, hident, hint, hend⟩
    have hother : token ∈ spelled := by
      rcases List.mem_append.mp htoken with htoken | htoken
      · exact htoken
      · rw [List.mem_singleton.mp htoken] at hend
        exact absurd rfl hend
    obtain ⟨placed, hmem, hspells⟩ := exists_placed_of_mem hplaced hother
    obtain ⟨-, hkind, -⟩ := Token.placed?_eq_some_iff.mp hspells
    rw [hkind] at hident hint
    have hplain := (hfits placed hmem).plain hident hint
    have hfewer : (PlacedLexeme.texts lexemes).length < lexemes.length :=
      Nat.lt_of_le_of_lt htexts
        (List.countP_lt_length_iff.mpr ⟨placed, hmem, by simp [hplain]⟩)
    have hroom : u.names.size + (PlacedLexeme.texts lexemes).length + 1 < 2 ^ 32 := by omega
    exact Nat.lt_of_le_of_lt (Nat.succ_le_succ hsize) hroom

end CompilationUnit

/-! ## Names of derivations -/

variable {tokens : List Token} {header : HeaderSyntax} {statement : StatementSyntax}

theorem DerivesType.exists_base {type : TypeSyntax} (h : DerivesType tokens type) :
    ∃ token ∈ tokens, token.name? = some type.base := by
  induction h with
  | @name token name _ hvalue =>
      exact ⟨token, List.mem_singleton_self _, by simp [Token.name?, hvalue]⟩
  | function _ _ _ _ ih =>
      obtain ⟨token, htoken, hname⟩ := ih
      exact ⟨token, by simp [htoken], hname⟩

namespace CompilationUnit

variable {hash : Hasher} {u : CompilationUnit hash}

/-- The names that tokens derive are those of the tokens. -/
theorem TokensFit.knowsItem (hfit : u.TokensFit tokens) (h : DerivesItem tokens header statement) :
    u.KnowsItem header statement := by
  obtain ⟨@⟨start, word, opening, closing, arrow, name, typeTokens, type, hstart, hword, hname,
    hopening, hclosing, harrow, htype⟩, @⟨brace, back, valueTokens, value, hbrace, hreturn, hvalue⟩,
    hend⟩ := h
  have hnames := hfit.names
  constructor
  · exact hnames word (by simp) name (by simp [Token.name?, hname])
  · obtain ⟨token, htoken, hbase⟩ := htype.exists_base
    exact hnames token (by simp [htoken]) _ hbase
  · intro name hfound
    cases hvalue with
    | literal _ _ => cases hfound
    | type htype =>
        cases hfound
        obtain ⟨token, htoken, hbase⟩ := htype.exists_base
        exact hnames token (by simp [htoken]) _ hbase

end CompilationUnit

end FrontEnd
