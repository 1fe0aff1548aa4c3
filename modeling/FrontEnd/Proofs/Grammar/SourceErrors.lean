import FrontEnd.Proofs.Grammar.Prefixes
import FrontEnd.Proofs.Grammar.SourceTokens
import FrontEnd.Proofs.Lexical.Rendering

/-! # A source never has a malformed stream

The tokens of a source have the values that their kinds ask for, and end once. So what keeps them
from being parsed is always one of them that does not fit. -/

namespace FrontEnd

variable {hash : String → UInt32}

open LexicalGrammar

/-! ## Values of tokens -/

/-- A token has the value that its kind asks for, with texts that an interner has. -/
inductive Token.HasValue (names : Interner hash) : Token → Prop where
  | identifier {pos name text} : names.lookup name = .ok text → IsWordText text →
      (∀ k : Keyword, text ≠ k.spelling) → HasValue names ⟨.identifier, pos, .ident name⟩
  | small {pos value} : value ≤ IntegerValue.smallMax →
      HasValue names ⟨.intLiteral, pos, .int (.small value)⟩
  | oversized {pos name digits radix} : names.lookup name = .ok digits →
      IsOversized digits radix → HasValue names ⟨.intLiteral, pos, .int (.oversized name radix)⟩
  | plain {kind pos} : kind ≠ .identifier → kind ≠ .intLiteral → HasValue names ⟨kind, pos, .none⟩

variable {names : Interner hash} {token : Token} {placed : PlacedLexeme}

theorem Payload.spelled?_eq_none_iff {value : Payload Name} :
    value.spelled? names = some .none ↔ value = .none := by
  match value with
  | .none | .int (.small _) => simp [spelled?]
  | .int (.oversized _ _) | .ident _ => simp [spelled?]

theorem Payload.spelled?_eq_ident_iff {value : Payload Name} {text : String} :
    value.spelled? names = some (.ident text) ↔
      ∃ name, value = .ident name ∧ names.lookup name = .ok text := by
  match value with
  | .none | .int (.small _) => simp [spelled?]
  | .int (.oversized _ _) | .ident _ => simp [spelled?, Interner.lookup_eq_ok_iff]

theorem Payload.spelled?_eq_small_iff {value : Payload Name} {number : Nat} :
    value.spelled? names = some (.int (.small number)) ↔ value = .int (.small number) := by
  match value with
  | .none | .int (.small _) => simp [spelled?]
  | .int (.oversized _ _) | .ident _ => simp [spelled?]

theorem Payload.spelled?_eq_oversized_iff {value : Payload Name} {digits : String} {radix : Nat} :
    value.spelled? names = some (.int (.oversized digits radix)) ↔
      ∃ name, value = .int (.oversized name radix) ∧ names.lookup name = .ok digits := by
  match value with
  | .none | .int (.small _) => simp [spelled?]
  | .int (.oversized _ _) | .ident _ => simp [spelled?, Interner.lookup_eq_ok_iff, and_comm]

theorem Lexeme.Spellable.fits {lexeme : Lexeme} (h : lexeme.Spellable) : lexeme.Fits := by
  cases h <;> constructor <;> simp

/-- What a source can have as a lexeme has a token with a value of its kind. -/
theorem Token.hasValue_of_spellable (h : token.placed? names = some placed)
    (hspellable : placed.lexeme.Spellable) : token.HasValue names := by
  obtain ⟨-, hkind, hvalue⟩ := placed?_eq_some_iff.mp h
  obtain ⟨kind, pos, value⟩ := token
  generalize placed.lexeme = lexeme at *
  obtain rfl : kind = lexeme.kind := hkind
  cases hspellable with
  | symbol s =>
      obtain rfl := Payload.spelled?_eq_none_iff.mp hvalue
      exact .plain nofun nofun
  | keyword k =>
      obtain rfl := Payload.spelled?_eq_none_iff.mp hvalue
      exact .plain nofun nofun
  | identifier hword hkeyword =>
      obtain ⟨name, rfl, hname⟩ := Payload.spelled?_eq_ident_iff.mp hvalue
      exact .identifier hname hword hkeyword
  | small hsmall =>
      obtain rfl := Payload.spelled?_eq_small_iff.mp hvalue
      exact .small hsmall
  | oversized hoversized =>
      obtain ⟨name, rfl, hname⟩ := Payload.spelled?_eq_oversized_iff.mp hvalue
      exact .oversized hname hoversized

/-! ## Tokens of a source -/

namespace CompilationUnit

variable {hash : Hasher} {u : CompilationUnit hash} {config : LayoutConfig} {source : SourceId}
  {tokens : List Token}

/-- Tokens of a source spell what it decomposes into, and the end of the file. -/
theorem exists_decomposes_of_tokenizeSource (h : u.names.WellFormed)
    (hok : (u.tokenizeSource config source).1 = .ok tokens)
    (hroom : (u.tokenizeSource config source).2.names.size < 2 ^ 32) :
    ∃ placed : List PlacedLexeme, ∃ stop spelled, tokens = spelled ++ [.endOfFile stop] ∧
      spelled.map (Token.placed? (u.tokenizeSource config source).2.names) = placed.map some ∧
      Decomposes (Reading.body (u.source source).content.bytes)
        (placed.map fun placed => placed.lexeme) := by
  obtain ⟨-, spelled, hplaced, hanswer⟩ := tokenizeSource_collects h hroom
  obtain ⟨stop, hstop, rfl⟩ := Except.map_eq_ok_iff.mp (hanswer.symm.trans hok)
  exact ⟨_, stop, spelled, rfl, hplaced, Reading.decomposes_of_outcome hstop⟩

/-- The tokens of a source end once, spell what it decomposes into and have values of their kinds.
They are parsed, or one of them does not fit: the stream itself is never at fault. The numbers of
names have 32 bits. -/
theorem tokenizeSource_parse_unexpected (h : u.names.WellFormed)
    (hok : (u.tokenizeSource config source).1 = .ok tokens)
    (hroom : (u.tokenizeSource config source).2.names.size < 2 ^ 32) :
    let v := (u.tokenizeSource config source).2
    EndsOnce tokens ∧ (∀ token ∈ tokens, token.HasValue v.names) ∧
      (∃ lexemes, Decomposes (Reading.body (u.source source).content.bytes) lexemes ∧
        tokens.map (fun token => token.lexeme? v.names) =
          (lexemes ++ [Lexeme.endOfFile]).map some) ∧
      ((∃ item, (v.parse tokens).1 = .ok item) ∨
        ∃ token, (v.parse tokens).1 = .error (.unexpected token)) := by
  intro v
  obtain ⟨placed, stop, spelled, rfl, hplaced, hdecomposes⟩ :=
    exists_decomposes_of_tokenizeSource h hok hroom
  have hspellable : ∀ entry ∈ placed, entry.lexeme.Spellable := fun entry hentry =>
    hdecomposes.spellable _ (List.mem_map_of_mem hentry)
  have hfits : v.TokensFit (spelled ++ [.endOfFile stop]) :=
    tokensFit_of_placed hplaced (fun entry hentry => (hspellable entry hentry).fits) stop
  refine ⟨hfits.ends, ?_, ⟨_, hdecomposes, ?_⟩, ?_⟩
  · refine List.forall_mem_append.mpr ⟨fun token htoken => ?_, ?_⟩
    · obtain ⟨entry, hentry, hspells⟩ := exists_placed_of_mem hplaced htoken
      exact Token.hasValue_of_spellable hspells (hspellable entry hentry)
    · exact List.forall_mem_singleton.mpr (.plain nofun nofun)
  · have hlexemes := congrArg (List.map (Option.map fun placed => placed.lexeme)) hplaced
    rw [List.map_append, List.map_append]
    refine congrArg₂ _ ?_ rfl
    simpa [Token.lexeme?_eq_placed?, Function.comp_def] using hlexemes
  · cases hparse : (v.parse (spelled ++ [.endOfFile stop])).1 with
    | ok item => exact .inl ⟨item, rfl⟩
    | error e =>
        obtain ⟨s, hs, -⟩ := TokenStream.exists_ofTokens hfits.ends
        have hread := readItem_of_parse_eq_error hparse
        rw [← hs] at hread
        obtain ⟨before, stopped, construct, -, rfl, -⟩ :=
          readItem_strays ⟨hs ▸ hfits.ends, hs ▸ hfits.carries⟩ hread
        exact .inr ⟨_, rfl⟩

/-- A unit with the source `def x 0x40_00000000000000`. -/
def oversizedSource : CompilationUnit .constant :=
  ((new .constant).addSource "-"
    ([0x64, 0x65, 0x66, 0x20, 0x78, 0x20, 0x30, 0x78, 0x34, 0x30, 0x5F] ++
      List.replicate 14 0x30)).2

/-- The literal stands where parameters are expected, with its digits as the text of a name. -/
theorem oversizedSource_parse_unexpected :
    let v := (oversizedSource.tokenizeSource {} ⟨0⟩).2
    ∃ tokens, (oversizedSource.tokenizeSource {} ⟨0⟩).1 = .ok tokens ∧
      (∀ token ∈ tokens, token.HasValue v.names) ∧
      v.names.lookup ⟨2⟩ = .ok "4000000000000000" ∧
      (v.parse tokens).1 = .error (.unexpected ⟨.parameterList, .intLiteral, ⟨1, 7⟩⟩) := by
  intro v
  have hok : (oversizedSource.tokenizeSource {} ⟨0⟩).1 = .ok
      [⟨.keyword .def_, .start, .none⟩, ⟨.identifier, ⟨1, 5⟩, .ident ⟨1⟩⟩,
        ⟨.intLiteral, ⟨1, 7⟩, .int (.oversized ⟨2⟩ 16)⟩, .endOfFile ⟨1, 26⟩] := by
    decide +kernel
  have hnames : oversizedSource.names.WellFormed :=
    (Interner.empty_wellFormed.intern "<stdin>" (by decide)).wellFormed
  obtain ⟨-, hvalues, -, -⟩ := tokenizeSource_parse_unexpected hnames hok (by decide +kernel)
  exact ⟨_, hok, hvalues, by decide +kernel, by decide +kernel⟩

end CompilationUnit

end FrontEnd
