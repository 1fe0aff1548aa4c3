import FrontEnd.Proofs.CompilationUnit.Naming
import FrontEnd.Proofs.Grammar.SourceTokens
import FrontEnd.Proofs.Lexical.Onward

/-! # What the tokens of a source intern

Reading a source adds the texts of its identifiers and of its oversized literals to the names, each
where it is met first. An error ends this where it ends the tokens. -/

namespace FrontEnd

variable {hash : String → UInt32}

open LexicalGrammar

/-! ## Texts that are added -/

/-- The texts that an interner lacks, each where it is met first. -/
def Interner.missing (names : Interner hash) (texts : List String) : List String :=
  (texts.filter fun text => text ∉ names.toList).eraseDups

theorem Interner.Collects.toList_eq_append {names after : Interner hash} {texts : List String}
    (h : names.WellFormed) (hafter : names.Collects texts after) :
    after.toList = names.toList ++ names.missing texts := by
  rw [hafter.toList_eq, List.eraseDups_append, Interner.eraseDups_of_nodup h.nodup, missing,
    List.removeAll]
  simp

/-- The tokens with a name are the identifiers and the oversized literals. -/
theorem Token.name?_isSome_iff {names : Interner hash} {token : Token} {placed : PlacedLexeme}
    (h : token.placed? names = some placed) (hfits : placed.lexeme.Fits) :
    token.name?.isSome = true ↔ token.kind = .identifier ∨
      token.kind = .intLiteral ∧ ∃ digits radix, token.value = .int (.oversized digits radix) := by
  have hkind := (Token.placed?_eq_some_iff.mp h).2.1
  have hcarries := Token.carries_of_fits h hfits
  have hplain : token.kind ≠ .identifier → token.kind ≠ .intLiteral → token.value = .none := by
    intro hident hint
    have hvalue := (Token.placed?_eq_some_iff.mp h).2.2
    rw [hfits.plain (hkind ▸ hident) (hkind ▸ hint)] at hvalue
    match hpayload : token.value with
    | .none => rfl
    | .ident name => simp [hpayload, Payload.spelled?] at hvalue
    | .int (.small value) => simp [hpayload, Payload.spelled?] at hvalue
    | .int (.oversized digits radix) => simp [hpayload, Payload.spelled?] at hvalue
  by_cases hident : token.kind = .identifier
  · obtain ⟨name, hname⟩ := hcarries.ident hident
    simp [Token.name?, hname, hident]
  by_cases hint : token.kind = .intLiteral
  · obtain ⟨value, hvalue⟩ := hcarries.int hint
    cases value <;> simp [Token.name?, hvalue, hint]
  · simp [Token.name?, hplain hident hint, hident, hint]

/-! ## Errors -/

namespace Reading

variable {config : LayoutConfig}

/-- The one piece that starts at a place ends in an error: it is malformed or beyond a limit. -/
def FailsInPiece (config : LayoutConfig) (l : Layout) (e : LexicalError) : List UInt8 → Prop
  | [] => False
  | byte :: rest =>
    match PieceEnd.find byte rest with
    | .ok piece => l.across config ((byte :: rest).take piece.length) = .error e
    | .error fault => finish config l (byte :: rest) (some fault) = .error e

theorem failsInPiece_of_isPiece {l : Layout} {e : LexicalError} {text rest : List UInt8}
    {lexeme? : Option Lexeme} (hpiece : IsPiece text rest lexeme?)
    (h : l.across config text = .error e) : FailsInPiece config l e (text ++ rest) := by
  obtain ⟨byte, tail, rfl⟩ := List.exists_cons_of_ne_nil (ne_nil_of_isPiece hpiece)
  have hfind := (PieceEnd.find_eq_ok_iff (List.cons_append ..).symm).mpr hpiece
  rw [List.cons_append, FailsInPiece, hfind]
  change l.across config ((byte :: tail ++ rest).take (byte :: tail).length) = .error e
  rwa [List.take_left]

/-- A reading that ends in an error has the lexemes of the pieces that end before. -/
theorem exists_failsInPiece (l : Layout) (before : List Char) (bytes : List UInt8)
    {e : LexicalError} (h : (onward config l bytes).outcome = .error e) :
    ∃ text after lexemes moved, bytes = encode text ++ after ∧
      DecomposesBetween after before text lexemes ∧
      l.stepAll config (Move.ofText text) = .ok moved ∧ FailsInPiece config moved e after ∧
      (onward config l bytes).lexemes.map (fun placed => placed.lexeme) = lexemes.map Prod.snd := by
  induction bytes using Pieces.induction generalizing l before with
  | nil =>
      rw [onward_nil] at h
      cases h
  | fault byte rest fault hfind =>
      rw [onward_of_error l hfind] at h ⊢
      refine ⟨[], byte :: rest, [], l, rfl, .nil before, rfl, ?_, rfl⟩
      rw [FailsInPiece, hfind]
      exact h
  | piece text rest lexeme? hpiece ih =>
      obtain ⟨piece, rfl⟩ := hpiece.exists_encode
      rw [onward_piece l hpiece] at h ⊢
      cases hacross : l.across config (encode piece) with
      | error fault =>
          rw [hacross] at h
          obtain rfl := Except.error.inj h
          exact ⟨[], encode piece ++ rest, [], l, rfl, .nil before, rfl,
            failsInPiece_of_isPiece hpiece hacross, rfl⟩
      | ok moved =>
          rw [hacross] at h
          obtain ⟨text, after, lexemes, reached, rfl, hdecomposes, hreached, hfails, hlexemes⟩ :=
            ih moved (before ++ piece) h
          refine ⟨piece ++ text, after, _, reached, ?_, .piece piece hpiece hdecomposes, ?_, hfails,
            ?_⟩
          · rw [encode_append, List.append_assoc]
          · rw [Move.ofText_append hpiece.unsplit, Layout.stepAll_append, ← Layout.across_encode,
              hacross]
            exact hreached
          · rw [List.map_append, List.map_append, ← hlexemes]
            cases lexeme? <;> rfl

/-- A source that has an error is read up to the piece that it is met in, or not at all. -/
theorem exists_failsInPiece_of_outcome {source : List UInt8} {e : LexicalError}
    (h : (ofSource config source).outcome = .error e) :
    (¬ (first source).Within config ∧ (ofSource config source).lexemes = []) ∨
      ∃ text after lexemes l, body source = encode text ++ after ∧
        DecomposesBetween after [] text lexemes ∧
        (first source).stepAll config (Move.ofText text) = .ok l ∧ FailsInPiece config l e after ∧
        (ofSource config source).lexemes.map (fun placed => placed.lexeme) =
          lexemes.map Prod.snd := by
  by_cases hwithin : (first source).Within config
  · have hread : ofSource config source = onward config (first source) (body source) := by
      rw [ofSource_eq_onward, start_eq_of_within hwithin]
    rw [hread] at h ⊢
    exact .inr (exists_failsInPiece (first source) [] (body source) h)
  · refine .inl ⟨hwithin, ?_⟩
    rw [first_within_iff, Classical.not_imp, not_le] at hwithin
    have hstart : Layout.start.countInFile config = .error ⟨.tooManyCharactersInFile, .start⟩ :=
      if_pos hwithin.2
    rw [ofSource_eq_onward, if_pos hwithin.1, hstart]

end Reading

/-! ## Sources -/

theorem PlacedLexeme.texts_eq {placed : List PlacedLexeme} {lexemes : List (List Char × Lexeme)}
    (h : placed.map (fun placed => placed.lexeme) = lexemes.map Prod.snd) :
    texts placed = lexemes.filterMap fun entry => entry.2.value.text? := by
  have hmap := congrArg (List.filterMap fun lexeme : Lexeme => lexeme.value.text?) h
  rwa [List.filterMap_map, List.filterMap_map] at hmap

/-- Reading a source appends to the names the texts that they lack, each where it is met first.
They are those of the returned tokens with a name, which are the identifiers and the oversized
literals. Where the source has an error, they are those of the lexemes before the piece that the
error is met in, or none if the byte-order mark is beyond a limit. Earlier names keep their
texts. -/
theorem tokenize_interns {names : Interner hash} (h : names.WellFormed) {config : LayoutConfig}
    {source : List UInt8} (hroom : (tokenize config source names).2.size < 2 ^ 32) :
    (∀ tokens, (tokenize config source names).1 = .ok tokens → ∃ texts : List String,
      (tokens.filterMap Token.name?).map (tokenize config source names).2.text? =
        texts.map some ∧
      (tokenize config source names).2.toList = names.toList ++ names.missing texts ∧
      ∀ token ∈ tokens, token.name?.isSome = true ↔ token.kind = .identifier ∨
        token.kind = .intLiteral ∧ ∃ digits radix, token.value = .int (.oversized digits radix)) ∧
    (∀ e, (tokenize config source names).1 = .error e →
      (¬ (Reading.first source).Within config ∧ (tokenize config source names).2 = names) ∨
      ∃ text after lexemes l, Reading.body source = encode text ++ after ∧
        DecomposesBetween after [] text lexemes ∧
        (Reading.first source).stepAll config (Move.ofText text) = .ok l ∧
        Reading.FailsInPiece config l e after ∧
        (tokenize config source names).2.toList = names.toList ++
          names.missing (lexemes.filterMap fun entry => entry.2.value.text?)) ∧
    (tokenize config source names).2.toList.Nodup ∧
    ∀ name text, names.text? name = some text →
      (tokenize config source names).2.text? name = some text := by
  obtain ⟨hcollects, spelled, hplaced, houtcome⟩ := tokenize_collects h hroom
  have hlist := hcollects.toList_eq_append h
  refine ⟨fun tokens hok => ?_, fun e he => ?_, hcollects.wellFormed.nodup,
    fun name text => (hcollects.extends h).text?⟩
  · obtain ⟨stop, hstop⟩ := (exists_tokenize_ok_iff config source names).mp ⟨tokens, hok⟩
    rw [houtcome, hstop] at hok
    obtain rfl := Except.ok.inj hok
    have hend : [Token.endOfFile stop].filterMap Token.name? = [] := rfl
    refine ⟨_, ?_, hlist, ?_⟩
    · rw [List.filterMap_append, hend, List.append_nil]
      exact map_text?_names hplaced
    · refine List.forall_mem_append.mpr ⟨fun token htoken => ?_, ?_⟩
      · obtain ⟨placed, hmem, hspells⟩ := exists_placed_of_mem hplaced htoken
        exact Token.name?_isSome_iff hspells (Reading.fits_of_mem_lexemes hmem)
      · simp [Token.name?, Token.endOfFile]
  · rcases Reading.exists_failsInPiece_of_outcome (tokenize_eq_error_iff.mp he) with
      ⟨hwithin, hnone⟩ |
      ⟨text, after, lexemes, l, hbody, hdecomposes, hreached, hfails, hlexemes⟩
    · refine .inl ⟨hwithin, ?_⟩
      rw [tokenize_eq, hnone]
      rfl
    · refine .inr ⟨text, after, lexemes, l, hbody, hdecomposes, hreached, hfails, ?_⟩
      rw [hlist, PlacedLexeme.texts_eq hlexemes]

theorem tokenize_interns_error :
    let names := (Interner.noNames.intern "f").2
    let source := encode "x f 9223372036854775808 let x $ y".toList
    names.WellFormed ∧ (tokenize {} source names).2.size < 2 ^ 32 ∧
      (tokenize {} source names).2.toList = ["f", "x", "9223372036854775808"] ∧
      ∃ text after lexemes l, Reading.body source = encode text ++ after ∧
        DecomposesBetween after [] text lexemes ∧
        (Reading.first source).stepAll {} (Move.ofText text) = .ok l ∧
        Reading.FailsInPiece {} l ⟨.unexpectedCharacter 0x24, ⟨1, 31⟩⟩ after ∧
        (tokenize {} source names).2.toList = names.toList ++
          names.missing (lexemes.filterMap fun entry => entry.2.value.text?) := by
  intro names source
  have hnames : names.WellFormed := (Interner.noNames_wellFormed.intern "f" (by decide)).wellFormed
  have hroom : (tokenize {} source names).2.size < 2 ^ 32 := by decide +kernel
  have herror : (tokenize {} source names).1 =
      .error ⟨.unexpectedCharacter 0x24, ⟨1, 31⟩⟩ := by decide +kernel
  have hwithin : (Reading.first source).Within {} :=
    Reading.first_within_iff.mpr fun _ => by decide
  refine ⟨hnames, hroom, by decide +kernel, ?_⟩
  exact ((tokenize_interns hnames hroom).2.1 _ herror).resolve_left fun hnone => hnone.1 hwithin

end FrontEnd
