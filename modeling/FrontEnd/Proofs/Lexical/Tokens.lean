import FrontEnd.Lexical.Tokens
import FrontEnd.Proofs.Lexical.Layout
import FrontEnd.Proofs.Lexical.Piece
import FrontEnd.Proofs.Interner

/-! # Tokens spell the lexemes of a source

Without limits on its layout, a source has tokens exactly if it decomposes. The tokens are then its
lexemes in order, with a mark of the end after them. -/

namespace FrontEnd

variable {hash : String → UInt32}

open LexicalGrammar

/-! ## Readings without limits -/

namespace Reading

/-- The lexemes of pieces that start at a position, each at its own. -/
def placed (config : LayoutConfig) (pos : Position) : List Piece → List PlacedLexeme
  | [] => []
  | piece :: rest =>
    (piece.lexeme?.map fun lexeme => ⟨pos, lexeme⟩).toList ++
      placed config (pos.across config piece.text) rest

/-- Where pieces end that start at a position. -/
def stopOf (config : LayoutConfig) (pos : Position) (pieces : List Piece) : Position :=
  pieces.foldl (fun pos piece => pos.across config piece.text) pos

theorem stopOf_cons (config : LayoutConfig) (pos : Position) (piece : Piece) (rest : List Piece) :
    stopOf config pos (piece :: rest) = stopOf config (pos.across config piece.text) rest := rfl

/-- What follows the last piece: the end of the source, or a fault. -/
def finishAt (config : LayoutConfig) (pos : Position) (remaining : List UInt8) :
    Option ReadFault → Except LexicalError Position
  | none => .ok pos
  | some fault =>
    match fault.anchor with
    | .pieceStart => .error ⟨fault.kind, pos⟩
    | .readEnd => .error ⟨fault.kind, pos.across config (remaining.take fault.read)⟩

theorem map_lexeme_placed (config : LayoutConfig) (pos : Position) (pieces : List Piece) :
    (placed config pos pieces).map (fun placed => placed.lexeme) =
      pieces.filterMap fun piece => piece.lexeme? := by
  induction pieces generalizing pos with
  | nil => rfl
  | cons piece pieces ih =>
      rw [placed, List.map_append, ih, List.filterMap_cons]
      cases piece.lexeme? <;> rfl

/-- The bytes that are cut into pieces. -/
def body (source : List UInt8) : List UInt8 :=
  if byteOrderMark.isPrefixOf source then source.drop byteOrderMark.length else source

theorem length_body_le (source : List UInt8) : (body source).length ≤ source.length := by
  unfold body
  split <;> simp

section Unlimited

variable {config : LayoutConfig} (hlimits : config.limits = .unlimited)

include hlimits

theorem layOut_eq (l : Layout) (done : List PlacedLexeme) (pieces : List Piece) :
    ∃ reached, layOut config l done pieces =
        (done.reverse ++ placed config l.pos pieces, .ok reached) ∧
      reached.pos = stopOf config l.pos pieces := by
  induction pieces generalizing l done with
  | nil => exact ⟨l, by simp [layOut, placed], rfl⟩
  | cons piece pieces ih =>
      obtain ⟨moved, hmoved, hpos⟩ := Layout.across_pos hlimits l piece.text
      rw [stopOf_cons]
      cases hkind : piece.lexeme? with
      | none => simpa [layOut, hmoved, hkind, placed, hpos] using ih moved done
      | some lexeme =>
          simpa [layOut, hmoved, hkind, placed, hpos] using ih moved (⟨l.pos, lexeme⟩ :: done)

theorem finish_eq (l : Layout) (remaining : List UInt8) (fault? : Option ReadFault) :
    finish config l remaining fault? = finishAt config l.pos remaining fault? := by
  cases fault? with
  | none => rfl
  | some fault =>
      obtain ⟨stop, hstop, hpos⟩ := Layout.across_pos hlimits l (remaining.take fault.read)
      cases hanchor : fault.anchor <;> simp [finish, finishAt, hstop, hanchor, hpos]

/-- A reading is that of the pieces, and fails only where they do. -/
theorem ofSource_eq (source : List UInt8) :
    ofSource config source =
      let cut := Pieces.ofSource (body source)
      ⟨placed config .start cut.pieces,
        finishAt config (stopOf config .start cut.pieces) cut.remaining cut.fault?⟩ := by
  obtain ⟨l, hstart, hpos⟩ : ∃ l, (if byteOrderMark.isPrefixOf source then
      Layout.start.countInFile config else .ok .start) = .ok l ∧ l.pos = .start := by
    split
    · exact ⟨_, Layout.countInFile_eq hlimits .start, rfl⟩
    · exact ⟨.start, rfl, rfl⟩
  obtain ⟨reached, hreached, hstop⟩ :=
    layOut_eq hlimits l [] (Pieces.ofSource (body source)).pieces
  rw [body] at hreached hstop
  rw [hpos] at hreached hstop
  simp only [ofSource, body, hstart, hreached, List.reverse_nil, List.nil_append, Except.bind,
    finish_eq hlimits, hstop]

theorem ofSource_spec (source : List UInt8) :
    ((∃ stop, (ofSource config source).outcome = .ok stop) ↔
      (Pieces.ofSource (body source)).fault? = none) ∧
    (ofSource config source).lexemes.map (fun placed => placed.lexeme) =
      (Pieces.ofSource (body source)).pieces.filterMap fun piece => piece.lexeme? := by
  rw [ofSource_eq hlimits]
  refine ⟨?_, map_lexeme_placed config .start _⟩
  cases hfault : (Pieces.ofSource (body source)).fault? with
  | none => simp [hfault, finishAt]
  | some fault => cases hanchor : fault.anchor <;> simp [hfault, finishAt, hanchor]

end Unlimited

end Reading

/-! ## The byte-order mark -/

theorem not_decomposes_byteOrderMark {rest : List UInt8} {lexemes : List Lexeme} :
    ¬ Decomposes (Reading.byteOrderMark ++ rest) lexemes := by
  have hsymbol : ∀ s : Symbol, s.bytes.head? ≠ some 0xEF := by
    intro s
    cases s <;> decide
  rw [Pieces.decomposes_iff]
  rintro ⟨hfault, -⟩
  change (Pieces.ofSource (0xEF :: ([0xBB, 0xBF] ++ rest))).fault? = none at hfault
  cases hfind : PieceEnd.find 0xEF ([0xBB, 0xBF] ++ rest) with
  | error fault =>
      rw [Pieces.ofSource_cons_of_error hfind] at hfault
      cases hfault
  | ok piece =>
      obtain ⟨s, bytes, hlongest, -⟩ := (PieceEnd.find_symbol_eq_ok_iff (by decide) (by decide)
        (by decide) (by simp [lineMark]) (by simp [opening])).mp hfind
      obtain ⟨rfl, ⟨after, hafter⟩, -⟩ := Symbol.longest?_eq_some_iff.mp hlongest
      obtain ⟨head, tail, hbytes, -⟩ := s.exists_bytes_eq_cons
      rw [hbytes] at hafter
      obtain ⟨rfl, -⟩ := List.cons.inj hafter
      exact hsymbol s (by rw [hbytes]; rfl)

theorem body_decomposes_iff {source : List UInt8} {lexemes : List Lexeme} :
    Decomposes (Reading.body source) lexemes ↔ ∃ body,
      (source = body ∨ source = Reading.byteOrderMark ++ body) ∧ Decomposes body lexemes := by
  constructor
  · intro h
    refine ⟨_, ?_, h⟩
    unfold Reading.body
    split
    · rename_i hmarked
      obtain ⟨rest, rfl⟩ := List.isPrefixOf_iff_prefix.mp hmarked
      exact .inr (by rw [List.drop_left])
    · exact .inl rfl
  · rintro ⟨body, rfl | rfl, hbody⟩
    · unfold Reading.body
      split
      · rename_i hmarked
        obtain ⟨rest, rfl⟩ := List.isPrefixOf_iff_prefix.mp hmarked
        exact absurd hbody not_decomposes_byteOrderMark
      · exact hbody
    · have hmarked : Reading.byteOrderMark.isPrefixOf (Reading.byteOrderMark ++ body) = true :=
        List.isPrefixOf_iff_prefix.mpr (List.prefix_append _ _)
      rw [Reading.body, if_pos hmarked, List.drop_left]
      exact hbody

/-! ## Tokens as lexemes -/

/-- The value of a token as a source spells it, if its names have texts. -/
def Payload.spelled? (names : Interner hash) : Payload Name → Option (Payload String)
  | .none => some .none
  | .int (.small value) => some (.int (.small value))
  | .int (.oversized digits radix) =>
    (names.text? digits).map fun text => .int (.oversized text radix)
  | .ident name => (names.text? name).map .ident

/-- What stands for the end of a source. -/
def Lexeme.endOfFile : Lexeme := ⟨.endOfFile, .none⟩

/-- The lexeme that a token stands for. -/
def Token.lexeme? (names : Interner hash) (token : Token) : Option Lexeme :=
  (token.value.spelled? names).map fun value => ⟨token.kind, value⟩

theorem Payload.spelled?_of_extends {names later : Interner hash} (h : names.Extends later)
    {value : Payload Name} {spelled : Payload String}
    (hvalue : value.spelled? names = some spelled) :
    value.spelled? later = some spelled := by
  match value with
  | .none => exact hvalue
  | .int (.small _) => exact hvalue
  | .int (.oversized digits radix) =>
      obtain ⟨text, htext, rfl⟩ := Option.map_eq_some_iff.mp hvalue
      simp [spelled?, h.text? htext]
  | .ident name =>
      obtain ⟨text, htext, rfl⟩ := Option.map_eq_some_iff.mp hvalue
      simp [spelled?, h.text? htext]

theorem Token.lexeme?_of_extends {names later : Interner hash} (h : names.Extends later)
    {token : Token} {lexeme : Lexeme} (htoken : token.lexeme? names = some lexeme) :
    token.lexeme? later = some lexeme := by
  obtain ⟨value, hvalue, rfl⟩ := Option.map_eq_some_iff.mp htoken
  simp [lexeme?, Payload.spelled?_of_extends h hvalue]

/-- A token as its lexeme at its position, if its names have texts. -/
def Token.placed? (names : Interner hash) (token : Token) : Option PlacedLexeme :=
  (token.lexeme? names).map fun lexeme => ⟨token.pos, lexeme⟩

theorem Token.lexeme?_eq_placed? (names : Interner hash) (token : Token) :
    token.lexeme? names = (token.placed? names).map fun placed => placed.lexeme := by
  simp [placed?, Function.comp_def]

theorem Token.placed?_of_extends {names later : Interner hash} (h : names.Extends later)
    {token : Token} {placed : PlacedLexeme} (htoken : token.placed? names = some placed) :
    token.placed? later = some placed := by
  obtain ⟨lexeme, hlexeme, rfl⟩ := Option.map_eq_some_iff.mp htoken
  simp [placed?, Token.lexeme?_of_extends h hlexeme]

/-- The text that the value of a lexeme is interned under. -/
def Payload.text? : Payload String → Option String
  | .ident text => some text
  | .int (.oversized digits _) => some digits
  | _ => Option.none

theorem Payload.size_intern (names : Interner hash) (value : Payload String) :
    names.size ≤ (value.intern names).2.size ∧
      (value.intern names).2.size ≤ names.size + value.text?.toList.length := by
  match value with
  | .none => exact ⟨Nat.le_refl _, Nat.le_refl _⟩
  | .int (.small _) => exact ⟨Nat.le_refl _, Nat.le_refl _⟩
  | .int (.oversized digits radix) => exact names.size_intern digits
  | .ident text => exact names.size_intern text

theorem Payload.intern_spec {names : Interner hash} (h : names.WellFormed) (value : Payload String)
    (hroom : (value.intern names).2.size < 2 ^ 32) :
    names.Collects value.text?.toList (value.intern names).2 ∧
      (value.intern names).1.spelled? (value.intern names).2 = some value := by
  match value with
  | .none => exact ⟨h.collects_nil, rfl⟩
  | .int (.small _) => exact ⟨h.collects_nil, rfl⟩
  | .int (.oversized digits radix) =>
      have hinterned := h.interned digits hroom
      exact ⟨hinterned.collects h, by simp [intern, spelled?, hinterned.text_eq]⟩
  | .ident text =>
      have hinterned := h.interned text hroom
      exact ⟨hinterned.collects h, by simp [intern, spelled?, hinterned.text_eq]⟩

namespace PlacedLexeme

/-- The texts that lexemes are interned under, in their order. -/
def texts (placed : List PlacedLexeme) : List String :=
  placed.filterMap fun placed => placed.lexeme.value.text?

theorem texts_cons (first : PlacedLexeme) (placed : List PlacedLexeme) :
    texts (first :: placed) = first.lexeme.value.text?.toList ++ texts placed := by
  rw [texts, List.filterMap_cons, texts]
  cases first.lexeme.value.text? <;> rfl

theorem length_texts_le_length (placed : List PlacedLexeme) :
    (texts placed).length ≤ placed.length := List.length_filterMap_le _ placed

theorem size_intern (names : Interner hash) (placed : PlacedLexeme) :
    names.size ≤ (placed.intern names).2.size ∧
      (placed.intern names).2.size ≤ names.size + placed.lexeme.value.text?.toList.length :=
  placed.lexeme.value.size_intern names

theorem intern_spec {names : Interner hash} (h : names.WellFormed) (placed : PlacedLexeme)
    (hroom : (placed.intern names).2.size < 2 ^ 32) :
    names.Collects placed.lexeme.value.text?.toList (placed.intern names).2 ∧
      (placed.intern names).1.placed? (placed.intern names).2 = some placed := by
  obtain ⟨hcollects, hspelled⟩ := placed.lexeme.value.intern_spec h hroom
  refine ⟨hcollects, ?_⟩
  simp [intern, Token.placed?, Token.lexeme?, hspelled]

theorem size_internOnto (names : Interner hash) (done : List Token) (placed : List PlacedLexeme) :
    names.size ≤ (internOnto names done placed).2.size ∧
      (internOnto names done placed).2.size ≤ names.size + (texts placed).length := by
  induction placed generalizing names done with
  | nil => exact ⟨Nat.le_refl _, Nat.le_refl _⟩
  | cons first placed ih =>
      have hfirst := first.size_intern names
      have hrest := ih (first.intern names).2 ((first.intern names).1 :: done)
      rw [internOnto, texts_cons, List.length_append]
      dsimp only
      omega

/-- Lexemes are interned in their order, and their tokens spell them. -/
theorem internOnto_collects {names : Interner hash} (h : names.WellFormed) (done : List Token)
    (placed : List PlacedLexeme) (hroom : (internOnto names done placed).2.size < 2 ^ 32) :
    ∃ tokens later, internOnto names done placed = (done.reverse ++ tokens, later) ∧
      names.Collects (texts placed) later ∧
      tokens.map (Token.placed? later) = placed.map some := by
  induction placed generalizing names done with
  | nil => exact ⟨[], names, by simp [internOnto], h.collects_nil, rfl⟩
  | cons first placed ih =>
      have hkept := (size_internOnto (first.intern names).2 ((first.intern names).1 :: done)
        placed).1
      rw [internOnto] at hroom
      obtain ⟨hcollects, hspelled⟩ := first.intern_spec h (Nat.lt_of_le_of_lt hkept hroom)
      obtain ⟨tokens, later, hrest, hlater, hmap⟩ :=
        ih hcollects.wellFormed ((first.intern names).1 :: done) hroom
      refine ⟨(first.intern names).1 :: tokens, later, ?_, ?_, ?_⟩
      · rw [internOnto]
        simpa using hrest
      · rw [texts_cons]
        exact hcollects.trans hlater
      · rw [List.map_cons, List.map_cons, hmap,
          Token.placed?_of_extends (hlater.extends hcollects.wellFormed) hspelled]

theorem internOnto_placed {names : Interner hash} (h : names.WellFormed) (done : List Token)
    (placed : List PlacedLexeme) (hroom : names.size + placed.length < 2 ^ 32) :
    ∃ tokens later, internOnto names done placed = (done.reverse ++ tokens, later) ∧
      later.WellFormed ∧ names.Extends later ∧
      tokens.map (Token.placed? later) = placed.map some := by
  have hsize := (size_internOnto names done placed).2
  have hlength := length_texts_le_length placed
  obtain ⟨tokens, later, hlater, hcollects, hmap⟩ :=
    internOnto_collects h done placed (by omega)
  exact ⟨tokens, later, hlater, hcollects.wellFormed, hcollects.extends h, hmap⟩

theorem internOnto_spec {names : Interner hash} (h : names.WellFormed) (done : List Token)
    (placed : List PlacedLexeme) (hroom : names.size + placed.length < 2 ^ 32) :
    ∃ tokens later, internOnto names done placed = (done.reverse ++ tokens, later) ∧
      later.WellFormed ∧ names.Extends later ∧
      tokens.map (fun token => token.lexeme? later) =
        placed.map fun placed => some placed.lexeme := by
  obtain ⟨tokens, later, hlater, hwellFormed, hextends, hmap⟩ :=
    internOnto_placed h done placed hroom
  have hlexemes := congrArg (List.map (Option.map fun placed => placed.lexeme)) hmap
  refine ⟨tokens, later, hlater, hwellFormed, hextends, ?_⟩
  simpa [Token.lexeme?_eq_placed?, Function.comp_def] using hlexemes

end PlacedLexeme

/-! ## Tokens of a source -/

theorem length_le_of_decomposes {source : List UInt8} {lexemes : List Lexeme}
    (h : Decomposes source lexemes) : lexemes.length ≤ source.length := by
  induction h with
  | nil => exact Nat.le_refl 0
  | trivia _ _ ih =>
      rw [List.length_append]
      omega
  | @lexeme text after lexeme lexemes hlexeme _ ih =>
      have hpiece : IsPiece text after (some lexeme) := hlexeme
      have hpos := List.length_pos_iff.mpr (ne_nil_of_isPiece hpiece)
      rw [List.length_append, List.length_cons]
      omega

namespace Reading

theorem length_layOut_le (config : LayoutConfig) (l : Layout) (done : List PlacedLexeme)
    (pieces : List Piece) :
    (layOut config l done pieces).1.length ≤ done.length + pieces.length := by
  induction pieces generalizing l done with
  | nil => simp [layOut]
  | cons piece pieces ih =>
      rw [layOut]
      split
      · simp
      · split
        · exact Nat.le_trans (ih _ done) (by simp)
        · refine Nat.le_trans (ih _ _) ?_
          simp only [List.length_cons]
          omega

/-- There are no more lexemes than bytes, wherever a limit ends them. -/
theorem length_lexemes_le (config : LayoutConfig) (source : List UInt8) :
    (ofSource config source).lexemes.length ≤ source.length := by
  have hbody := length_body_le source
  simp only [ofSource]
  cases (if byteOrderMark.isPrefixOf source = true then Layout.start.countInFile config
      else .ok .start) with
  | error e => exact Nat.zero_le _
  | ok l =>
      have hlexemes := length_layOut_le config l [] (Pieces.ofSource (body source)).pieces
      rw [List.length_nil, Nat.zero_add] at hlexemes
      exact hlexemes.trans ((Pieces.length_pieces_le _).trans hbody)

end Reading

theorem tokenize_eq (config : LayoutConfig) (source : List UInt8) (names : Interner hash) :
    tokenize config source names =
      ((Reading.ofSource config source).outcome.map fun stop =>
          (PlacedLexeme.internAll names (Reading.ofSource config source).lexemes).1 ++
            [.endOfFile stop],
        (PlacedLexeme.internAll names (Reading.ofSource config source).lexemes).2) := by
  simp only [tokenize]
  cases (Reading.ofSource config source).outcome <;> rfl

theorem size_tokenize (config : LayoutConfig) (source : List UInt8) (names : Interner hash) :
    names.size ≤ (tokenize config source names).2.size ∧
      (tokenize config source names).2.size ≤
        names.size + (PlacedLexeme.texts (Reading.ofSource config source).lexemes).length := by
  rw [tokenize_eq]
  exact PlacedLexeme.size_internOnto names [] _

/-- The lexemes of a source are interned up to its end or its error. Tokens spell them. -/
theorem tokenize_collects {names : Interner hash} (h : names.WellFormed) {config : LayoutConfig}
    {source : List UInt8} (hroom : (tokenize config source names).2.size < 2 ^ 32) :
    names.Collects (PlacedLexeme.texts (Reading.ofSource config source).lexemes)
        (tokenize config source names).2 ∧
      ∃ tokens, tokens.map (Token.placed? (tokenize config source names).2) =
          (Reading.ofSource config source).lexemes.map some ∧
        (tokenize config source names).1 =
          (Reading.ofSource config source).outcome.map fun stop => tokens ++ [.endOfFile stop] := by
  rw [tokenize_eq] at hroom ⊢
  obtain ⟨tokens, later, hintern, hcollects, hplaced⟩ :=
    PlacedLexeme.internOnto_collects h [] (Reading.ofSource config source).lexemes hroom
  have hall : PlacedLexeme.internAll names (Reading.ofSource config source).lexemes =
      (tokens, later) := hintern
  rw [hall]
  exact ⟨hcollects, tokens, hplaced, rfl⟩

/-- Tokens keep the names of before, also those that end in an error. -/
theorem tokenize_names_spec {names : Interner hash} (h : names.WellFormed) (config : LayoutConfig)
    {source : List UInt8}
    (hroom : names.size + (Reading.ofSource config source).lexemes.length < 2 ^ 32) :
    (tokenize config source names).2.WellFormed ∧
      names.Extends (tokenize config source names).2 := by
  have hsize := (size_tokenize config source names).2
  have hlength := PlacedLexeme.length_texts_le_length (Reading.ofSource config source).lexemes
  have hlater : (tokenize config source names).2.size < 2 ^ 32 := by omega
  obtain ⟨hcollects, -⟩ := tokenize_collects h hlater
  exact ⟨hcollects.wellFormed, hcollects.extends h⟩

theorem exists_tokenize_ok_iff (config : LayoutConfig) (source : List UInt8)
    (names : Interner hash) :
    (∃ tokens, (tokenize config source names).1 = .ok tokens) ↔
      ∃ stop, (Reading.ofSource config source).outcome = .ok stop := by
  rw [tokenize_eq]
  cases (Reading.ofSource config source).outcome <;> simp [Except.map]

theorem tokenize_eq_error_iff {config : LayoutConfig} {source : List UInt8} {names : Interner hash}
    {e : LexicalError} :
    (tokenize config source names).1 = .error e ↔
      (Reading.ofSource config source).outcome = .error e := by
  rw [tokenize_eq]
  cases (Reading.ofSource config source).outcome <;> simp [Except.map]

/-- A source has tokens exactly if it decomposes, after a byte-order mark that it may start with.
The tokens are its lexemes in order and then the end of the file. -/
theorem tokenize_ok_iff_decomposes {config : LayoutConfig} (hlimits : config.limits = .unlimited)
    {source : List UInt8} {names : Interner hash} (hnames : names.WellFormed)
    (hroom : names.size + source.length < 2 ^ 32) :
    ((∃ tokens, (tokenize config source names).1 = .ok tokens) ↔
      ∃ body lexemes, (source = body ∨ source = Reading.byteOrderMark ++ body) ∧
        Decomposes body lexemes) ∧
    ∀ tokens body lexemes, (tokenize config source names).1 = .ok tokens →
      (source = body ∨ source = Reading.byteOrderMark ++ body) → Decomposes body lexemes →
      tokens.map (fun token => token.lexeme? (tokenize config source names).2) =
        (lexemes ++ [Lexeme.endOfFile]).map some := by
  obtain ⟨houtcome, hlexemes⟩ := Reading.ofSource_spec hlimits source
  constructor
  · rw [exists_tokenize_ok_iff, houtcome]
    constructor
    · intro hfault
      obtain ⟨body, hsource, hbody⟩ :=
        body_decomposes_iff.mp (Pieces.decomposes_of_ofSource hfault)
      exact ⟨body, _, hsource, hbody⟩
    · rintro ⟨body, lexemes, hsource, hbody⟩
      exact (Pieces.decomposes_iff.mp (body_decomposes_iff.mpr ⟨body, hsource, hbody⟩)).1
  · intro tokens body lexemes hok hsource hbody
    have hcut := Pieces.decomposes_iff.mp (body_decomposes_iff.mpr ⟨body, hsource, hbody⟩)
    rw [hcut.2] at hlexemes
    have hlength : (Reading.ofSource config source).lexemes.length ≤ source.length := by
      have hcount := congrArg List.length hlexemes
      have hmost := length_le_of_decomposes hbody
      rw [List.length_map] at hcount
      rcases hsource with rfl | rfl
      · omega
      · rw [List.length_append]
        omega
    obtain ⟨interned, later, hintern, -, -, hmap⟩ :=
      PlacedLexeme.internOnto_spec hnames [] (Reading.ofSource config source).lexemes (by omega)
    have hall : PlacedLexeme.internAll names (Reading.ofSource config source).lexemes =
        (interned, later) := hintern
    rw [tokenize_eq, hall] at hok ⊢
    cases hstop : (Reading.ofSource config source).outcome with
    | error e =>
        rw [hstop] at hok
        cases hok
    | ok stop =>
        rw [hstop] at hok
        cases hok
        have hspelled : interned.map (fun token => token.lexeme? later) = lexemes.map some := by
          rw [hmap, ← hlexemes, List.map_map]
          rfl
        rw [List.map_append, List.map_append, hspelled]
        rfl

theorem tokenize_marked_comment_identifier :
    ∃ tokens,
      (tokenize ⟨8, .unlimited⟩ [0xEF, 0xBB, 0xBF, 0x2F, 0x2A, 0x2A, 0x2F, 0x78] .noNames).1 =
        .ok tokens ∧
      tokens.map (fun token => token.lexeme? (tokenize ⟨8, .unlimited⟩
        [0xEF, 0xBB, 0xBF, 0x2F, 0x2A, 0x2A, 0x2F, 0x78] .noNames).2) =
        [some ⟨.identifier, .ident "x"⟩, some .endOfFile] := by
  have hcomment : IsTrivia [0x2F, 0x2A, 0x2A, 0x2F] [0x78] := .blockComment _ .close
  have hword : IsLexeme [0x78] [] ⟨.identifier, .ident "x"⟩ :=
    .identifier rfl (.inl (by decide)) ⟨by simp [inWord_iff, isWordByte, isWordStart], by simp⟩
      (fun k => by cases k <;> decide)
  have hbody : Decomposes [0x2F, 0x2A, 0x2A, 0x2F, 0x78] [⟨.identifier, .ident "x"⟩] :=
    .trivia hcomment (.lexeme hword .nil)
  have hlimits : (⟨8, .unlimited⟩ : LayoutConfig).limits = .unlimited := rfl
  have hroom : Interner.noNames.size +
      (Reading.byteOrderMark ++ [0x2F, 0x2A, 0x2A, 0x2F, 0x78]).length < 2 ^ 32 := by
    decide
  have hspec := tokenize_ok_iff_decomposes hlimits Interner.noNames_wellFormed hroom
  obtain ⟨tokens, htokens⟩ := hspec.1.mpr ⟨_, _, .inr rfl, hbody⟩
  exact ⟨tokens, htokens, hspec.2 tokens _ _ htokens (.inr rfl) hbody⟩

end FrontEnd
