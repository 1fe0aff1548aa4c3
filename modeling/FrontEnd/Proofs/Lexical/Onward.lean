import FrontEnd.Proofs.Lexical.Readings

/-! # Readings from a place on

A source is read piece by piece, so a reading goes on behind a piece as it starts there. -/

namespace FrontEnd

open LexicalGrammar

namespace Reading

variable {config : LayoutConfig}

theorem layOut_done (l : Layout) (done : List PlacedLexeme) (pieces : List Piece) :
    layOut config l done pieces =
      (done.reverse ++ (layOut config l [] pieces).1, (layOut config l [] pieces).2) := by
  induction pieces generalizing l done with
  | nil => simp [layOut]
  | cons piece pieces ih =>
      rw [layOut, layOut]
      cases l.across config piece.text with
      | error e => simp
      | ok moved =>
          cases piece.lexeme? with
          | none => exact ih moved done
          | some lexeme =>
              dsimp only
              rw [ih moved (⟨l.pos, lexeme⟩ :: done), ih moved [⟨l.pos, lexeme⟩]]
              simp

/-- The reading of a source from a layout on. -/
def onward (config : LayoutConfig) (l : Layout) (bytes : List UInt8) : Reading :=
  let cut := Pieces.ofSource bytes
  let (lexemes, reached) := layOut config l [] cut.pieces
  ⟨lexemes, reached.bind fun l => finish config l cut.remaining cut.fault?⟩

/-- A reading starts behind the byte-order mark. -/
theorem ofSource_eq_onward (config : LayoutConfig) (source : List UInt8) :
    ofSource config source =
      match if byteOrderMark.isPrefixOf source then Layout.start.countInFile config
          else .ok .start with
      | .error e => ⟨[], .error e⟩
      | .ok l => onward config l (body source) := rfl

@[simp] theorem onward_nil (l : Layout) : onward config l [] = ⟨[], .ok l.pos⟩ := by
  simp [onward, layOut, finish, Except.bind]

theorem onward_of_error (l : Layout) {byte : UInt8} {rest : List UInt8} {fault : ReadFault}
    (h : PieceEnd.find byte rest = .error fault) :
    onward config l (byte :: rest) = ⟨[], finish config l (byte :: rest) (some fault)⟩ := by
  rw [onward, Pieces.ofSource_cons_of_error h]
  rfl

/-- A piece is laid out, and the reading goes on behind it. -/
theorem onward_piece (l : Layout) {text rest : List UInt8} {lexeme? : Option Lexeme}
    (h : IsPiece text rest lexeme?) :
    onward config l (text ++ rest) =
      match l.across config text with
      | .error e => ⟨[], .error e⟩
      | .ok moved =>
        ⟨(lexeme?.map (PlacedLexeme.mk l.pos)).toList ++ (onward config moved rest).lexemes,
          (onward config moved rest).outcome⟩ := by
  rw [onward, Pieces.ofSource_append h]
  simp only [Pieces.after, List.singleton_append, layOut]
  cases l.across config text with
  | error e => rfl
  | ok moved =>
      cases lexeme? with
      | none => rfl
      | some lexeme =>
          simp only [layOut_done moved [⟨l.pos, lexeme⟩]]
          rfl

/-! ## Texts before a place -/

/-- Where a text leads from the start of a source, without limits. -/
def layoutAfter (config : LayoutConfig) (source : List UInt8) (text : List Char) : Layout :=
  (first source).nextAll config (Move.ofText text)

/-- Lexemes where the text before each of them leads. -/
def placing (config : LayoutConfig) (first : Layout) (lexemes : List (List Char × Lexeme)) :
    List PlacedLexeme :=
  lexemes.map fun entry => ⟨(first.nextAll config (Move.ofText entry.1)).pos, entry.2⟩

/-- A reading that starts behind some lexemes. -/
def behind (done : List PlacedLexeme) (reading : Reading) : Reading :=
  ⟨done ++ reading.lexemes, reading.outcome⟩

/-- The tokens of a reading, ended by one that marks the end of the file. -/
def tokens {hash : String → UInt32} (names : Interner hash) (reading : Reading) :
    Except LexicalError (List Token) × Interner hash :=
  (reading.outcome.map fun stop =>
      (PlacedLexeme.internAll names reading.lexemes).1 ++ [.endOfFile stop],
    (PlacedLexeme.internAll names reading.lexemes).2)

theorem onward_of_across {l moved : Layout} {text rest : List UInt8} {lexeme? : Option Lexeme}
    (h : IsPiece text rest lexeme?) (hmoved : l.across config text = .ok moved) :
    onward config l (text ++ rest) =
      (onward config moved rest).behind (lexeme?.map (PlacedLexeme.mk l.pos)).toList := by
  rw [onward_piece l h, hmoved]
  rfl

/-- Where all moves over a text are made, a reading goes on behind the text. -/
theorem onward_of_decomposesBetween {after : List UInt8} {before text : List Char}
    {lexemes : List (List Char × Lexeme)} (h : DecomposesBetween after before text lexemes)
    (hbefore : Unsplit before text) {first l reached : Layout}
    (hl : l = first.nextAll config (Move.ofText before)) (hwithin : l.Within config)
    (hok : l.stepAll config (Move.ofText text) = .ok reached) :
    onward config l (encode text ++ after) =
      (onward config reached after).behind (placing config first lexemes) := by
  induction h using DecomposesBetween.induction generalizing l with
  | nil before =>
      obtain rfl := Except.ok.inj hok
      rfl
  | @piece before text lexemes lexeme? piece hpiece hrest ih =>
      obtain ⟨moved, hmoved, hfirst, hmovedWithin, hreached⟩ :=
        DecomposesBetween.moves_of_piece hpiece hbefore hl hwithin hok
      rw [← Layout.across_encode] at hmoved
      rw [encode_append, List.append_assoc, onward_of_across hpiece hmoved,
        ih (hpiece.unsplit_append before) hfirst hmovedWithin hreached]
      cases lexeme? with
      | none => rfl
      | some lexeme =>
          rw [hl]
          rfl

/-- Without limits, a source is read to any place in front of which its pieces end. -/
theorem ofSource_eq_behind (hlimits : config.limits = .unlimited) {source after : List UInt8}
    {before : List Char} {lexemes : List (List Char × Lexeme)}
    (hbody : body source = encode before ++ after)
    (hbefore : DecomposesBetween after [] before lexemes) :
    ofSource config source =
      (onward config (layoutAfter config source before) after).behind
        (placing config (first source) lexemes) := by
  have hwithin : (first source).Within config := by
    rw [first_within_iff, hlimits]
    exact fun _ => by decide
  have hreached := hwithin.stepAll_unlimited hlimits (Move.ofText before)
  rw [ofSource_eq_onward, start_eq_of_within hwithin, hbody]
  exact onward_of_decomposesBetween hbefore (.nil_left before) rfl hwithin hreached

end Reading

end FrontEnd
