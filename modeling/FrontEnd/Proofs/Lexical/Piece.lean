import FrontEnd.Proofs.Lexical.Comment
import FrontEnd.Proofs.Lexical.Lexeme
import FrontEnd.Proofs.Lexical.Literal

/-! # Pieces are found as the grammar has them

A reader takes exactly the piece that stands at its place, and so cuts a source exactly if the
source decomposes. -/

namespace FrontEnd

open LexicalGrammar

/-- What the reader takes for one piece. It never stops inside of a line end of two bytes. -/
def IsPiece (text after : List UInt8) : Option Lexeme → Prop
  | none => IsTrivia text after ∧ ¬ (text = [0x0D] ∧ after.head? = some 0x0A)
  | some lexeme => IsLexeme text after lexeme

/-! ## First bytes -/

theorem isDigit_of_isLiteral {word : List UInt8} {value : IntegerValue String}
    (h : IsLiteral word value) : ∃ head tail, word = head :: tail ∧ Number.isDigit head = true := by
  cases h with
  | zero => exact ⟨0x30, [], rfl, rfl⟩
  | hexadecimal _ _ => exact ⟨0x30, _, rfl, rfl⟩
  | binary _ _ => exact ⟨0x30, _, rfl, rfl⟩
  | decimal hdigits _ =>
      cases word with
      | nil => cases hdigits
      | cons head tail =>
          obtain ⟨value, -, -, -, -, hdigit, -⟩ := Number.isDigits_cons_iff.mp hdigits
          obtain ⟨hvalue, hcases⟩ :=
            (Number.digit?_eq_some _ _ _).mp (Number.digit?_eq_some_iff.mpr hdigit)
          exact ⟨head, tail, rfl, (Number.isDigit_iff head).mpr (by omega)⟩

/-- No word starts like a blank, a line end or a comment. -/
theorem not_isWordByte_mark {byte : UInt8}
    (h : byte = 0x20 ∨ byte = 0x09 ∨ byte = 0x0A ∨ byte = 0x0D ∨ byte = 0x2F) :
    isWordByte byte = false := by
  rcases h with rfl | rfl | rfl | rfl | rfl <;> decide

theorem not_isWordStart_of_isDigit {byte : UInt8} (h : Number.isDigit byte = true) :
    isWordStart byte = false := by
  have hbyte := (Number.isDigit_iff byte).mp h
  simp only [isWordStart, Bool.or_eq_false_iff, Bool.and_eq_false_iff, decide_eq_false_iff_not,
    UInt8.le_iff_toNat_le, UInt8.reduceToNat, ← UInt8.toNat_inj]
  omega

/-- Every symbol has a first byte, which starts no other kind of piece. -/
theorem Symbol.exists_bytes_eq_cons (s : Symbol) : ∃ head tail, s.bytes = head :: tail ∧
    isWordByte head = false ∧ head ≠ 0x20 ∧ head ≠ 0x09 ∧ head ≠ 0x0A ∧ head ≠ 0x0D := by
  cases s <;> exact ⟨_, _, rfl, by decide⟩

/-! ## Readers of each kind of piece -/

namespace PieceEnd

variable {byte : UInt8} {rest : List UInt8}

theorem find_blank (h : byte = 0x20 ∨ byte = 0x09 ∨ byte = 0x0A) :
    find byte rest = .ok (.blank 1) := by
  rw [find, if_pos h]

theorem find_carriageReturn :
    find 0x0D rest = .ok (.blank (if rest.head? = some 0x0A then 2 else 1)) := by
  rw [find, if_neg (by decide), if_pos rfl]

theorem find_lineComment (tail : List UInt8) :
    find 0x2F (0x2F :: tail) = (Comment.lineEnd 2 tail).map .blank := by
  rw [find, if_neg (by decide), if_neg (by decide), if_pos ⟨rfl, rfl⟩, List.tail_cons]

theorem find_blockComment (tail : List UInt8) :
    find 0x2F (0x2A :: tail) = (Comment.blockEnd 0 2 tail).map .blank := by
  rw [find, if_neg (by decide), if_neg (by decide), if_neg (by simp), if_pos ⟨rfl, rfl⟩,
    List.tail_cons]

theorem find_word (h : isWordStart byte = true) :
    find byte rest = .ok ⟨(byte :: rest.takeWhile isWordByte).length,
      some (.ofWord (asText (byte :: rest.takeWhile isWordByte)))⟩ := by
  have hword : isWordByte byte = true := by
    rw [isWordByte, h, Bool.true_or]
  have hmark : ∀ mark, mark = 0x20 ∨ mark = 0x09 ∨ mark = 0x0A ∨ mark = 0x0D ∨ mark = 0x2F →
      byte ≠ mark := by
    rintro mark hmark rfl
    rw [not_isWordByte_mark hmark] at hword
    cases hword
  rw [find, if_neg (by simp [hmark]), if_neg (by simp [hmark]), if_neg (by simp [hmark]),
    if_neg (by simp [hmark]), if_pos h]
  rfl

theorem find_number (h : Number.isDigit byte = true) :
    find byte rest = (Number.read (byte :: rest.takeWhile isWordByte)).map fun value =>
      ⟨(byte :: rest.takeWhile isWordByte).length, some (.ofInt value)⟩ := by
  have hword : isWordByte byte = true := by
    rw [isWordByte, h, Bool.or_true]
  have hmark : ∀ mark, mark = 0x20 ∨ mark = 0x09 ∨ mark = 0x0A ∨ mark = 0x0D ∨ mark = 0x2F →
      byte ≠ mark := by
    rintro mark hmark rfl
    rw [not_isWordByte_mark hmark] at hword
    cases hword
  rw [find, if_neg (by simp [hmark]), if_neg (by simp [hmark]), if_neg (by simp [hmark]),
    if_neg (by simp [hmark]), if_neg (by simp [not_isWordStart_of_isDigit h]), if_pos h]

/-- A mark of two bytes that starts a source, and its bytes. -/
theorem mark_prefix_iff {first second : UInt8} :
    [first, second] <+: byte :: rest ↔ byte = first ∧ rest.head? = some second := by
  cases rest with
  | nil => simp [List.cons_prefix_cons]
  | cons next tail => simp [List.cons_prefix_cons, eq_comm]

theorem find_symbol (hword : isWordByte byte = false)
    (hblank : ¬ (byte = 0x20 ∨ byte = 0x09 ∨ byte = 0x0A)) (hreturn : byte ≠ 0x0D)
    (hline : ¬ lineMark <+: byte :: rest) (hblock : ¬ opening <+: byte :: rest) :
    find byte rest =
      match Symbol.longest? (byte :: rest) with
      | some (s, bytes) => .ok ⟨bytes.length, some (.ofSymbol s)⟩
      | none =>
        match Utf8.decode (byte :: rest) with
        | some (codePoint, _) => .error ⟨0, .unexpectedCharacter codePoint, .readEnd⟩
        | none => .error ⟨0, .badEncoding, .readEnd⟩ := by
  obtain ⟨hstart, hdigit⟩ := Bool.or_eq_false_iff.mp hword
  rw [lineMark, mark_prefix_iff] at hline
  rw [opening, mark_prefix_iff] at hblock
  refine (if_neg hblank).trans ((if_neg hreturn).trans ((if_neg hline).trans ((if_neg hblock).trans
    ((if_neg ?_).trans (if_neg ?_)))))
  · simp [hstart]
  · simp [hdigit]

theorem find_symbol_eq_ok_iff (hword : isWordByte byte = false)
    (hblank : ¬ (byte = 0x20 ∨ byte = 0x09 ∨ byte = 0x0A)) (hreturn : byte ≠ 0x0D)
    (hline : ¬ lineMark <+: byte :: rest) (hblock : ¬ opening <+: byte :: rest)
    {piece : PieceEnd} :
    find byte rest = .ok piece ↔
      ∃ s bytes, Symbol.longest? (byte :: rest) = some (s, bytes) ∧
        piece = ⟨bytes.length, some (.ofSymbol s)⟩ := by
  rw [find_symbol hword hblank hreturn hline hblock]
  cases hlongest : Symbol.longest? (byte :: rest) with
  | some entry =>
      obtain ⟨s, bytes⟩ := entry
      simp [eq_comm]
  | none =>
      cases Utf8.decode (byte :: rest) <;> simp

/-! ## Exactly the pieces are found -/

theorem exists_isPiece_of_word (h : isWordStart byte = true) :
    ∃ text after, byte :: rest = text ++ after ∧
      (byte :: rest.takeWhile isWordByte).length = text.length ∧
      IsPiece text after (some (.ofWord (asText (byte :: rest.takeWhile isWordByte)))) := by
  have hhead := (isWordHead_iff byte).mpr h
  have hcut : byte :: rest = (byte :: rest.takeWhile isWordByte) ++ rest.dropWhile isWordByte := by
    rw [List.cons_append, List.takeWhile_append_dropWhile]
  have hrun := (isRun_cons_iff (inWord_of_isWordHead hhead) hcut).mpr ⟨rfl, rfl⟩
  refine ⟨_, _, hcut, rfl, ?_⟩
  unfold Lexeme.ofWord
  split
  · rename_i k hspelling
    exact .keyword k rfl hhead hrun (Keyword.ofSpelling?_eq_some_iff.mp hspelling)
  · rename_i hspelling
    exact .identifier rfl hhead hrun (Keyword.ofSpelling?_eq_none_iff.mp hspelling)

theorem exists_isPiece_of_number (h : Number.isDigit byte = true) {value : IntegerValue String}
    (hread : Number.read (byte :: rest.takeWhile isWordByte) = .ok value) :
    ∃ text after, byte :: rest = text ++ after ∧
      (byte :: rest.takeWhile isWordByte).length = text.length ∧
      IsPiece text after (some (.ofInt value)) := by
  have hword : InWord byte := by
    rw [inWord_iff, isWordByte, h, Bool.or_true]
  have hcut : byte :: rest = (byte :: rest.takeWhile isWordByte) ++ rest.dropWhile isWordByte := by
    rw [List.cons_append, List.takeWhile_append_dropWhile]
  have hrun := (isRun_cons_iff hword hcut).mpr ⟨rfl, rfl⟩
  exact ⟨_, _, hcut, rfl, .literal hrun (Number.read_eq_ok_iff.mp hread)⟩

theorem exists_isPiece_of_symbol {s : Symbol} {bytes : List UInt8}
    (hline : ¬ lineMark <+: byte :: rest) (hblock : ¬ opening <+: byte :: rest)
    (h : Symbol.longest? (byte :: rest) = some (s, bytes)) :
    ∃ text after, byte :: rest = text ++ after ∧ bytes.length = text.length ∧
      IsPiece text after (some (.ofSymbol s)) := by
  obtain ⟨rfl, ⟨after, hafter⟩, hlongest⟩ := Symbol.longest?_eq_some_iff.mp h
  rw [← hafter] at hline hblock hlongest
  refine ⟨_, after, hafter.symm, rfl, .symbol s s.asText_bytes hline hblock ?_⟩
  intro other longer htext hlonger
  rw [Symbol.asText_eq_spelling_iff] at htext
  subst htext
  exact hlongest other hlonger

theorem exists_isPiece_of_find {length : Nat} {lexeme? : Option Lexeme}
    (h : find byte rest = .ok ⟨length, lexeme?⟩) :
    ∃ text after, byte :: rest = text ++ after ∧ length = text.length ∧
      IsPiece text after lexeme? := by
  by_cases hblank : byte = 0x20 ∨ byte = 0x09 ∨ byte = 0x0A
  · rw [find_blank hblank] at h
    cases h
    refine ⟨[byte], rest, rfl, rfl, ?_, fun hreturn => ?_⟩
    · rcases hblank with rfl | rfl | rfl
      · exact .space rest
      · exact .tab rest
      · exact .lineFeed rest
    · rcases hblank with rfl | rfl | rfl <;> exact absurd hreturn.1 (by decide)
  by_cases hreturn : byte = 0x0D
  · subst hreturn
    rw [find_carriageReturn] at h
    by_cases hfeed : rest.head? = some 0x0A
    · rw [if_pos hfeed] at h
      cases h
      obtain ⟨tail, rfl⟩ := List.head?_eq_some_iff.mp hfeed
      exact ⟨[0x0D, 0x0A], tail, rfl, rfl, .wideBreak tail, by simp⟩
    · rw [if_neg hfeed] at h
      cases h
      exact ⟨[0x0D], rest, rfl, rfl, .carriageReturn rest, fun hboth => hfeed hboth.2⟩
  by_cases hline : lineMark <+: byte :: rest
  · obtain ⟨rfl, hhead⟩ := mark_prefix_iff.mp hline
    obtain ⟨tail, rfl⟩ := List.head?_eq_some_iff.mp hhead
    rw [find_lineComment] at h
    cases hread : Comment.lineEnd 2 tail with
    | error fault =>
        rw [hread] at h
        cases h
    | ok stop =>
        rw [hread] at h
        cases h
        obtain ⟨text, after, rfl, htext, hend, rfl⟩ := Comment.lineEnd_eq_ok_iff.mp hread
        refine ⟨lineMark ++ encode text, after, rfl, ?_, .lineComment text htext hend, ?_⟩
        · rw [List.length_append]
          rfl
        · simp [lineMark]
  by_cases hblock : opening <+: byte :: rest
  · obtain ⟨rfl, hhead⟩ := mark_prefix_iff.mp hblock
    obtain ⟨tail, rfl⟩ := List.head?_eq_some_iff.mp hhead
    rw [find_blockComment] at h
    cases hread : Comment.blockEnd 0 2 tail with
    | error fault =>
        rw [hread] at h
        cases h
    | ok stop =>
        rw [hread] at h
        cases h
        obtain ⟨text, after, rfl, hinside, rfl⟩ := Comment.blockEnd_eq_ok_iff.mp hread
        refine ⟨opening ++ text, after, rfl, ?_, .blockComment after hinside, ?_⟩
        · rw [List.length_append]
          rfl
        · simp [opening]
  by_cases hstart : isWordStart byte = true
  · rw [find_word hstart] at h
    cases h
    exact exists_isPiece_of_word hstart
  by_cases hdigit : Number.isDigit byte = true
  · rw [find_number hdigit] at h
    cases hread : Number.read (byte :: rest.takeWhile isWordByte) with
    | error fault =>
        rw [hread] at h
        cases h
    | ok value =>
        rw [hread] at h
        cases h
        exact exists_isPiece_of_number hdigit hread
  · have hword : isWordByte byte = false := by
      rw [isWordByte, Bool.or_eq_false_iff]
      exact ⟨Bool.eq_false_iff.mpr hstart, Bool.eq_false_iff.mpr hdigit⟩
    obtain ⟨s, bytes, hlongest, hpiece⟩ :=
      (find_symbol_eq_ok_iff hword hblank hreturn hline hblock).mp h
    cases hpiece
    exact exists_isPiece_of_symbol hline hblock hlongest

theorem find_of_isTrivia {text after : List UInt8} (hcut : byte :: rest = text ++ after)
    (h : IsTrivia text after) (hwhole : ¬ (text = [0x0D] ∧ after.head? = some 0x0A)) :
    find byte rest = .ok (.blank text.length) := by
  cases h with
  | space => 
      obtain ⟨rfl, rfl⟩ := List.cons.inj hcut
      exact find_blank (.inl rfl)
  | tab =>
      obtain ⟨rfl, rfl⟩ := List.cons.inj hcut
      exact find_blank (.inr (.inl rfl))
  | lineFeed =>
      obtain ⟨rfl, rfl⟩ := List.cons.inj hcut
      exact find_blank (.inr (.inr rfl))
  | carriageReturn =>
      obtain ⟨rfl, rfl⟩ := List.cons.inj hcut
      rw [find_carriageReturn, if_neg (fun hfeed => hwhole ⟨rfl, hfeed⟩)]
      rfl
  | wideBreak =>
      obtain ⟨rfl, rfl⟩ := List.cons.inj hcut
      rw [find_carriageReturn]
      rfl
  | lineComment text htext hend =>
      obtain ⟨rfl, rfl⟩ := List.cons.inj hcut
      change find 0x2F (0x2F :: (encode text ++ after)) = _
      rw [find_lineComment, Comment.lineEnd_encode htext hend, List.length_append]
      rfl
  | @blockComment body _ hinside =>
      obtain ⟨rfl, rfl⟩ := List.cons.inj hcut
      change find 0x2F (0x2A :: (body ++ after)) = _
      rw [find_blockComment, Comment.blockEnd_of_inBlock hinside, List.length_append]
      rfl

theorem ofWord_keyword (k : Keyword) : Lexeme.ofWord k.spelling = ⟨.keyword k, .none⟩ := by
  rw [Lexeme.ofWord, Keyword.ofSpelling?_eq_some_iff.mpr rfl]

theorem ofWord_identifier {word : String} (h : ∀ k : Keyword, word ≠ k.spelling) :
    Lexeme.ofWord word = ⟨.identifier, .ident word⟩ := by
  rw [Lexeme.ofWord, Keyword.ofSpelling?_eq_none_iff.mpr h]

theorem find_of_isRun {text after : List UInt8} (hcut : byte :: rest = text ++ after)
    (hhead : IsWordHead byte) (h : IsRun text after) :
    find byte rest = .ok ⟨text.length, some (.ofWord (asText text))⟩ := by
  obtain ⟨htext, -⟩ := (isRun_cons_iff (inWord_of_isWordHead hhead) hcut).mp h
  rw [find_word ((isWordHead_iff byte).mp hhead), htext]

theorem find_of_isLexeme {text after : List UInt8} {lexeme : Lexeme}
    (hcut : byte :: rest = text ++ after) (h : IsLexeme text after lexeme) :
    find byte rest = .ok ⟨text.length, some lexeme⟩ := by
  cases h with
  | keyword k htext hhead hrun hspelling =>
      subst htext
      obtain ⟨rfl, -⟩ := List.cons.inj hcut
      rw [find_of_isRun hcut hhead hrun, hspelling, ofWord_keyword]
  | identifier htext hhead hrun hspelling =>
      subst htext
      obtain ⟨rfl, -⟩ := List.cons.inj hcut
      rw [find_of_isRun hcut hhead hrun, ofWord_identifier hspelling]
  | literal hrun hliteral =>
      obtain ⟨head, tail, rfl, hdigit⟩ := isDigit_of_isLiteral hliteral
      obtain ⟨rfl, -⟩ := List.cons.inj hcut
      have hword : InWord byte := by
        rw [inWord_iff, isWordByte, hdigit, Bool.or_true]
      obtain ⟨htext, -⟩ := (isRun_cons_iff hword hcut).mp hrun
      rw [find_number hdigit, ← htext, Number.read_eq_ok_iff.mpr hliteral]
      rfl
  | symbol s hspelling hline hblock hlongest =>
      rw [Symbol.asText_eq_spelling_iff] at hspelling
      subst hspelling
      obtain ⟨head, tail, hbytes, hword, hspace, htab, hfeed, hreturn⟩ := s.exists_bytes_eq_cons
      rw [hbytes] at hcut
      obtain ⟨rfl, -⟩ := List.cons.inj hcut
      rw [← hbytes] at hcut
      rw [← hcut] at hline hblock hlongest
      refine (find_symbol_eq_ok_iff hword (by simp [hspace, htab, hfeed]) hreturn hline
        hblock).mpr ⟨s, s.bytes, Symbol.longest?_eq_some_iff.mpr ⟨rfl, ⟨after, hcut.symm⟩, ?_⟩, rfl⟩
      exact fun other hother => hlongest other _ other.asText_bytes hother

/-- The piece that is found at a place is the one that stands there. -/
theorem find_eq_ok_iff {text after : List UInt8} {lexeme? : Option Lexeme}
    (hcut : byte :: rest = text ++ after) :
    find byte rest = .ok ⟨text.length, lexeme?⟩ ↔ IsPiece text after lexeme? := by
  constructor
  · intro h
    obtain ⟨found, later, hfound, hlength, hpiece⟩ := exists_isPiece_of_find h
    rw [hcut] at hfound
    obtain ⟨rfl, rfl⟩ := List.append_inj hfound hlength
    exact hpiece
  · intro h
    cases lexeme? with
    | none => exact find_of_isTrivia hcut h.1 h.2
    | some lexeme => exact find_of_isLexeme hcut h

end PieceEnd

/-! ## Decompositions -/

theorem ne_nil_of_isPiece {text after : List UInt8} {lexeme? : Option Lexeme}
    (h : IsPiece text after lexeme?) : text ≠ [] := by
  rintro rfl
  cases lexeme? with
  | none => nomatch h.1
  | some lexeme =>
      cases h with
      | keyword k htext _ _ _ => cases htext
      | identifier htext _ _ _ => cases htext
      | literal _ hliteral => nomatch isDigit_of_isLiteral hliteral
      | symbol s hspelling _ _ _ =>
          obtain ⟨head, tail, hbytes, -⟩ := s.exists_bytes_eq_cons
          rw [Symbol.asText_eq_spelling_iff, hbytes] at hspelling
          cases hspelling

namespace Pieces

/-- What holds of the empty source and where no piece is found, and holds of a source that starts
with a piece if it holds of what follows, holds of every source. -/
theorem induction {motive : List UInt8 → Prop} (nil : motive [])
    (fault : ∀ byte rest found, PieceEnd.find byte rest = .error found → motive (byte :: rest))
    (piece : ∀ text rest lexeme?, IsPiece text rest lexeme? → motive rest → motive (text ++ rest))
    (source : List UInt8) : motive source := by
  induction hlength : source.length using Nat.strong_induction_on generalizing source with
  | _ n ih =>
      cases source with
      | nil => exact nil
      | cons byte rest =>
          cases hfind : PieceEnd.find byte rest with
          | error found => exact fault byte rest found hfind
          | ok found =>
              obtain ⟨text, tail, hcut, -, hpiece⟩ := PieceEnd.exists_isPiece_of_find hfind
              have hpos := List.length_pos_iff.mpr (ne_nil_of_isPiece hpiece)
              have hshort : tail.length < n := by
                rw [← hlength, hcut, List.length_append]
                omega
              rw [hcut]
              exact piece text tail _ hpiece (ih _ hshort tail rfl)

@[simp] theorem ofSource_nil : ofSource [] = ⟨[], [], none⟩ := by
  simp [ofSource, cutOnto]

/-- Pieces before others, which end as these do. -/
def after (done : List Piece) (cut : Pieces) : Pieces :=
  ⟨done ++ cut.pieces, cut.remaining, cut.fault?⟩

theorem after_after (first second : List Piece) (cut : Pieces) :
    (cut.after second).after first = cut.after (first ++ second) := by
  simp [after, List.append_assoc]

theorem cutOnto_eq (done : List Piece) (source : List UInt8) :
    cutOnto done source = (ofSource source).after done.reverse := by
  induction hlength : source.length using Nat.strong_induction_on generalizing done source with
  | _ n ih =>
      cases source with
      | nil => simp [cutOnto, after]
      | cons byte rest =>
          unfold ofSource
          rw [cutOnto, cutOnto]
          cases hfind : PieceEnd.find byte rest with
          | error fault => simp [after]
          | ok piece =>
              have hshort : (rest.drop (piece.length - 1)).length < n := by
                rw [← hlength, List.length_drop, List.length_cons]
                omega
              simp only [ih _ hshort _ _ rfl, after_after, List.reverse_cons, List.reverse_nil,
                List.nil_append]

theorem ofSource_append {text rest : List UInt8} {lexeme? : Option Lexeme}
    (h : IsPiece text rest lexeme?) :
    ofSource (text ++ rest) = (ofSource rest).after [⟨text, lexeme?⟩] := by
  cases text with
  | nil => exact absurd rfl (ne_nil_of_isPiece h)
  | cons byte tail =>
      have hcut : byte :: (tail ++ rest) = (byte :: tail) ++ rest := rfl
      rw [← hcut, ofSource, cutOnto, (PieceEnd.find_eq_ok_iff hcut).mpr h]
      simp [cutOnto_eq]

theorem ofSource_cons_of_error {byte : UInt8} {rest : List UInt8} {fault : ReadFault}
    (h : PieceEnd.find byte rest = .error fault) :
    ofSource (byte :: rest) = ⟨[], byte :: rest, some fault⟩ := by
  rw [ofSource, cutOnto, h, List.reverse_nil]

theorem length_pieces_le (source : List UInt8) :
    (ofSource source).pieces.length ≤ source.length := by
  induction source using Pieces.induction with
  | nil => simp
  | fault byte rest found hfind => simp [ofSource_cons_of_error hfind]
  | piece text rest lexeme? hpiece ih =>
      have hpos := List.length_pos_iff.mpr (ne_nil_of_isPiece hpiece)
      rw [ofSource_append hpiece]
      simp only [after, List.length_append, List.length_singleton]
      omega

/-- What is cut is all of the source. -/
theorem flatMap_text (source : List UInt8) :
    (ofSource source).pieces.flatMap Piece.text ++ (ofSource source).remaining = source := by
  induction source using Pieces.induction with
  | nil => simp
  | fault byte rest found hfind => simp [ofSource_cons_of_error hfind]
  | piece text rest lexeme? hpiece ih =>
      rw [ofSource_append hpiece]
      simp [after, ih]

theorem decomposes_of_ofSource {source : List UInt8} (h : (ofSource source).fault? = none) :
    Decomposes source ((ofSource source).pieces.filterMap fun piece => piece.lexeme?) := by
  induction source using Pieces.induction with
  | nil =>
      rw [ofSource_nil]
      exact .nil
  | fault byte rest found hfind =>
      rw [ofSource_cons_of_error hfind] at h
      cases h
  | piece text rest lexeme? hpiece ih =>
      rw [ofSource_append hpiece] at h ⊢
      cases lexeme? with
      | none => exact .trivia hpiece.1 (ih h)
      | some lexeme => exact .lexeme hpiece (ih h)

theorem ofSource_of_decomposes {source : List UInt8} {lexemes : List Lexeme}
    (h : Decomposes source lexemes) : (ofSource source).fault? = none ∧
      (ofSource source).pieces.filterMap (fun piece => piece.lexeme?) = lexemes := by
  induction h with
  | nil => simp
  | @trivia text rest lexemes htext _ ih =>
      -- A line end of two bytes may be decomposed into two, but it is cut as one.
      by_cases hsplit : text = [0x0D] ∧ rest.head? = some 0x0A
      · obtain ⟨rfl, hhead⟩ := hsplit
        obtain ⟨tail, rfl⟩ := List.head?_eq_some_iff.mp hhead
        have hfeed : IsPiece [0x0A] tail none := ⟨.lineFeed tail, by simp⟩
        have hwide : IsPiece [0x0D, 0x0A] tail none := ⟨.wideBreak tail, by simp⟩
        have hcut := ofSource_append hwide
        rw [← List.singleton_append, ofSource_append hfeed] at ih
        simp only [List.cons_append, List.nil_append] at hcut ⊢
        rw [hcut]
        exact ih
      · have hpiece : IsPiece text rest none := ⟨htext, hsplit⟩
        rw [ofSource_append hpiece]
        exact ih
  | @lexeme text rest lexeme lexemes hlexeme _ ih =>
      have hpiece : IsPiece text rest (some lexeme) := hlexeme
      rw [ofSource_append hpiece]
      exact ⟨ih.1, congrArg (lexeme :: ·) ih.2⟩

/-- A source is cut without a fault exactly if it decomposes, and then into the same lexemes. -/
theorem decomposes_iff {source : List UInt8} {lexemes : List Lexeme} :
    Decomposes source lexemes ↔ (ofSource source).fault? = none ∧
      (ofSource source).pieces.filterMap (fun piece => piece.lexeme?) = lexemes := by
  constructor
  · exact ofSource_of_decomposes
  · rintro ⟨hfault, rfl⟩
    exact decomposes_of_ofSource hfault

end Pieces

end FrontEnd
