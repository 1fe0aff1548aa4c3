import FrontEnd.Proofs.Lexical.LineFeed
import FrontEnd.Proofs.Lexical.Positions

/-! # Faults show where a source is malformed

Where no piece is found, the source is malformed in one of few ways. -/

namespace FrontEnd

open String (utf8EncodeChar)

namespace LexicalGrammar

/-! ## Malformed texts -/

/-- The part of a block comment that is in front of some bytes, and does not end the comment. -/
inductive StaysInBlock (after : List UInt8) : (enclosing : Nat) → List Char → Prop where
  | here (enclosing) : StaysInBlock after enclosing []
  | leave {enclosing text} : StaysInBlock after enclosing text →
      StaysInBlock after (enclosing + 1) ('*' :: '/' :: text)
  | enter {enclosing text} : StaysInBlock after (enclosing + 1) text →
      StaysInBlock after enclosing ('/' :: '*' :: text)
  | character {enclosing text} (char : Char) (hzero : char ≠ '\x00')
      (hopening : ¬ opening <+: encode (char :: text) ++ after)
      (hclosing : ¬ closing <+: encode (char :: text) ++ after) :
      StaysInBlock after enclosing text → StaysInBlock after enclosing (char :: text)

/-- The part of one comment that is in front of some bytes. -/
inductive IsOpenComment (after : List UInt8) : List Char → Prop where
  | line (text : List Char) : (∀ char ∈ text, char ≠ '\x00' ∧ char ≠ '\n' ∧ char ≠ '\r') →
      IsOpenComment after ('/' :: '/' :: text)
  | block {text} : StaysInBlock after 0 text → IsOpenComment after ('/' :: '*' :: text)

/-- Bytes that start with no character of a text. -/
def IllFormed (bytes : List UInt8) : Prop :=
  bytes ≠ [] ∧ ∀ char, ¬ utf8EncodeChar char <+: bytes

/-- A word that starts with a zero, and then with no mark of a radix. -/
def LeadsWithZero (word : List UInt8) : Prop :=
  ∃ mark tail, word = 0x30 :: mark :: tail ∧ mark ∉ [0x78, 0x58, 0x62, 0x42]

/-- Some bytes, after the inside of a comment or after nothing, are the cause of a fault. -/
inductive Obstructs : (inside : List Char) → (after : List UInt8) → LexicalFault → Prop where
  | encodingInComment {inside after} : IsOpenComment after inside → IllFormed after →
      Obstructs inside after .badEncoding
  | zeroInComment {inside after} : IsOpenComment after inside → utf8EncodeChar '\x00' <+: after →
      Obstructs inside after (.unexpectedCharacter 0)
  | unclosed {inside} : IsOpenComment [] ('/' :: '*' :: inside) →
      Obstructs ('/' :: '*' :: inside) [] .unclosedBlockComment
  | encoding {after} : IllFormed after → Obstructs [] after .badEncoding
  | character {after} (char : Char) : utf8EncodeChar char <+: after →
      (∀ text rest lexeme?, IsPiece text rest lexeme? → ¬ utf8EncodeChar char <+: text) →
      Obstructs [] after (.unexpectedCharacter char.toNat)
  | leadingZero {word after} : IsRun word after → LeadsWithZero word →
      Obstructs [] (word ++ after) .leadingZero
  | badIntLiteral {word after} : IsRun word after →
      (∃ head value, word.head? = some head ∧ IsDigit 10 head value) → ¬ LeadsWithZero word →
      (∀ value, ¬ IsLiteral word value) → Obstructs [] (word ++ after) .badIntLiteral

end LexicalGrammar

open LexicalGrammar

/-- A fault is explained by some bytes: what is read of them is text, and the cause comes after the
inside of a comment or where the bytes start. -/
def ReadFault.ShowsIn (fault : ReadFault) (bytes : List UInt8) : Prop :=
  ∃ inside after read, bytes = encode inside ++ after ∧ Obstructs inside after fault.kind ∧
    bytes.take fault.read = encode read ∧
    match fault.anchor with
    | .pieceStart => inside = []
    | .readEnd => inside = read

theorem ReadFault.showsIn_of_readEnd {fault : ReadFault} {inside : List Char} {after : List UInt8}
    (h : Obstructs inside after fault.kind) (hread : fault.read = (encode inside).length)
    (hanchor : fault.anchor = .readEnd) : fault.ShowsIn (encode inside ++ after) :=
  ⟨inside, after, inside, rfl, h, List.take_left' hread.symm, by rw [hanchor]⟩

/-! ## Comments -/

theorem Utf8.decode_eq_none_iff {bytes : List UInt8} :
    decode bytes = none ↔ ∀ char, ¬ utf8EncodeChar char <+: bytes := by
  rw [Option.eq_none_iff_forall_ne_some]
  constructor
  · intro h char hchar
    exact h _ (decode_eq_some_iff.mpr ⟨char, rfl, rfl, hchar⟩)
  · rintro h ⟨code, n⟩ hdecode
    obtain ⟨char, -, -, hchar⟩ := decode_eq_some_iff.mp hdecode
    exact h char hchar

namespace Comment

theorem characterWidth_eq_error {bytes : List UInt8} {kind : LexicalFault}
    (h : characterWidth bytes = .error kind) :
    (kind = .badEncoding ∧ ∀ char, ¬ utf8EncodeChar char <+: bytes) ∨
      (kind = .unexpectedCharacter 0 ∧ utf8EncodeChar '\x00' <+: bytes) := by
  unfold characterWidth at h
  split at h
  · rename_i hdecode
    cases h
    exact .inl ⟨rfl, Utf8.decode_eq_none_iff.mp hdecode⟩
  · rename_i code width hdecode
    obtain ⟨char, hcode, -, hchar⟩ := Utf8.decode_eq_some_iff.mp hdecode
    split at h
    · rename_i hzero
      cases h
      obtain rfl : char = '\x00' := Char.toNat_inj.mp (hcode.trans hzero)
      exact .inr ⟨rfl, hchar⟩
    · cases h

theorem obstructs_of_characterWidth {inside : List Char} {after : List UInt8}
    {kind : LexicalFault} (h : IsOpenComment after inside) (hafter : after ≠ [])
    (hwidth : characterWidth after = .error kind) : Obstructs inside after kind := by
  rcases characterWidth_eq_error hwidth with ⟨rfl, hnone⟩ | ⟨rfl, hzero⟩
  · exact .encodingInComment h ⟨hafter, hnone⟩
  · exact .zeroInComment h hzero

theorem lineEnd_eq_error {read : Nat} {bytes : List UInt8} {fault : ReadFault}
    (h : lineEnd read bytes = .error fault) :
    ∃ text after, bytes = encode text ++ after ∧
      (∀ char ∈ text, char ≠ '\x00' ∧ char ≠ '\n' ∧ char ≠ '\r') ∧ after ≠ [] ∧
      characterWidth after = .error fault.kind ∧
      fault.read = read + (encode text).length ∧ fault.anchor = .readEnd := by
  fun_induction lineEnd read bytes with
  | case1 read => cases h
  | case2 read byte rest hend => cases h
  | case3 read byte rest hend kind hwidth =>
      cases h
      exact ⟨[], byte :: rest, rfl, by simp, List.cons_ne_nil _ _, hwidth, rfl, rfl⟩
  | case4 read byte rest hend n hwidth ih =>
      obtain ⟨char, tail, hbytes, hzero, rfl⟩ := characterWidth_eq_ok_iff.mp hwidth
      rw [drop_of_cons_eq_append hbytes (encodeChar_ne_nil char)] at ih h
      obtain ⟨text, after, rfl, htext, hafter, hfault, hread, hanchor⟩ := ih h
      rw [isLineEnd_iff_of_encode hbytes, not_or] at hend
      refine ⟨char :: text, after, ?_, ?_, hafter, hfault, ?_, hanchor⟩
      · rw [hbytes, encode_cons, List.append_assoc]
      · exact List.forall_mem_cons.mpr ⟨⟨hzero, hend⟩, htext⟩
      · rw [hread, encode_cons, List.length_append, Nat.add_assoc]

theorem blockEnd_eq_error {enclosing read : Nat} {bytes : List UInt8} {fault : ReadFault}
    (h : blockEnd enclosing read bytes = .error fault) :
    ∃ text after, bytes = encode text ++ after ∧ StaysInBlock after enclosing text ∧
      ((after = [] ∧ fault.kind = .unclosedBlockComment) ∨
        (after ≠ [] ∧ characterWidth after = .error fault.kind)) ∧
      fault.read = read + (encode text).length ∧ fault.anchor = .readEnd := by
  fun_induction blockEnd enclosing read bytes with
  | case1 enclosing read =>
      cases h
      exact ⟨[], [], rfl, .here enclosing, .inl ⟨rfl, rfl⟩, rfl, rfl⟩
  | case2 enclosing read rest ih =>
      obtain ⟨text, after, rfl, hstays, hfault, hread, hanchor⟩ := ih h
      refine ⟨'/' :: '*' :: text, after, rfl, .enter hstays, hfault, ?_, hanchor⟩
      have hlength : (encode ('/' :: '*' :: text)).length = (encode text).length + 2 := rfl
      omega
  | case3 read rest => cases h
  | case4 read rest enclosing ih =>
      obtain ⟨text, after, rfl, hstays, hfault, hread, hanchor⟩ := ih h
      refine ⟨'*' :: '/' :: text, after, rfl, .leave hstays, hfault, ?_, hanchor⟩
      have hlength : (encode ('*' :: '/' :: text)).length = (encode text).length + 2 := rfl
      omega
  | case5 enclosing read byte rest hopening hclosing kind hwidth =>
      cases h
      exact ⟨[], byte :: rest, rfl, .here enclosing, .inr ⟨List.cons_ne_nil _ _, hwidth⟩, rfl, rfl⟩
  | case6 enclosing read byte rest hopening hclosing n hwidth ih =>
      obtain ⟨char, tail, hbytes, hzero, rfl⟩ := characterWidth_eq_ok_iff.mp hwidth
      rw [drop_of_cons_eq_append hbytes (encodeChar_ne_nil char)] at ih h
      obtain ⟨text, after, rfl, hstays, hfault, hread, hanchor⟩ := ih h
      rw [← List.append_assoc, ← encode_cons] at hbytes
      refine ⟨char :: text, after, hbytes, .character char hzero ?_ ?_ hstays, hfault, ?_, hanchor⟩
      · rintro ⟨more, hmore⟩
        rw [← hmore] at hbytes
        exact hopening more (List.cons.inj hbytes).1 (List.cons.inj hbytes).2
      · rintro ⟨more, hmore⟩
        rw [← hmore] at hbytes
        exact hclosing more (List.cons.inj hbytes).1 (List.cons.inj hbytes).2
      · rw [hread, encode_cons, List.length_append, Nat.add_assoc]

end Comment

/-! ## Numbers -/

namespace Number

theorem readDigits_eq_error {radix skip : Nat} {bytes : List UInt8} {fault : ReadFault}
    (h : readDigits radix skip bytes = .error fault) :
    fault.kind = .badIntLiteral ∧ fault.anchor = .pieceStart := by
  unfold readDigits at h
  split at h <;> cases h
  exact ⟨rfl, rfl⟩

/-- A word that is no number is refused where it starts. -/
theorem read_eq_error {word : List UInt8} {fault : ReadFault} (h : read word = .error fault) :
    fault.anchor = .pieceStart ∧ (∀ value, ¬ IsLiteral word value) ∧
      ((fault.kind = .leadingZero ∧ LeadsWithZero word) ∨
        (fault.kind = .badIntLiteral ∧ ¬ LeadsWithZero word)) := by
  have hliteral : ∀ value, ¬ IsLiteral word value := by
    intro value hvalue
    cases h.symm.trans (read_eq_ok_iff.mpr hvalue)
  unfold read at h
  split at h
  · cases h
  · rename_i mark digits
    by_cases hmark : mark ∈ [0x78, 0x58, 0x62, 0x42]
    · have hdigits : fault.kind = .badIntLiteral ∧ fault.anchor = .pieceStart := by
        split_ifs at h
        · exact readDigits_eq_error h
        · exact readDigits_eq_error h
        · simp_all
      refine ⟨hdigits.2, hliteral, .inr ⟨hdigits.1, ?_⟩⟩
      rintro ⟨other, tail, hword, hother⟩
      obtain ⟨-, hword⟩ := List.cons.inj hword
      obtain ⟨rfl, -⟩ := List.cons.inj hword
      exact hother hmark
    · rw [if_neg (by simp_all), if_neg (by simp_all)] at h
      cases h
      exact ⟨rfl, hliteral, .inl ⟨rfl, mark, digits, rfl, hmark⟩⟩
  · rename_i hzero hmarked
    obtain ⟨hkind, hanchor⟩ := readDigits_eq_error h
    refine ⟨hanchor, hliteral, .inr ⟨hkind, ?_⟩⟩
    rintro ⟨mark, tail, rfl, -⟩
    exact hmarked mark tail rfl

end Number

/-! ## Symbols -/

namespace Symbol

/-- The first byte of a symbol is a symbol. -/
theorem exists_bytes_eq_singleton {s : Symbol} {head : UInt8} {tail : List UInt8}
    (h : s.bytes = head :: tail) : ∃ single : Symbol, single.bytes = [head] := by
  have hall : ∀ s ∈ all, ∃ single ∈ all, single.bytes = s.bytes.take 1 := by decide +kernel
  obtain ⟨single, -, hsingle⟩ := hall s (mem_all s)
  exact ⟨single, by rw [hsingle, h]; rfl⟩

theorem not_prefix_of_longest? {source : List UInt8} (h : longest? source = none) (s : Symbol) :
    ¬ s.bytes <+: source := by
  have hnone := List.find?_eq_none.mp h _ (mem_longestFirst s)
  rwa [List.isPrefixOf_iff_prefix] at hnone

/-- Where no symbol is, none starts with the same byte. -/
theorem head?_bytes_ne {byte : UInt8} {rest : List UInt8} (h : longest? (byte :: rest) = none)
    (s : Symbol) : s.bytes.head? ≠ some byte := by
  intro hhead
  obtain ⟨tail, htail⟩ := List.head?_eq_some_iff.mp hhead
  obtain ⟨single, hsingle⟩ := exists_bytes_eq_singleton htail
  exact not_prefix_of_longest? h single ⟨rest, by rw [hsingle]; rfl⟩

end Symbol

/-! ## Pieces -/

namespace PieceEnd

variable {byte : UInt8} {rest : List UInt8}

/-- What is no word, no blank, no comment and no symbol is the first byte of no piece. -/
theorem head?_ne_of_isPiece (hword : isWordByte byte = false)
    (hblank : ¬ (byte = 0x20 ∨ byte = 0x09 ∨ byte = 0x0A)) (hreturn : byte ≠ 0x0D)
    (hsymbol : ∀ s : Symbol, s.bytes.head? ≠ some byte) {text after : List UInt8}
    {lexeme? : Option Lexeme} (h : IsPiece text after lexeme?) : text.head? ≠ some byte := by
  -- a comment starts like the symbol of a division
  have hslash : byte ≠ 0x2F := by
    rintro rfl
    exact hsymbol .slash rfl
  have hinWord : ¬ InWord byte := by
    rw [inWord_iff, hword]
    exact Bool.false_ne_true
  intro hhead
  have hmem : byte ∈ text := List.mem_of_head? hhead
  cases lexeme? with
  | none =>
      cases h.1 with
      | space => exact hblank (.inl (Option.some.inj hhead).symm)
      | tab => exact hblank (.inr (.inl (Option.some.inj hhead).symm))
      | lineFeed => exact hblank (.inr (.inr (Option.some.inj hhead).symm))
      | carriageReturn => exact hreturn (Option.some.inj hhead).symm
      | wideBreak => exact hreturn (Option.some.inj hhead).symm
      | lineComment => exact hslash (Option.some.inj hhead).symm
      | blockComment => exact hslash (Option.some.inj hhead).symm
  | some lexeme =>
      cases h with
      | keyword _ _ _ hrun _ => exact hinWord (hrun.1 byte hmem)
      | identifier _ _ hrun _ => exact hinWord (hrun.1 byte hmem)
      | literal hrun _ => exact hinWord (hrun.1 byte hmem)
      | symbol s hspelling _ _ _ =>
          rw [Symbol.asText_eq_spelling_iff.mp hspelling] at hhead
          exact hsymbol s hhead

theorem showsIn_of_find_lineComment {tail : List UInt8} {fault : ReadFault}
    (h : find 0x2F (0x2F :: tail) = .error fault) : fault.ShowsIn (0x2F :: 0x2F :: tail) := by
  rw [find_lineComment] at h
  cases hread : Comment.lineEnd 2 tail with
  | ok stop =>
      rw [hread] at h
      cases h
  | error found =>
      rw [hread] at h
      obtain rfl := Except.error.inj h
      obtain ⟨text, after, rfl, htext, hafter, hwidth, hlength, hanchor⟩ :=
        Comment.lineEnd_eq_error hread
      refine ReadFault.showsIn_of_readEnd
        (Comment.obstructs_of_characterWidth (.line text htext) hafter hwidth) ?_ hanchor
      rw [hlength, Nat.add_comm]
      rfl

theorem showsIn_of_find_blockComment {tail : List UInt8} {fault : ReadFault}
    (h : find 0x2F (0x2A :: tail) = .error fault) : fault.ShowsIn (0x2F :: 0x2A :: tail) := by
  rw [find_blockComment] at h
  cases hread : Comment.blockEnd 0 2 tail with
  | ok stop =>
      rw [hread] at h
      cases h
  | error found =>
      rw [hread] at h
      obtain rfl := Except.error.inj h
      obtain ⟨text, after, rfl, hstays, hcause, hlength, hanchor⟩ :=
        Comment.blockEnd_eq_error hread
      have hobstructs : Obstructs ('/' :: '*' :: text) after found.kind := by
        rcases hcause with ⟨rfl, hkind⟩ | ⟨hafter, hwidth⟩
        · rw [hkind]
          exact .unclosed (.block hstays)
        · exact Comment.obstructs_of_characterWidth (.block hstays) hafter hwidth
      refine ReadFault.showsIn_of_readEnd hobstructs ?_ hanchor
      rw [hlength, Nat.add_comm]
      rfl

theorem showsIn_of_find_number (hdigit : Number.isDigit byte = true) {fault : ReadFault}
    (h : find byte rest = .error fault) : fault.ShowsIn (byte :: rest) := by
  have hbyte : isWordByte byte = true := by rw [isWordByte, hdigit, Bool.or_true]
  have hcut : byte :: rest = (byte :: rest.takeWhile isWordByte) ++ rest.dropWhile isWordByte := by
    rw [List.cons_append, List.takeWhile_append_dropWhile]
  have hrun := (isRun_cons_iff ((inWord_iff byte).mpr hbyte) hcut).mpr ⟨rfl, rfl⟩
  have hhead : ∃ head value, (byte :: rest.takeWhile isWordByte).head? = some head ∧
      IsDigit 10 head value := by
    have hrange := (Number.isDigit_iff byte).mp hdigit
    refine ⟨byte, byte.toNat - 48, rfl, Number.digit?_eq_some_iff.mp ?_⟩
    rw [Number.digit?_eq_some]
    omega
  rw [find_number hdigit] at h
  cases hread : Number.read (byte :: rest.takeWhile isWordByte) with
  | ok value =>
      rw [hread] at h
      cases h
  | error found =>
      rw [hread] at h
      obtain rfl := Except.error.inj h
      obtain ⟨hanchor, hliteral, hcause⟩ := Number.read_eq_error hread
      rw [hcut]
      generalize byte :: rest.takeWhile isWordByte = word at *
      have hobstructs : Obstructs [] (word ++ rest.dropWhile isWordByte) found.kind := by
        rcases hcause with ⟨hkind, hzero⟩ | ⟨hkind, hzero⟩
        · rw [hkind]
          exact .leadingZero hrun hzero
        · rw [hkind]
          exact .badIntLiteral hrun hhead hzero hliteral
      have hascii : ∀ byte ∈ word.take found.read, byte.toNat < 128 := fun byte hmem =>
        (hrun.1 byte (List.mem_of_mem_take hmem)).toNat_lt
      refine ⟨[], _, (word.take found.read).map asChar, rfl, hobstructs, ?_, by rw [hanchor]⟩
      rw [List.take_append_of_le_length (Number.read_le_of_read hread), encode_map_asChar hascii]

theorem showsIn_of_find_symbol (hword : isWordByte byte = false)
    (hblank : ¬ (byte = 0x20 ∨ byte = 0x09 ∨ byte = 0x0A)) (hreturn : byte ≠ 0x0D)
    (hline : ¬ lineMark <+: byte :: rest) (hblock : ¬ opening <+: byte :: rest)
    {fault : ReadFault} (h : find byte rest = .error fault) : fault.ShowsIn (byte :: rest) := by
  rw [find_symbol hword hblank hreturn hline hblock] at h
  cases hlongest : Symbol.longest? (byte :: rest) with
  | some entry =>
      rw [hlongest] at h
      cases h
  | none =>
      rw [hlongest] at h
      cases hdecode : Utf8.decode (byte :: rest) with
      | none =>
          rw [hdecode] at h
          obtain rfl := Except.error.inj h
          have hobstructs : Obstructs [] (byte :: rest) .badEncoding :=
            .encoding ⟨List.cons_ne_nil _ _, Utf8.decode_eq_none_iff.mp hdecode⟩
          exact ⟨[], _, [], rfl, hobstructs, rfl, rfl⟩
      | some decoded =>
          obtain ⟨code, n⟩ := decoded
          obtain ⟨char, rfl, -, hchar⟩ := Utf8.decode_eq_some_iff.mp hdecode
          rw [hdecode] at h
          obtain rfl := Except.error.inj h
          refine ⟨[], _, [], rfl, .character char hchar ?_, rfl, rfl⟩
          rintro text after lexeme? hpiece ⟨more, rfl⟩
          obtain ⟨tail, htail⟩ := hchar
          have hne := Comment.encodeChar_ne_nil char
          have hfirst := congrArg List.head? htail
          rw [List.head?_append_of_ne_nil _ hne] at hfirst
          refine head?_ne_of_isPiece hword hblank hreturn (Symbol.head?_bytes_ne hlongest) hpiece ?_
          rw [List.head?_append_of_ne_nil _ hne, hfirst, List.head?_cons]

/-- Where no piece is found, the bytes explain why. -/
theorem showsIn_of_find {fault : ReadFault} (h : find byte rest = .error fault) :
    fault.ShowsIn (byte :: rest) := by
  by_cases hblank : byte = 0x20 ∨ byte = 0x09 ∨ byte = 0x0A
  · rw [find_blank hblank] at h
    cases h
  by_cases hreturn : byte = 0x0D
  · subst hreturn
    rw [find_carriageReturn] at h
    cases h
  by_cases hline : lineMark <+: byte :: rest
  · obtain ⟨rfl, hhead⟩ := mark_prefix_iff.mp hline
    obtain ⟨tail, rfl⟩ := List.head?_eq_some_iff.mp hhead
    exact showsIn_of_find_lineComment h
  by_cases hblock : opening <+: byte :: rest
  · obtain ⟨rfl, hhead⟩ := mark_prefix_iff.mp hblock
    obtain ⟨tail, rfl⟩ := List.head?_eq_some_iff.mp hhead
    exact showsIn_of_find_blockComment h
  by_cases hstart : isWordStart byte = true
  · rw [find_word hstart] at h
    cases h
  by_cases hdigit : Number.isDigit byte = true
  · exact showsIn_of_find_number hdigit h
  · have hword : isWordByte byte = false := by
      rw [isWordByte, Bool.or_eq_false_iff]
      exact ⟨Bool.eq_false_iff.mpr hstart, Bool.eq_false_iff.mpr hdigit⟩
    exact showsIn_of_find_symbol hword hblank hreturn hline hblock h

end PieceEnd

theorem Pieces.showsIn_of_fault {source : List UInt8} {fault : ReadFault}
    (h : (ofSource source).fault? = some fault) : fault.ShowsIn (ofSource source).remaining := by
  induction source using Pieces.induction with
  | nil => simp at h
  | fault byte rest found hfind =>
      rw [ofSource_cons_of_error hfind] at h ⊢
      obtain rfl := Option.some.inj h
      exact PieceEnd.showsIn_of_find hfind
  | piece text rest lexeme? hpiece ih =>
      rw [ofSource_append hpiece] at h ⊢
      exact ih h

/-- What remains of a source does not start with a line feed, which would be a piece. -/
theorem Pieces.unsplit_of_prefix {source : List UInt8} {inside : List Char}
    (h : encode inside <+: (ofSource source).remaining) (before : List Char) :
    Unsplit before inside := by
  have hhead : (ofSource source).remaining.head? ≠ some 0x0A := by
    induction source using Pieces.induction with
    | nil => simp
    | fault byte rest found hfind =>
        rw [ofSource_cons_of_error hfind]
        rintro ⟨⟩
        rw [PieceEnd.find_blank (.inr (.inr rfl))] at hfind
        cases hfind
    | piece text rest lexeme? hpiece ih =>
        rw [ofSource_append hpiece] at h ⊢
        exact ih h
  rintro ⟨-, hfeed⟩
  obtain ⟨tail, rfl⟩ := List.head?_eq_some_iff.mp hfeed
  obtain ⟨rest, hrest⟩ := h
  exact hhead (by rw [← hrest]; rfl)

/-! ## Words are not split -/

/-- No word reaches over from one text to another. -/
def Unjoined (first second : List UInt8) : Prop :=
  ∀ byte ∈ first.getLast?, InWord byte → ∀ next ∈ second.head?, ¬ InWord next

theorem Symbol.getLast?_not_inWord (s : Symbol) : ∀ byte ∈ s.bytes.getLast?, ¬ InWord byte := by
  simp only [inWord_iff]
  cases s <;> decide +kernel

theorem LexicalGrammar.LineEnds.not_inWord {after : List UInt8} (h : LineEnds after) :
    ∀ byte ∈ after.head?, ¬ InWord byte := by
  intro byte hbyte
  rw [inWord_iff]
  rcases h byte hbyte with rfl | rfl <;> decide

theorem unjoined_of_mark {text after : List UInt8} {mark : UInt8}
    (hlast : text.getLast? = some mark) (hmark : isWordByte mark = false) :
    Unjoined text after := by
  intro byte hbyte hword
  rw [hlast, Option.mem_some_iff] at hbyte
  rw [← hbyte, inWord_iff, hmark] at hword
  cases hword

theorem IsPiece.unjoined {text after : List UInt8} {lexeme? : Option Lexeme}
    (h : IsPiece text after lexeme?) : Unjoined text after := by
  cases lexeme? with
  | none =>
      cases h.1 with
      | space => exact unjoined_of_mark rfl rfl
      | tab => exact unjoined_of_mark rfl rfl
      | lineFeed => exact unjoined_of_mark rfl rfl
      | carriageReturn => exact unjoined_of_mark rfl rfl
      | wideBreak => exact unjoined_of_mark rfl rfl
      | lineComment _ _ hend => exact fun _ _ _ => hend.not_inWord
      | blockComment _ hbody =>
          have hlast := hbody.getLast?_eq
          exact unjoined_of_mark (by rw [List.getLast?_append, hlast]; rfl) rfl
  | some lexeme =>
      cases h with
      | keyword _ _ _ hrun _ => exact fun _ _ _ => hrun.2
      | identifier _ _ hrun _ => exact fun _ _ _ => hrun.2
      | literal hrun _ => exact fun _ _ _ => hrun.2
      | symbol s hspelling _ _ _ =>
          intro byte hbyte hword
          rw [Symbol.asText_eq_spelling_iff.mp hspelling] at hbyte
          exact absurd hword (s.getLast?_not_inWord byte hbyte)

theorem IsPiece.unjoined_append {piece : List Char} {after : List UInt8} {lexeme? : Option Lexeme}
    (h : IsPiece (encode piece) after lexeme?) (before : List Char) :
    Unjoined (encode (before ++ piece)) after := by
  intro byte hbyte
  rw [encode_append, List.getLast?_append_of_ne_nil _ (encode_ne_nil h.text_ne_nil)] at hbyte
  exact h.unjoined byte hbyte

theorem DecomposesBetween.unjoined {after : List UInt8} {before text : List Char}
    {lexemes : List (List Char × Lexeme)} (h : DecomposesBetween after before text lexemes)
    (hbefore : Unjoined (encode before) (encode text ++ after)) :
    Unjoined (encode (before ++ text)) after := by
  induction h using DecomposesBetween.induction with
  | nil before => simpa using hbefore
  | @piece before text lexemes lexeme? piece hpiece hrest ih =>
      rw [← List.append_assoc]
      exact ih (hpiece.unjoined_append before)

/-- No word starts where a comment is malformed. -/
theorem LexicalGrammar.Obstructs.unjoined {before inside : List Char} {after : List UInt8}
    {kind : LexicalFault} (h : Obstructs inside after kind)
    (hbefore : Unjoined (encode before) (encode inside ++ after)) :
    Unjoined (encode (before ++ inside)) after := by
  have hinside : inside = [] → Unjoined (encode (before ++ inside)) after := by
    rintro rfl
    simpa using hbefore
  cases h with
  | encodingInComment _ hill =>
      intro _ _ _ next hnext hword
      have hchar := encodeChar_asChar hword.toNat_lt
      obtain ⟨tail, rfl⟩ := List.head?_eq_some_iff.mp hnext
      exact hill.2 (asChar next) ⟨tail, by rw [hchar]; rfl⟩
  | zeroInComment _ hzero =>
      intro _ _ _ next hnext hword
      obtain ⟨tail, rfl⟩ := hzero
      have hchar : utf8EncodeChar '\x00' = [0] := by decide
      rw [hchar] at hnext
      cases hnext
      exact absurd ((inWord_iff 0).mp hword) (by decide)
  | unclosed _ => exact fun _ _ _ _ hnext => nomatch hnext
  | encoding _ => exact hinside rfl
  | character _ _ _ => exact hinside rfl
  | leadingZero _ _ => exact hinside rfl
  | badIntLiteral _ _ _ _ => exact hinside rfl

/-! ## Errors -/

/-- Limits are never met without limits. -/
def LexicalFault.isLimit : LexicalFault → Bool
  | tooManyLines | tooManyCharactersInLine | tooManyCharactersInFile => true
  | _ => false

theorem LexicalGrammar.Obstructs.isLimit_eq {inside : List Char} {after : List UInt8}
    {kind : LexicalFault} (h : Obstructs inside after kind) : kind.isLimit = false := by
  cases h <;> rfl

/-- Without limits, reading fails only where a source is malformed. -/
theorem Reading.exists_obstructs {config : LayoutConfig} (hlimits : config.limits = .unlimited)
    {source : List UInt8} {e : LexicalError} (h : (ofSource config source).outcome = .error e) :
    ∃ before inside after lexemes, body source = encode (before ++ inside) ++ after ∧
      DecomposesBetween (encode inside ++ after) [] before lexemes ∧ Obstructs inside after e.kind ∧
      e.pos = (Position.start.afterText config.tabStop (before ++ inside)).capped := by
  have hwithin : (first source).Within config := by
    rw [first_within_iff, hlimits]
    exact fun _ => by decide
  obtain ⟨text, lexemes, hbody, hdecomposes, hread⟩ := exists_text source
  have hreached := hwithin.stepAll_unlimited hlimits (Move.ofText text)
  have houtcome := (hread config hwithin).1
  rw [h, hreached] at houtcome
  cases hfault : (Pieces.ofSource (body source)).fault? with
  | none =>
      rw [hfault] at houtcome
      cases houtcome
  | some fault =>
      obtain ⟨inside, after, read, hremaining, hobstructs, htake, hanchor⟩ :=
        Pieces.showsIn_of_fault hfault
      rw [hfault] at houtcome
      change _ = finish config _ _ (some fault) at houtcome
      rw [finish_fault htake, (hwithin.of_stepAll hreached).2.stepAll_unlimited hlimits]
        at houtcome
      obtain rfl := Except.error.inj houtcome
      have hinside : encode inside <+: (Pieces.ofSource (body source)).remaining :=
        ⟨after, hremaining.symm⟩
      rw [hremaining, ← List.append_assoc, ← encode_append] at hbody
      rw [hremaining] at hdecomposes
      refine ⟨text, inside, after, lexemes, hbody, hdecomposes, hobstructs, ?_⟩
      have hstart : (first source).pos = Position.start.capped := rfl
      have hplace : ((first source).nextAll config (Move.ofText (text ++ inside))).pos =
          (Position.start.afterText config.tabStop (text ++ inside)).capped :=
        Layout.nextAll_capped hstart _
      rw [← hplace, Move.ofText_append (Pieces.unsplit_of_prefix hinside text),
        Layout.nextAll_append]
      cases hanchored : fault.anchor with
      | pieceStart =>
          rw [hanchored] at hanchor
          rw [show inside = [] from hanchor]
          rfl
      | readEnd =>
          rw [hanchored] at hanchor
          rw [show inside = read from hanchor]

/-- Without limits, a source that has no tokens is malformed where its error is: the text before it
is made of pieces and then of the inside of one comment at most, and what follows is the cause. No
word begins before the place and goes on after it.

Lines are all counted in a short source, columns only up to the largest count. -/
theorem tokenize_error {config : LayoutConfig} (hlimits : config.limits = .unlimited)
    {source : List UInt8} (hlength : source.length < countMax) {hash : String → UInt32}
    {names : Interner hash} {e : LexicalError} (h : (tokenize config source names).1 = .error e) :
    ∃ before inside after lexemes, Reading.body source = encode (before ++ inside) ++ after ∧
      DecomposesBetween (encode inside ++ after) [] before lexemes ∧
      Obstructs inside after e.kind ∧ e.kind.isLimit = false ∧
      Unjoined (encode (before ++ inside)) after ∧
      e.pos.line = (Position.start.afterText config.tabStop (before ++ inside)).line ∧
      e.pos.column =
        min (Position.start.afterText config.tabStop (before ++ inside)).column countMax := by
  obtain ⟨before, inside, after, lexemes, hbody, hdecomposes, hobstructs, hpos⟩ :=
    Reading.exists_obstructs hlimits (tokenize_eq_error_iff.mp h)
  have hstart : Unjoined (encode []) (encode before ++ (encode inside ++ after)) :=
    fun _ hbyte => nomatch hbyte
  have hline : (Position.start.afterText config.tabStop (before ++ inside)).line ≤
      1 + (before ++ inside).length := Position.line_afterText_le .start _
  have hchars := length_le_encode (before ++ inside)
  have hbytes := Reading.length_body_le source
  rw [hbody, List.length_append] at hbytes
  refine ⟨before, inside, after, lexemes, hbody, hdecomposes, hobstructs, hobstructs.isLimit_eq,
    hobstructs.unjoined (hdecomposes.unjoined hstart), ?_, by rw [hpos]; rfl⟩
  rw [hpos]
  exact min_eq_left (by omega)

theorem tokenize_error_open_comment :
    [0x61, 0x20, 0x2F, 0x2A, 0x20, 0xFF].length < countMax ∧
    (tokenize ⟨8, .unlimited⟩ [0x61, 0x20, 0x2F, 0x2A, 0x20, 0xFF] .noNames).1 =
      .error ⟨.badEncoding, ⟨1, 6⟩⟩ ∧
    ∃ before inside after lexemes,
      Reading.body [0x61, 0x20, 0x2F, 0x2A, 0x20, 0xFF] = encode (before ++ inside) ++ after ∧
      DecomposesBetween (encode inside ++ after) [] before lexemes ∧
      Obstructs inside after .badEncoding ∧ LexicalFault.badEncoding.isLimit = false ∧
      Unjoined (encode (before ++ inside)) after ∧
      1 = (Position.start.afterText 8 (before ++ inside)).line ∧
      6 = min (Position.start.afterText 8 (before ++ inside)).column countMax := by
  have hlength : ([0x61, 0x20, 0x2F, 0x2A, 0x20, 0xFF] : List UInt8).length < countMax := by decide
  have hlimits : (⟨8, .unlimited⟩ : LayoutConfig).limits = .unlimited := rfl
  have herror : (tokenize ⟨8, .unlimited⟩ [0x61, 0x20, 0x2F, 0x2A, 0x20, 0xFF] .noNames).1 =
      .error ⟨.badEncoding, ⟨1, 6⟩⟩ := by
    decide +kernel
  exact ⟨hlength, herror, tokenize_error hlimits hlength herror⟩

/-- Two wide tabs lead further than columns are counted: where the error is reported, the rule of
positions has no place in front of the cause. -/
theorem tokenize_error_uncounted_column :
    ∃ e, (tokenize ⟨0xFFFFFFFF, .unlimited⟩ [0x09, 0x09, 0x23] .noNames).1 = .error e ∧
      e.kind = .unexpectedCharacter 0x23 ∧
      ∀ text after, [0x09, 0x09, 0x23] = encode text ++ after → utf8EncodeChar '#' <+: after →
        Position.start.afterText 0xFFFFFFFF text ≠ e.pos := by
  refine ⟨⟨.unexpectedCharacter 0x23, ⟨1, 0xFFFFFFFF⟩⟩, by decide +kernel, rfl, ?_⟩
  rintro text after hsource ⟨rest, rfl⟩
  have hmark : utf8EncodeChar '#' = [0x23] := by decide
  rw [hmark] at hsource
  have htabs : encode text = encode ['\t', '\t'] := by
    generalize encode text = bytes at hsource
    rcases bytes with _ | ⟨first, _ | ⟨second, _ | ⟨third, bytes⟩⟩⟩
    · simp at hsource
    · simp at hsource
    · simp only [List.cons_append, List.cons.injEq] at hsource
      rw [← hsource.1, ← hsource.2.1]
      rfl
    · simp at hsource
  rw [encode_injective htabs]
  decide

end FrontEnd
