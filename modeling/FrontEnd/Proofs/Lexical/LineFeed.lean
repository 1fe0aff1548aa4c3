import FrontEnd.Proofs.Lexical.Piece
import Mathlib.Data.List.Find

/-! # A line feed ends what is read before it

No reader looks over a line feed: a source that goes on after one is cut up to it as the part
before is, unless a block comment is open there. -/

namespace FrontEnd

/-! ## Characters -/

theorem isPrefixOf_lineFeed {mark : List UInt8} (hmark : 0x0A ∉ mark) (bytes more : List UInt8) :
    mark.isPrefixOf (bytes ++ 0x0A :: more) = mark.isPrefixOf bytes := by
  induction mark generalizing bytes with
  | nil => simp
  | cons first mark ih =>
      rw [List.mem_cons, not_or] at hmark
      cases bytes with
      | nil =>
          have hfirst : (first == 0x0A) = false := by simpa using hmark.1 ∘ Eq.symm
          simp [List.isPrefixOf, hfirst]
      | cons byte bytes => simp [List.isPrefixOf, ih hmark.2]

theorem takeWhile_isWordByte_lineFeed (bytes more : List UInt8) :
    (bytes ++ 0x0A :: more).takeWhile isWordByte = bytes.takeWhile isWordByte := by
  have hfeed : isWordByte 0x0A = false := by decide
  induction bytes with
  | nil => simp [hfeed]
  | cons byte bytes ih =>
      rw [List.cons_append, List.takeWhile_cons, List.takeWhile_cons, ih]

namespace Utf8

/-- A character that is not all there is not completed by a line feed. -/
theorem decode_lineFeed {bytes : List UInt8} (h : bytes ≠ []) (more : List UInt8) :
    decode (bytes ++ 0x0A :: more) = decode bytes := by
  cases bytes with
  | nil => exact absurd rfl h
  | cons lead rest =>
      rw [List.cons_append, decode, decode]
      split
      · rfl
      · dsimp only
        by_cases hshort : width lead - 1 ≤ rest.length
        · rw [List.take_append_of_le_length hshort]
        · have hfeed : (0x0A : UInt8) ∈ (rest ++ 0x0A :: more).take (width lead - 1) := by
            rw [List.mem_take_iff_getElem]
            refine ⟨rest.length, ?_, by simp⟩
            simp only [List.length_append, List.length_cons]
            omega
          have hleft :
              ((rest ++ 0x0A :: more).take (width lead - 1)).all isContinuation = false := by
            rw [List.all_eq_false]
            exact ⟨_, hfeed, by decide⟩
          have hright : ¬ (rest.take (width lead - 1)).length + 1 = width lead := by
            rw [List.length_take]
            omega
          simp only [hleft, hright, Bool.false_eq_true, false_and, and_false, if_false]

end Utf8

namespace Comment

theorem characterWidth_lineFeed {bytes : List UInt8} (h : bytes ≠ []) (more : List UInt8) :
    characterWidth (bytes ++ 0x0A :: more) = characterWidth bytes := by
  rw [characterWidth, characterWidth, Utf8.decode_lineFeed h]

/-- The bytes of a character are there. -/
theorem le_length_of_characterWidth {bytes : List UInt8} {n : Nat}
    (h : characterWidth bytes = .ok n) : n ≤ bytes.length := by
  obtain ⟨char, rest, rfl, -, rfl⟩ := characterWidth_eq_ok_iff.mp h
  simp

theorem lineEnd_lineFeed (read : Nat) (bytes more : List UInt8) :
    lineEnd read (bytes ++ 0x0A :: more) = lineEnd read bytes := by
  fun_induction lineEnd read bytes with
  | case1 read => simp [lineEnd, isLineEnd]
  | case2 read byte rest hend => rw [List.cons_append, lineEnd, if_pos hend]
  | case3 read byte rest hend kind hwidth =>
      rw [← characterWidth_lineFeed (List.cons_ne_nil _ _) more] at hwidth
      rw [List.cons_append] at hwidth ⊢
      rw [lineEnd, if_neg hend, hwidth]
  | case4 read byte rest hend n hwidth ih =>
      have hlength := le_length_of_characterWidth hwidth
      rw [List.length_cons] at hlength
      rw [← characterWidth_lineFeed (List.cons_ne_nil _ _) more] at hwidth
      rw [List.cons_append] at hwidth ⊢
      rw [lineEnd, if_neg hend, hwidth]
      simp only [List.drop_append_of_le_length (by omega : n - 1 ≤ rest.length), ih]

/-- A line feed is not the second byte of a mark. -/
theorem not_mark_lineFeed {byte first second : UInt8} {rest more after : List UInt8}
    (h : ∀ after, byte = first → rest = second :: after → False) (hbyte : byte = first)
    (hsecond : second ≠ 0x0A) : rest ++ 0x0A :: more ≠ second :: after := by
  intro hrest
  cases rest with
  | nil => exact hsecond (List.cons.inj hrest).1.symm
  | cons next rest => exact h rest hbyte (by rw [(List.cons.inj hrest).1])

/-- Where a comment is not left open, it ends or fails at the same place. -/
theorem blockEnd_lineFeed {enclosing read : Nat} {bytes : List UInt8}
    (h : ∀ fault, blockEnd enclosing read bytes = .error fault →
      fault.kind ≠ .unclosedBlockComment) (more : List UInt8) :
    blockEnd enclosing read (bytes ++ 0x0A :: more) = blockEnd enclosing read bytes := by
  fun_induction blockEnd enclosing read bytes with
  | case1 => exact absurd rfl (h _ rfl)
  | case2 enclosing read rest ih =>
      rw [List.cons_append, List.cons_append, blockEnd]
      exact ih h
  | case3 => rw [List.cons_append, List.cons_append, blockEnd]
  | case4 read rest enclosing ih =>
      rw [List.cons_append, List.cons_append, blockEnd]
      exact ih h
  | case5 enclosing read byte rest hopening hclosing kind hwidth =>
      rw [← characterWidth_lineFeed (List.cons_ne_nil _ _) more] at hwidth
      rw [List.cons_append] at hwidth ⊢
      rw [blockEnd, hwidth]
      · exact fun after hbyte hrest => not_mark_lineFeed hopening hbyte (by decide) hrest
      · exact fun after hbyte hrest => not_mark_lineFeed hclosing hbyte (by decide) hrest
  | case6 enclosing read byte rest hopening hclosing n hwidth ih =>
      have hlength := le_length_of_characterWidth hwidth
      rw [List.length_cons] at hlength
      rw [← characterWidth_lineFeed (List.cons_ne_nil _ _) more] at hwidth
      rw [List.cons_append] at hwidth ⊢
      rw [blockEnd, hwidth]
      · simp only [List.drop_append_of_le_length (by omega : n - 1 ≤ rest.length)]
        exact ih h
      · exact fun after hbyte hrest => not_mark_lineFeed hopening hbyte (by decide) hrest
      · exact fun after hbyte hrest => not_mark_lineFeed hclosing hbyte (by decide) hrest

/-! ### Where a fault shows -/

theorem read_le_of_lineEnd {read : Nat} {bytes : List UInt8} {fault : ReadFault}
    (h : lineEnd read bytes = .error fault) : fault.read ≤ read + bytes.length := by
  fun_induction lineEnd read bytes with
  | case1 => cases h
  | case2 => cases h
  | case3 =>
      cases h
      exact Nat.le_add_right _ _
  | case4 read byte rest hend n hwidth ih =>
      have hlength := le_length_of_characterWidth hwidth
      have hrest := ih h
      simp only [List.length_drop, List.length_cons] at hlength hrest ⊢
      omega

theorem read_le_of_blockEnd {enclosing read : Nat} {bytes : List UInt8} {fault : ReadFault}
    (h : blockEnd enclosing read bytes = .error fault) : fault.read ≤ read + bytes.length := by
  fun_induction blockEnd enclosing read bytes with
  | case1 =>
      cases h
      exact Nat.le_add_right _ _
  | case2 enclosing read rest ih =>
      have hrest := ih h
      simp only [List.length_cons]
      omega
  | case3 => cases h
  | case4 read rest enclosing ih =>
      have hrest := ih h
      simp only [List.length_cons]
      omega
  | case5 =>
      cases h
      exact Nat.le_add_right _ _
  | case6 enclosing read byte rest hopening hclosing n hwidth ih =>
      have hlength := le_length_of_characterWidth hwidth
      have hrest := ih h
      simp only [List.length_drop, List.length_cons] at hlength hrest ⊢
      omega

end Comment

namespace Number

theorem read_le_of_digitsFrom {radix : Nat} {afterDigit : Bool} {read stop : Nat}
    {digits bytes : List UInt8} (h : digitsFrom radix afterDigit read digits bytes = .error stop) :
    stop ≤ read + bytes.length := by
  fun_induction digitsFrom radix afterDigit read digits bytes with
  | case1 => cases h
  | case2 =>
      cases h
      exact Nat.le_add_right _ _
  | case3 _ _ _ ih =>
      have hrest := ih h
      simp only [List.length_cons]
      omega
  | case4 =>
      cases h
      exact Nat.le_add_right _ _
  | case5 afterDigit read digits byte rest _ _ ih =>
      have hrest := ih h
      simp only [List.length_cons]
      omega
  | case6 =>
      cases h
      exact Nat.le_add_right _ _

theorem read_le_of_readDigits {radix skip : Nat} {bytes : List UInt8} {fault : ReadFault}
    (h : readDigits radix skip bytes = .error fault) : fault.read ≤ skip + bytes.length := by
  unfold readDigits at h
  split at h
  · cases h
  · rename_i stop hstop
    cases h
    exact read_le_of_digitsFrom hstop

theorem read_le_of_read {word : List UInt8} {fault : ReadFault} (h : read word = .error fault) :
    fault.read ≤ word.length := by
  unfold read at h
  split at h
  · cases h
  · rename_i mark digits
    split at h
    · have hread := read_le_of_readDigits h
      simp only [List.length_cons]
      omega
    · split at h
      · have hread := read_le_of_readDigits h
        simp only [List.length_cons]
        omega
      · cases h
        exact Nat.zero_le _
  · have hread := read_le_of_readDigits h
    omega

end Number

/-! ## Pieces -/

theorem Symbol.longest?_lineFeed (bytes more : List UInt8) :
    Symbol.longest? (bytes ++ 0x0A :: more) = Symbol.longest? bytes := by
  have hsymbols : ∀ s : Symbol, 0x0A ∉ s.bytes := by
    intro s
    cases s <;> decide
  have hsame : ∀ entry ∈ longestFirst,
      entry.2.isPrefixOf (bytes ++ 0x0A :: more) = entry.2.isPrefixOf bytes := by
    intro entry hentry
    rw [bytes_of_mem_longestFirst entry hentry]
    exact isPrefixOf_lineFeed (hsymbols _) bytes more
  exact List.find?_congr hsame

namespace PieceEnd

variable {byte : UInt8} {rest : List UInt8}

theorem head?_lineFeed {mark : UInt8} (hmark : mark ≠ 0x0A) (rest more : List UInt8) :
    (rest ++ 0x0A :: more).head? = some mark ↔ rest.head? = some mark := by
  cases rest with
  | nil => simpa using hmark.symm
  | cons next rest => simp

/-- Only a comment that is left open and a carriage return see that the source goes on. -/
theorem find_lineFeed (hreturn : byte = 0x0D → rest ≠ [])
    (h : ∀ fault, find byte rest = .error fault → fault.kind ≠ .unclosedBlockComment)
    (more : List UInt8) : find byte (rest ++ 0x0A :: more) = find byte rest := by
  by_cases hblank : byte = 0x20 ∨ byte = 0x09 ∨ byte = 0x0A
  · rw [find_blank hblank, find_blank hblank]
  by_cases hcarriage : byte = 0x0D
  · subst hcarriage
    cases rest with
    | nil => exact absurd rfl (hreturn rfl)
    | cons next rest => rw [List.cons_append, find_carriageReturn, find_carriageReturn]; simp
  by_cases hline : byte = 0x2F ∧ rest.head? = some 0x2F
  · obtain ⟨rfl, hhead⟩ := hline
    obtain ⟨tail, rfl⟩ := List.head?_eq_some_iff.mp hhead
    rw [List.cons_append, find_lineComment, find_lineComment, Comment.lineEnd_lineFeed]
  by_cases hblock : byte = 0x2F ∧ rest.head? = some 0x2A
  · obtain ⟨rfl, hhead⟩ := hblock
    obtain ⟨tail, rfl⟩ := List.head?_eq_some_iff.mp hhead
    rw [find_blockComment] at h
    rw [List.cons_append, find_blockComment, find_blockComment, Comment.blockEnd_lineFeed]
    intro fault hfault
    exact h fault (by rw [hfault]; rfl)
  by_cases hstart : isWordStart byte = true
  · rw [find_word hstart, find_word hstart, takeWhile_isWordByte_lineFeed]
  by_cases hdigit : Number.isDigit byte = true
  · rw [find_number hdigit, find_number hdigit, takeWhile_isWordByte_lineFeed]
  have hline' := hline
  have hblock' := hblock
  rw [← head?_lineFeed (by decide) rest more] at hline' hblock'
  rw [find, find, if_neg hblank, if_neg hblank, if_neg hcarriage, if_neg hcarriage, if_neg hline',
    if_neg hline, if_neg hblock', if_neg hblock, if_neg hstart, if_neg hstart, if_neg hdigit,
    if_neg hdigit, ← List.cons_append, Symbol.longest?_lineFeed,
    Utf8.decode_lineFeed (List.cons_ne_nil _ _)]

/-! ### Where a fault shows -/

/-- A fault in a piece shows before the end of the source. -/
theorem read_le_of_find {fault : ReadFault} (h : find byte rest = .error fault) :
    fault.read ≤ rest.length + 1 := by
  unfold find at h
  split at h
  · cases h
  split at h
  · cases h
  split at h
  · rename_i hmark
    obtain ⟨tail, rfl⟩ := List.head?_eq_some_iff.mp hmark.2
    cases hread : Comment.lineEnd 2 tail with
    | ok stop =>
        rw [List.tail_cons, hread] at h
        cases h
    | error found =>
        have hle := Comment.read_le_of_lineEnd hread
        rw [List.tail_cons, hread] at h
        cases h
        rw [List.length_cons]
        omega
  split at h
  · rename_i hmark
    obtain ⟨tail, rfl⟩ := List.head?_eq_some_iff.mp hmark.2
    cases hread : Comment.blockEnd 0 2 tail with
    | ok stop =>
        rw [List.tail_cons, hread] at h
        cases h
    | error found =>
        have hle := Comment.read_le_of_blockEnd hread
        rw [List.tail_cons, hread] at h
        cases h
        rw [List.length_cons]
        omega
  split at h
  · cases h
  split at h
  · cases hread : Number.read (byte :: rest.takeWhile isWordByte) with
    | ok value =>
        simp only [hread] at h
        cases h
    | error found =>
        have hle := Number.read_le_of_read hread
        have hword : (rest.takeWhile isWordByte).length ≤ rest.length :=
          (List.takeWhile_prefix isWordByte).length_le
        simp only [hread] at h
        cases h
        rw [List.length_cons] at hle
        omega
  split at h
  · cases h
  · split at h <;> cases h <;> exact Nat.zero_le _

end PieceEnd

/-- A piece stays one where the source goes on after a line feed. -/
theorem IsPiece.lineFeed {text rest : List UInt8} {lexeme? : Option Lexeme}
    (h : IsPiece text rest lexeme?) (hend : (text ++ rest).getLast? ≠ some 0x0D)
    (more : List UInt8) : IsPiece text (rest ++ 0x0A :: more) lexeme? := by
  cases text with
  | nil => exact absurd rfl (ne_nil_of_isPiece h)
  | cons byte tail =>
      have hfind : PieceEnd.find byte (tail ++ rest) = .ok ⟨(byte :: tail).length, lexeme?⟩ :=
        (PieceEnd.find_eq_ok_iff rfl).mpr h
      have hreturn : byte = 0x0D → tail ++ rest ≠ [] := by
        rintro rfl hnil
        rw [List.cons_append, hnil] at hend
        exact hend rfl
      have hclosed : ∀ fault, PieceEnd.find byte (tail ++ rest) = .error fault →
          fault.kind ≠ .unclosedBlockComment := by
        intro fault hfault
        rw [hfind] at hfault
        cases hfault
      have hsame := PieceEnd.find_lineFeed hreturn hclosed more
      refine (PieceEnd.find_eq_ok_iff ?_).mp (hsame.trans hfind)
      rw [List.append_assoc]
      rfl

namespace Pieces

variable {source : List UInt8}

theorem read_le_of_fault {fault : ReadFault} (h : (ofSource source).fault? = some fault) :
    fault.read ≤ (ofSource source).remaining.length := by
  induction source using Pieces.induction with
  | nil => simp at h
  | fault byte rest found hfind =>
      rw [ofSource_cons_of_error hfind] at h ⊢
      cases h
      exact PieceEnd.read_le_of_find hfind
  | piece text rest lexeme? hpiece ih =>
      rw [ofSource_append hpiece] at h ⊢
      exact ih h

/-- The pieces that a source has before a line feed are those that it has on its own, and a fault
other than an open comment is found at the same place. -/
theorem ofSource_lineFeed (hend : source.getLast? ≠ some 0x0D)
    (hclosed : ∀ fault, (ofSource source).fault? = some fault →
      fault.kind ≠ .unclosedBlockComment) (more : List UInt8) :
    ofSource (source ++ 0x0A :: more) =
      match (ofSource source).fault? with
      | none => (ofSource more).after ((ofSource source).pieces ++ [⟨[0x0A], none⟩])
      | some fault =>
        ⟨(ofSource source).pieces, (ofSource source).remaining ++ 0x0A :: more, some fault⟩ := by
  induction source using Pieces.induction with
  | nil =>
      have hfeed : IsPiece [0x0A] more none := ⟨.lineFeed more, by simp⟩
      simpa using ofSource_append hfeed
  | fault byte rest found hfind =>
      have hcut := ofSource_cons_of_error hfind
      have hreturn : byte = 0x0D → rest ≠ [] := by
        rintro rfl rfl
        exact hend rfl
      rw [hcut] at hclosed
      have hfound : ∀ fault, PieceEnd.find byte rest = .error fault →
          fault.kind ≠ .unclosedBlockComment := by
        intro fault hfault
        obtain rfl := Except.error.inj (hfind.symm.trans hfault)
        exact hclosed _ rfl
      have hsame := PieceEnd.find_lineFeed hreturn hfound more
      rw [hcut, List.cons_append, ofSource_cons_of_error (hsame.trans hfind)]
  | piece text rest lexeme? hpiece ih =>
      have hlonger := hpiece.lineFeed hend more
      rw [ofSource_append hpiece] at hclosed ⊢
      rw [List.append_assoc, ofSource_append hlonger, ih ?_ hclosed]
      · cases hfault : (ofSource rest).fault? <;> simp [after, hfault]
      · intro hlast
        refine hend ?_
        rw [List.getLast?_append, hlast]
        rfl

end Pieces

end FrontEnd
