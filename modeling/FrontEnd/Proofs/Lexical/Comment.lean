import FrontEnd.Proofs.Text.Utf8
import FrontEnd.Proofs.Lexical.Grammar

/-! # Comments are read to their end

The readers of comments stop exactly where the grammar lets a comment end. -/

namespace FrontEnd.Comment

open String (utf8EncodeChar)
open LexicalGrammar

/-! ## Characters -/

theorem characterWidth_eq_ok_iff {bytes : List UInt8} {n : Nat} :
    characterWidth bytes = .ok n ↔
      ∃ char rest, bytes = utf8EncodeChar char ++ rest ∧ char ≠ '\x00' ∧
        n = (utf8EncodeChar char).length := by
  constructor
  · intro h
    unfold characterWidth at h
    split at h
    · cases h
    · rename_i code width hdecode
      obtain ⟨char, rfl, rfl, rest, rfl⟩ := Utf8.decode_eq_some_iff.mp hdecode
      split at h
      · cases h
      · rename_i hzero
        cases h
        exact ⟨char, rest, rfl, fun hchar => hzero (by rw [hchar]; rfl), rfl⟩
  · rintro ⟨char, rest, rfl, hzero, rfl⟩
    have hcode : char.toNat ≠ 0 := fun h => hzero (Char.toNat_inj.mp h)
    simp [characterWidth, Utf8.decode_encode, hcode]

/-- A text starts with one character at most. -/
theorem encode_append_inj {char other : Char} {rest after : List UInt8}
    (h : utf8EncodeChar char ++ rest = utf8EncodeChar other ++ after) :
    char = other ∧ rest = after := by
  have hdecode := Utf8.decode_encode char rest
  rw [h, Utf8.decode_encode] at hdecode
  simp only [Option.some.injEq, Prod.mk.injEq, Char.toNat_inj] at hdecode
  obtain ⟨rfl, -⟩ := hdecode
  exact ⟨rfl, List.append_cancel_left h⟩

/-- The readers look at one byte before the others. -/
theorem drop_of_cons_eq_append {byte : UInt8} {rest text after : List UInt8}
    (h : byte :: rest = text ++ after) (htext : text ≠ []) :
    rest.drop (text.length - 1) = after := by
  cases text with
  | nil => exact absurd rfl htext
  | cons head tail =>
      obtain ⟨-, rfl⟩ := List.cons.inj h
      simp

theorem encodeChar_ne_nil (char : Char) : utf8EncodeChar char ≠ [] := by
  intro h
  have hlength := String.length_utf8EncodeChar char
  have hpos := char.utf8Size_pos
  rw [h, List.length_nil] at hlength
  omega

theorem encodeChar_lineFeed : utf8EncodeChar '\n' = [0x0A] := by decide

theorem encodeChar_carriageReturn : utf8EncodeChar '\r' = [0x0D] := by decide

/-- A line ends at a character exactly if it is a line feed or a carriage return. -/
theorem isLineEnd_iff_of_encode {char : Char} {byte : UInt8} {rest after : List UInt8}
    (h : byte :: rest = utf8EncodeChar char ++ after) :
    isLineEnd byte = true ↔ char = '\n' ∨ char = '\r' := by
  simp only [isLineEnd, Bool.or_eq_true, decide_eq_true_eq]
  constructor
  · rintro (rfl | rfl)
    · rw [← List.singleton_append, ← encodeChar_lineFeed] at h
      exact .inl (encode_append_inj h).1.symm
    · rw [← List.singleton_append, ← encodeChar_carriageReturn] at h
      exact .inr (encode_append_inj h).1.symm
  · rintro (rfl | rfl)
    · rw [encodeChar_lineFeed] at h
      exact .inl (List.cons.inj h).1
    · rw [encodeChar_carriageReturn] at h
      exact .inr (List.cons.inj h).1

/-! ## Line comments -/

theorem encode_cons (char : Char) (text : List Char) :
    encode (char :: text) = utf8EncodeChar char ++ encode text := rfl

theorem lineEnd_encode {text : List Char}
    (htext : ∀ char ∈ text, char ≠ '\x00' ∧ char ≠ '\n' ∧ char ≠ '\r') {after : List UInt8}
    (hend : LineEnds after) (read : Nat) :
    lineEnd read (encode text ++ after) = .ok (read + (encode text).length) := by
  induction text generalizing read with
  | nil =>
      cases after with
      | nil => simp [encode, lineEnd]
      | cons byte rest =>
          have hbyte : isLineEnd byte = true := by
            simpa [isLineEnd] using hend byte rfl
          simp [encode, lineEnd, hbyte]
  | cons char text ih =>
      obtain ⟨⟨hzero, hfeed, hreturn⟩, hrest⟩ := List.forall_mem_cons.mp htext
      have hih := ih hrest (read + (utf8EncodeChar char).length)
      cases hbytes : utf8EncodeChar char ++ (encode text ++ after) with
      | nil => exact absurd (List.append_eq_nil_iff.mp hbytes).1 (encodeChar_ne_nil char)
      | cons byte rest =>
          have hnot : ¬ isLineEnd byte = true := by
            rw [isLineEnd_iff_of_encode hbytes.symm]
            simp [hfeed, hreturn]
          have hwidth : characterWidth (byte :: rest) = .ok (utf8EncodeChar char).length :=
            characterWidth_eq_ok_iff.mpr ⟨char, _, hbytes.symm, hzero, rfl⟩
          rw [encode_cons, List.append_assoc, hbytes, lineEnd, if_neg hnot, hwidth]
          simp only [drop_of_cons_eq_append hbytes.symm (encodeChar_ne_nil char), hih,
            List.length_append, Nat.add_assoc]

theorem lineEnd_eq_ok_iff {read stop : Nat} {bytes : List UInt8} :
    lineEnd read bytes = .ok stop ↔
      ∃ text after, bytes = encode text ++ after ∧
        (∀ char ∈ text, char ≠ '\x00' ∧ char ≠ '\n' ∧ char ≠ '\r') ∧
        LineEnds after ∧ stop = read + (encode text).length := by
  constructor
  · fun_induction lineEnd read bytes with
    | case1 read =>
        intro h
        cases h
        exact ⟨[], [], rfl, by simp, by simp [LineEnds], rfl⟩
    | case2 read byte rest hend =>
        intro h
        cases h
        refine ⟨[], byte :: rest, rfl, by simp, ?_, rfl⟩
        intro _ hhead
        cases hhead
        simpa [isLineEnd] using hend
    | case3 read byte rest hend kind hwidth => intro h; cases h
    | case4 read byte rest hend n hwidth ih =>
        intro h
        obtain ⟨char, tail, hbytes, hzero, rfl⟩ := characterWidth_eq_ok_iff.mp hwidth
        rw [drop_of_cons_eq_append hbytes (encodeChar_ne_nil char)] at ih h
        obtain ⟨text, after, rfl, htext, hafter, rfl⟩ := ih h
        rw [isLineEnd_iff_of_encode hbytes, not_or] at hend
        refine ⟨char :: text, after, ?_, ?_, hafter, ?_⟩
        · rw [hbytes, encode_cons, List.append_assoc]
        · exact List.forall_mem_cons.mpr ⟨⟨hzero, hend⟩, htext⟩
        · rw [encode_cons, List.length_append, Nat.add_assoc]
  · rintro ⟨text, after, rfl, htext, hend, rfl⟩
    exact lineEnd_encode htext hend read

/-! ## Block comments -/

theorem two_le_length_of_inBlock {enclosing : Nat} {text : List UInt8}
    (h : InBlock enclosing text) : 2 ≤ text.length := by
  induction h with
  | close => exact Nat.le_refl 2
  | leave _ ih => simp [closing]
  | enter _ ih => simp [opening]
  | character char _ _ _ _ ih => simp; omega

/-- What comes after a comment does not decide where a mark stands in it. -/
theorem pair_prefix_iff {a b : UInt8} {text : List UInt8} (h : 2 ≤ text.length)
    (after : List UInt8) : [a, b] <+: text ++ after ↔ [a, b] <+: text := by
  match text with
  | first :: second :: rest => simp [List.cons_prefix_cons]

theorem blockEnd_character {enclosing read : Nat} {char : Char} {rest : List UInt8}
    (hzero : char ≠ '\x00') (hopening : ¬ opening <+: utf8EncodeChar char ++ rest)
    (hclosing : ¬ closing <+: utf8EncodeChar char ++ rest) :
    blockEnd enclosing read (utf8EncodeChar char ++ rest) =
      blockEnd enclosing (read + (utf8EncodeChar char).length) rest := by
  cases hbytes : utf8EncodeChar char ++ rest with
  | nil => exact absurd (List.append_eq_nil_iff.mp hbytes).1 (encodeChar_ne_nil char)
  | cons byte tail =>
      have hwidth : characterWidth (byte :: tail) = .ok (utf8EncodeChar char).length :=
        characterWidth_eq_ok_iff.mpr ⟨char, rest, hbytes.symm, hzero, rfl⟩
      rw [hbytes] at hopening hclosing
      rw [blockEnd, hwidth]
      · simp only [drop_of_cons_eq_append hbytes.symm (encodeChar_ne_nil char)]
      · rintro after rfl rfl
        exact hopening ⟨after, rfl⟩
      · rintro after rfl rfl
        exact hclosing ⟨after, rfl⟩

theorem blockEnd_of_inBlock {enclosing : Nat} {text : List UInt8} (h : InBlock enclosing text)
    (read : Nat) (after : List UInt8) :
    blockEnd enclosing read (text ++ after) = .ok (read + text.length) := by
  induction h generalizing read with
  | close => simp [closing, blockEnd]
  | leave _ ih =>
      simp only [closing, List.cons_append, List.nil_append, blockEnd, ih, List.length_cons]
      congr 1
      omega
  | enter _ ih =>
      simp only [opening, List.cons_append, List.nil_append, blockEnd, ih, List.length_cons]
      congr 1
      omega
  | character char hzero hopening hclosing hrest ih =>
      have hlength := two_le_length_of_inBlock (.character char hzero hopening hclosing hrest)
      rw [opening, ← pair_prefix_iff hlength after, List.append_assoc] at hopening
      rw [closing, ← pair_prefix_iff hlength after, List.append_assoc] at hclosing
      rw [List.append_assoc, blockEnd_character hzero hopening hclosing, ih, List.length_append,
        Nat.add_assoc]

theorem blockEnd_eq_ok_iff {enclosing read stop : Nat} {bytes : List UInt8} :
    blockEnd enclosing read bytes = .ok stop ↔
      ∃ text after, bytes = text ++ after ∧ InBlock enclosing text ∧
        stop = read + text.length := by
  constructor
  · fun_induction blockEnd enclosing read bytes with
    | case1 => intro h; cases h
    | case2 enclosing read rest ih =>
        intro h
        obtain ⟨text, after, rfl, hblock, rfl⟩ := ih h
        exact ⟨opening ++ text, after, rfl, .enter hblock, by simp [opening]; omega⟩
    | case3 read rest =>
        intro h
        cases h
        exact ⟨closing, rest, rfl, .close, rfl⟩
    | case4 read rest enclosing ih =>
        intro h
        obtain ⟨text, after, rfl, hblock, rfl⟩ := ih h
        exact ⟨closing ++ text, after, rfl, .leave hblock, by simp [closing]; omega⟩
    | case5 => intro h; cases h
    | case6 enclosing read byte rest hopening hclosing n hwidth ih =>
        intro h
        obtain ⟨char, tail, hbytes, hzero, rfl⟩ := characterWidth_eq_ok_iff.mp hwidth
        rw [drop_of_cons_eq_append hbytes (encodeChar_ne_nil char)] at ih h
        obtain ⟨text, after, rfl, hblock, rfl⟩ := ih h
        refine ⟨utf8EncodeChar char ++ text, after, ?_, ?_, ?_⟩
        · rw [hbytes, List.append_assoc]
        · refine .character char hzero ?_ ?_ hblock
          · rintro ⟨more, hmore⟩
            rw [← List.append_assoc, ← hmore] at hbytes
            exact hopening _ (List.cons.inj hbytes).1 (List.cons.inj hbytes).2
          · rintro ⟨more, hmore⟩
            rw [← List.append_assoc, ← hmore] at hbytes
            exact hclosing _ (List.cons.inj hbytes).1 (List.cons.inj hbytes).2
        · rw [List.length_append, Nat.add_assoc]
  · rintro ⟨text, after, rfl, hblock, rfl⟩
    exact blockEnd_of_inBlock hblock read after

end FrontEnd.Comment
