import FrontEnd.Proofs.Lexical.Nesting
import Mathlib.Order.Bounds.Basic

/-! # Marks of comments

The pairs of bytes that open and close block comments, taken from left to right without overlap. A
block comment ends where there are for the first time as many of one kind as of the other. -/

namespace FrontEnd

open String (utf8EncodeChar)
open LexicalGrammar

namespace Comment

inductive Mark where
  | opens
  | closes
deriving DecidableEq

/-- The marks in some bytes, each with the number of bytes up to its end, some of them already
read. -/
def marks (read : Nat) : List UInt8 → List (Mark × Nat)
  | [] => []
  | 0x2F :: 0x2A :: rest => (.opens, read + 2) :: marks (read + 2) rest
  | 0x2A :: 0x2F :: rest => (.closes, read + 2) :: marks (read + 2) rest
  | _ :: rest => marks (read + 1) rest

/-- A closing that ends somewhere makes up for all openings before it and for some more. -/
def Levels (depth : Nat) (marks : List (Mark × Nat)) (stop : Nat) : Prop :=
  ∃ first later, marks = first ++ (.closes, stop) :: later ∧
    (first.map Prod.fst).count .closes + 1 = (first.map Prod.fst).count .opens + depth

/-- What a block comment could take of the bytes that it starts: as much as there is before its
closings level its openings, or everything. -/
def Extent (bytes inside : List UInt8) : Prop :=
  (∃ stop, IsLeast {stop | Levels 0 (marks 0 bytes) stop} stop ∧ inside = bytes.take stop) ∨
    (∀ stop, ¬ Levels 0 (marks 0 bytes) stop) ∧ inside = bytes

/-! ## Marks -/

variable {read stop depth : Nat} {rest : List UInt8}

theorem marks_opening :
    marks read (opening ++ rest) = (.opens, read + 2) :: marks (read + 2) rest := rfl

theorem marks_closing :
    marks read (closing ++ rest) = (.closes, read + 2) :: marks (read + 2) rest := rfl

theorem marks_cons {byte : UInt8} (hopening : ¬ opening <+: byte :: rest)
    (hclosing : ¬ closing <+: byte :: rest) :
    marks read (byte :: rest) = marks (read + 1) rest := by
  rw [marks]
  · rintro tail rfl rfl
    exact hopening ⟨tail, rfl⟩
  · rintro tail rfl rfl
    exact hclosing ⟨tail, rfl⟩

theorem marks_append_of_not_mem {text : List UInt8} (h : 0x2F ∉ text ∧ 0x2A ∉ text) :
    marks read (text ++ rest) = marks (read + text.length) rest := by
  induction text generalizing read with
  | nil => rfl
  | cons byte text ih =>
      simp only [List.mem_cons, not_or] at h
      rw [List.cons_append, marks_cons, ih ⟨h.1.2, h.2.2⟩, List.length_cons]
      · congr 1
        omega
      · exact fun hopening => h.1.1 (List.cons_prefix_cons.mp hopening).1
      · exact fun hclosing => h.2.1 (List.cons_prefix_cons.mp hclosing).1

/-- There is no mark inside of a character. -/
theorem marks_character {char : Char} (hopening : ¬ opening <+: utf8EncodeChar char ++ rest)
    (hclosing : ¬ closing <+: utf8EncodeChar char ++ rest) :
    marks read (utf8EncodeChar char ++ rest) =
      marks (read + (utf8EncodeChar char).length) rest := by
  by_cases hslash : 0x2F ∈ utf8EncodeChar char
  · obtain rfl := (mem_encodeChar_iff (by decide)).mp hslash
    exact marks_cons hopening hclosing
  by_cases hstar : 0x2A ∈ utf8EncodeChar char
  · obtain rfl := (mem_encodeChar_iff (by decide)).mp hstar
    exact marks_cons hopening hclosing
  · exact marks_append_of_not_mem ⟨hslash, hstar⟩

theorem le_of_mem_marks {bytes : List UInt8} {mark : Mark × Nat} (h : mark ∈ marks read bytes) :
    read + 2 ≤ mark.2 := by
  fun_induction marks read bytes with
  | case1 read => cases h
  | case2 read rest ih =>
      rcases List.mem_cons.mp h with rfl | h
      · exact le_rfl
      · exact (Nat.le_add_right _ 2).trans (ih h)
  | case3 read rest ih =>
      rcases List.mem_cons.mp h with rfl | h
      · exact le_rfl
      · exact (Nat.le_add_right _ 2).trans (ih h)
  | case4 read byte rest _ _ ih => exact (Nat.le_succ _).trans (ih h)

/-! ## Levels -/

theorem not_levels_nil : ¬ Levels depth [] stop := by
  rintro ⟨first, later, hmarks, -⟩
  cases first <;> cases hmarks

theorem levels_opens {place : Nat} {marks : List (Mark × Nat)} :
    Levels depth ((.opens, place) :: marks) stop ↔ Levels (depth + 1) marks stop := by
  constructor
  · rintro ⟨first, later, hmarks, hcount⟩
    cases first with
    | nil => cases hmarks
    | cons mark first =>
        cases hmarks
        refine ⟨first, later, rfl, ?_⟩
        simp at hcount
        omega
  · rintro ⟨first, later, rfl, hcount⟩
    refine ⟨(.opens, place) :: first, later, rfl, ?_⟩
    simp
    omega

theorem levels_closes {place : Nat} {marks : List (Mark × Nat)} :
    Levels (depth + 1 + 1) ((.closes, place) :: marks) stop ↔ Levels (depth + 1) marks stop := by
  constructor
  · rintro ⟨first, later, hmarks, hcount⟩
    cases first with
    | nil =>
        simp at hcount
    | cons mark first =>
        cases hmarks
        refine ⟨first, later, rfl, ?_⟩
        simp at hcount
        omega
  · rintro ⟨first, later, rfl, hcount⟩
    refine ⟨(.closes, place) :: first, later, rfl, ?_⟩
    simp
    omega

theorem le_of_levels {bytes : List UInt8} (h : Levels depth (marks read bytes) stop) :
    read + 2 ≤ stop := by
  obtain ⟨first, later, hmarks, -⟩ := h
  have hmem : (Mark.closes, stop) ∈ marks read bytes := by simp [hmarks]
  exact le_of_mem_marks hmem

end Comment

/-! ## Comments -/

namespace LexicalGrammar

open Comment

variable {after : List UInt8} {first last read stop : Nat} {text : List Char}

/-- Inside of a comment, what levels it does so behind the text that is read. -/
theorem Nests.levels_iff (h : Nests after first text last) :
    Levels (first + 1) (marks read (encode text ++ after)) stop ↔
      Levels (last + 1) (marks (read + (encode text).length) after) stop := by
  induction h generalizing read with
  | here enclosing => rfl
  | @leave enclosing text last _ ih =>
      have hlength : read + 2 + (encode text).length =
          read + (encode ('*' :: '/' :: text)).length :=
        (Nat.add_assoc _ _ _).trans (congrArg _ (Nat.add_comm _ _))
      change Levels _ (marks read (closing ++ (encode text ++ after))) stop ↔ _
      rw [marks_closing, levels_closes, ih, hlength]
  | @enter enclosing text last _ ih =>
      have hlength : read + 2 + (encode text).length =
          read + (encode ('/' :: '*' :: text)).length :=
        (Nat.add_assoc _ _ _).trans (congrArg _ (Nat.add_comm _ _))
      change Levels _ (marks read (opening ++ (encode text ++ after))) stop ↔ _
      rw [marks_opening, levels_opens, ih, hlength]
  | character char hzero hopening hclosing _ ih =>
      rw [encode_cons, List.append_assoc] at hopening hclosing ⊢
      rw [marks_character hopening hclosing, ih, List.length_append, Nat.add_assoc]

theorem Nests.zero_not_mem (h : Nests after first text last) : '\x00' ∉ text := by
  induction h with
  | here enclosing => exact List.not_mem_nil
  | leave _ ih => simpa using ih
  | enter _ ih => simpa using ih
  | character char hzero _ _ _ ih => simp [hzero.symm, ih]

theorem StaysInBlock.exists_levels_iff (h : StaysInBlock after 0 text) :
    ∃ depth, ∀ stop, Levels 0 (marks 0 (opening ++ encode text ++ after)) stop ↔
      Levels depth (marks (opening ++ encode text).length after) stop := by
  obtain ⟨last, hnests⟩ := h.exists_nests
  refine ⟨last + 1, fun stop => ?_⟩
  rw [List.append_assoc, marks_opening, levels_opens, hnests.levels_iff, List.length_append]
  rfl

end LexicalGrammar

namespace Comment

variable {text after inside : List UInt8} {stop : Nat}

/-- The closing that ends a block comment is the first one to level. -/
theorem isLeast_of_inBlock (h : InBlock 0 text) (after : List UInt8) :
    IsLeast {stop | Levels 0 (marks 0 (opening ++ text ++ after)) stop}
      (opening ++ text).length := by
  obtain ⟨chars, rfl, hnests⟩ := h.exists_nests after
  have hlevels : ∀ stop, Levels 0 (marks 0 (opening ++ (encode chars ++ closing) ++ after)) stop ↔
      Levels 1 (marks (2 + (encode chars).length) (closing ++ after)) stop := by
    intro stop
    rw [List.append_assoc, List.append_assoc, marks_opening, levels_opens, hnests.levels_iff]
  have hlength : (opening ++ (encode chars ++ closing)).length = 2 + (encode chars).length + 2 := by
    simp [opening, closing]
    omega
  constructor
  · refine (hlevels _).mpr ⟨[], marks (2 + (encode chars).length + 2) after, ?_, rfl⟩
    rw [marks_closing, hlength]
    rfl
  · intro stop hstop
    rw [hlength]
    exact le_of_levels ((hlevels stop).mp hstop)

theorem extent_of_inBlock (h : InBlock 0 text)
    (hinside : Extent (opening ++ text ++ after) inside) : inside = opening ++ text := by
  have hleast := isLeast_of_inBlock h after
  obtain ⟨stop, hstop, rfl⟩ | ⟨hnone, -⟩ := hinside
  · rw [hstop.unique hleast, List.take_left]
  · exact absurd hleast.1 (hnone _)

theorem not_levels_of_unclosed {text : List Char} (h : StaysInBlock [] 0 text) :
    ∀ stop, ¬ Levels 0 (marks 0 (opening ++ encode text)) stop := by
  obtain ⟨depth, hlevels⟩ := h.exists_levels_iff
  intro stop hstop
  rw [List.append_nil] at hlevels
  exact not_levels_nil ((hlevels stop).mp hstop)

/-- A comment takes the bytes behind a part that does not end it. -/
theorem length_lt_of_extent {text : List Char} (h : StaysInBlock after 0 text) (hafter : after ≠ [])
    (hinside : Extent (opening ++ encode text ++ after) inside) :
    (opening ++ encode text).length < inside.length ∧
      inside <+: opening ++ encode text ++ after := by
  have hpos := List.length_pos_iff.mpr hafter
  have hbytes : (opening ++ encode text ++ after).length =
      (opening ++ encode text).length + after.length := List.length_append
  obtain ⟨stop, hstop, rfl⟩ | ⟨-, rfl⟩ := hinside
  · obtain ⟨depth, hlevels⟩ := h.exists_levels_iff
    have hle := le_of_levels ((hlevels stop).mp hstop.1)
    refine ⟨?_, List.take_prefix _ _⟩
    rw [List.length_take]
    omega
  · exact ⟨by omega, List.prefix_rfl⟩

end Comment

end FrontEnd
