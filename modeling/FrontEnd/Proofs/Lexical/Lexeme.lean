import FrontEnd.Proofs.Lexical.Grammar
import FrontEnd.Proofs.Text.Utf8
import Mathlib.Data.List.TakeWhile

/-! # Words and symbols

A word reaches over all word bytes, and the longest symbol is taken. -/

namespace FrontEnd

open LexicalGrammar

/-! ## Bytes of words -/

theorem isWordHead_iff (byte : UInt8) : IsWordHead byte ↔ isWordStart byte = true := by
  have hall : ∀ n < 256, ((asChar (UInt8.ofNat n)).isAlpha = true ∨ UInt8.ofNat n = 0x5F) ↔
      isWordStart (UInt8.ofNat n) = true := by
    decide +kernel
  have hbyte := hall byte.toNat byte.toNat_lt
  rwa [UInt8.ofNat_toNat] at hbyte

theorem inWord_iff (byte : UInt8) : InWord byte ↔ isWordByte byte = true := by
  have hall : ∀ n < 256, ((asChar (UInt8.ofNat n)).isAlphanum = true ∨ UInt8.ofNat n = 0x5F) ↔
      isWordByte (UInt8.ofNat n) = true := by
    decide +kernel
  have hbyte := hall byte.toNat byte.toNat_lt
  rwa [UInt8.ofNat_toNat] at hbyte

theorem inWord_of_isWordHead {byte : UInt8} (h : IsWordHead byte) : InWord byte := by
  rw [inWord_iff, isWordByte, (isWordHead_iff byte).mp h, Bool.true_or]

theorem asChar_inj {a b : UInt8} : asChar a = asChar b ↔ a = b := by
  have hvalid : ∀ byte : UInt8, byte.toNat.isValidChar := by
    intro byte
    have hlt := byte.toNat_lt
    exact .inl (by omega)
  constructor
  · intro h
    have hnat := congrArg Char.toNat h
    rw [asChar, asChar, Utf8.toNat_ofNat (hvalid a), Utf8.toNat_ofNat (hvalid b)] at hnat
    exact UInt8.toNat_inj.mp hnat
  · rintro rfl
    rfl

theorem asText_inj {a b : List UInt8} : asText a = asText b ↔ a = b := by
  constructor
  · intro h
    have hchars := congrArg String.toList h
    rw [asText, asText, String.toList_ofList, String.toList_ofList] at hchars
    exact List.map_injective_iff.mpr (fun _ _ => asChar_inj.mp) hchars
  · rintro rfl
    rfl

/-! ## Maximal runs -/

theorem takeWhile_of_isRun {text after : List UInt8} (h : IsRun text after) :
    (text ++ after).takeWhile isWordByte = text := by
  obtain ⟨htext, hafter⟩ := h
  rw [List.takeWhile_append_of_pos (fun byte hbyte => (inWord_iff byte).mp (htext byte hbyte))]
  cases after with
  | nil => simp
  | cons byte rest =>
      have hstop : ¬ isWordByte byte = true := by
        rw [← inWord_iff]
        exact hafter byte rfl
      rw [List.takeWhile_cons_of_neg hstop, List.append_nil]

theorem isRun_takeWhile (bytes : List UInt8) :
    IsRun (bytes.takeWhile isWordByte) (bytes.dropWhile isWordByte) := by
  constructor
  · intro byte hbyte
    exact (inWord_iff byte).mpr (List.mem_takeWhile_imp hbyte)
  · intro byte hbyte
    rw [inWord_iff]
    intro hword
    have hnot := List.head?_dropWhile_not isWordByte bytes
    rw [Option.mem_def.mp hbyte] at hnot
    simp [hword] at hnot

/-- A run that starts with a byte is this byte and the run of the bytes after it. -/
theorem isRun_cons_iff {byte : UInt8} {rest text after : List UInt8} (hbyte : InWord byte)
    (h : byte :: rest = text ++ after) :
    IsRun text after ↔ text = byte :: rest.takeWhile isWordByte ∧
      after = rest.dropWhile isWordByte := by
  have hword := (inWord_iff byte).mp hbyte
  constructor
  · intro hrun
    have htext := takeWhile_of_isRun hrun
    rw [← h, List.takeWhile_cons_of_pos hword] at htext
    refine ⟨htext.symm, ?_⟩
    rw [← htext, List.cons_append] at h
    have hrest := List.takeWhile_append_dropWhile (p := isWordByte) (l := rest)
    exact (List.append_cancel_left (hrest.trans (List.cons.inj h).2)).symm
  · rintro ⟨rfl, rfl⟩
    have hrun := isRun_takeWhile (byte :: rest)
    rwa [List.takeWhile_cons_of_pos hword, List.dropWhile_cons_of_pos hword] at hrun

/-! ## Keywords -/

theorem Keyword.ofSpelling?_eq_some_iff {word : String} {k : Keyword} :
    ofSpelling? word = some k ↔ word = k.spelling := by
  constructor
  · intro h
    have hfound := List.find?_some h
    exact (beq_iff_eq.mp hfound).symm
  · rintro rfl
    cases k <;> decide

theorem Keyword.ofSpelling?_eq_none_iff {word : String} :
    ofSpelling? word = none ↔ ∀ k : Keyword, word ≠ k.spelling := by
  rw [Option.eq_none_iff_forall_ne_some]
  simp only [ne_eq, ofSpelling?_eq_some_iff]

/-! ## Symbols -/

namespace Symbol

theorem asText_bytes (s : Symbol) : asText s.bytes = s.spelling := by
  cases s <;> decide

theorem asText_eq_spelling_iff {text : List UInt8} {s : Symbol} :
    asText text = s.spelling ↔ text = s.bytes := by
  rw [← asText_bytes, asText_inj]

theorem mem_all (s : Symbol) : s ∈ all := by
  cases s <;> decide

theorem bytes_injective {s other : Symbol} (h : s.bytes = other.bytes) : s = other := by
  have hall : ∀ a ∈ all, ∀ b ∈ all, a.bytes = b.bytes → a = b := by decide +kernel
  exact hall s (mem_all s) other (mem_all other) h

theorem mem_longestFirst (s : Symbol) : (s, s.bytes) ∈ longestFirst := by
  have hall : ∀ s ∈ all, (s, s.bytes) ∈ longestFirst := by decide +kernel
  exact hall s (mem_all s)

theorem bytes_of_mem_longestFirst : ∀ entry ∈ longestFirst, entry.2 = entry.1.bytes := by
  decide +kernel

theorem longestFirst_descends :
    longestFirst.Pairwise fun entry later => later.2.length ≤ entry.2.length := by
  decide +kernel

/-- The symbol that is taken is the longest one of those that a source starts with. -/
theorem longest?_eq_some_iff {source : List UInt8} {s : Symbol} {text : List UInt8} :
    longest? source = some (s, text) ↔ text = s.bytes ∧ text <+: source ∧
      ∀ other : Symbol, other.bytes <+: source → other.bytes.length ≤ text.length := by
  have hsound : ∀ s text, longest? source = some (s, text) → text = s.bytes ∧ text <+: source ∧
      ∀ other : Symbol, other.bytes <+: source → other.bytes.length ≤ text.length := by
    intro s text h
    obtain ⟨hstarts, before, later, hsplit, hbefore⟩ := List.find?_eq_some_iff_append.mp h
    refine ⟨bytes_of_mem_longestFirst _ (List.mem_of_find?_eq_some h),
      List.isPrefixOf_iff_prefix.mp hstarts, fun other hother => ?_⟩
    have hmem := mem_longestFirst other
    rw [hsplit] at hmem
    rcases List.mem_append.mp hmem with hmem | hmem
    · have hnot := hbefore _ hmem
      rw [List.isPrefixOf_iff_prefix.mpr hother] at hnot
      cases hnot
    · rcases List.mem_cons.mp hmem with heq | hmem
      · exact Nat.le_of_eq (congrArg (fun entry => entry.2.length) heq)
      · have hdescends := longestFirst_descends
        rw [hsplit, List.pairwise_append] at hdescends
        exact (List.pairwise_cons.mp hdescends.2.1).1 _ hmem
  constructor
  · exact hsound s text
  · rintro ⟨rfl, hstarts, hlongest⟩
    cases hfound : longest? source with
    | none =>
        have hnot := List.find?_eq_none.mp hfound _ (mem_longestFirst s)
        exact absurd (List.isPrefixOf_iff_prefix.mpr hstarts) hnot
    | some entry =>
        obtain ⟨found, bytes⟩ := entry
        obtain ⟨rfl, hfoundStarts, hfoundLongest⟩ := hsound _ _ hfound
        have hlength := Nat.le_antisymm (hlongest found hfoundStarts) (hfoundLongest s hstarts)
        have hbytes := (List.prefix_of_prefix_length_le hfoundStarts hstarts
          (Nat.le_of_eq hlength)).eq_of_length hlength
        rw [bytes_injective hbytes]

end Symbol

end FrontEnd
