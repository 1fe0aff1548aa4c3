import FrontEnd.Proofs.Text.Utf8

/-! # Which bytes are a character

A number can be spread over more bytes than it needs, and the same bits could spell surrogates and
numbers beyond the last character. Of all these forms exactly the shortest ones of scalar values
are decoded, and whatever else bytes start with is malformed in one of a few ways. -/

namespace FrontEnd.Utf8

open String (utf8EncodeChar)

/-! ## Forms -/

/-- A byte that continues a form, with the last six bits of a number. -/
def lastBits (code : Nat) : UInt8 := UInt8.ofNat (0x80 + code % 64)

/-- The bytes of a number in a form of a width, be it the form to use or not. The first byte tells
the width, and the others have six bits each. -/
def form : (width code : Nat) → List UInt8
  | 1, code => [UInt8.ofNat code]
  | 2, code => [UInt8.ofNat (0xC0 + code / 64), lastBits code]
  | 3, code => [UInt8.ofNat (0xE0 + code / 4096), lastBits (code / 64), lastBits code]
  | 4, code => [UInt8.ofNat (0xF0 + code / 262144), lastBits (code / 4096), lastBits (code / 64),
      lastBits code]
  | _, _ => []

/-- The numbers below this have a form of a width. -/
def formBound : (width : Nat) → Nat
  | 1 => 0x80
  | 2 => 0x800
  | 3 => 0x10000
  | 4 => 0x200000
  | _ => 0

/-- The numbers of characters: all up to the last one, without the surrogates. -/
def IsScalar (code : Nat) : Prop := code ≤ 0x10FFFF ∧ ¬ (0xD800 ≤ code ∧ code ≤ 0xDFFF)

instance (code : Nat) : Decidable (IsScalar code) := inferInstanceAs (Decidable (_ ∧ _))

/-- The encoding of a number is its shortest form. -/
def encoding (code : Nat) : List UInt8 :=
  if code < 0x80 then form 1 code
  else if code < 0x800 then form 2 code
  else if code < 0x10000 then form 3 code
  else form 4 code

/-- Bytes that start with no character. -/
inductive Malformed : List UInt8 → Prop where
  | empty : Malformed []
  /-- A byte that continues a form stands where one has to start. -/
  | stray {lead : UInt8} (rest) : isContinuation lead = true → Malformed (lead :: rest)
  /-- No form is so wide. -/
  | unused {lead : UInt8} (rest) : 0xF8 ≤ lead → Malformed (lead :: rest)
  /-- A form of several bytes ends before its last one. -/
  | truncated {width code first second rest} : width ∈ [2, 3, 4] → code < formBound width →
      form width code = first ++ second → first ≠ [] → second ≠ [] →
      (∀ byte ∈ rest.head?, isContinuation byte = false) → Malformed (first ++ rest)
  /-- A form of several bytes is wider than its number needs. -/
  | overlong {width code} (rest) : width ∈ [2, 3, 4] → code < formBound (width - 1) →
      Malformed (form width code ++ rest)
  | surrogate {code} (rest) : 0xD800 ≤ code → code ≤ 0xDFFF → Malformed (form 3 code ++ rest)
  | outOfRange {code} (rest) : 0x10FFFF < code → code < formBound 4 →
      Malformed (form 4 code ++ rest)

theorem isScalar_iff (code : Nat) : IsScalar code ↔ code.isValidChar := by
  unfold IsScalar Nat.isValidChar
  omega

/-- A lead byte and what continues it are a form of a number. -/
structure IsForm (lead : UInt8) (following : List UInt8) (code : Nat) : Prop where
  wide : 128 ≤ lead.toNat
  width_eq : width lead = following.length + 1
  continues : following.all isContinuation = true
  code_eq : codePoint (following.length + 1) lead following = code

theorem leastOfWidth_eq {width : Nat} (h : width ∈ [2, 3, 4]) :
    leastOfWidth width = formBound (width - 1) := by
  simp only [List.mem_cons, List.not_mem_nil, or_false] at h
  rcases h with rfl | rfl | rfl <;> rfl

theorem isContinuation_lastBits (code : Nat) : isContinuation (lastBits code) = true := by
  rw [isContinuation_iff, lastBits, UInt8.toNat_ofNat']
  omega

theorem toNat_lastBits (code : Nat) : (lastBits code).toNat = 128 + code % 64 := by
  rw [lastBits, UInt8.toNat_ofNat']
  omega

/-- Several bytes of a form of a number are one. -/
theorem exists_isForm {width code : Nat} (hwidth : width ∈ [2, 3, 4])
    (hcode : code < formBound width) : ∃ lead following, form width code = lead :: following ∧
      following.length + 1 = width ∧ IsForm lead following code := by
  simp only [List.mem_cons, List.not_mem_nil, or_false] at hwidth
  rcases hwidth with rfl | rfl | rfl
  · have hlead : (UInt8.ofNat (0xC0 + code / 64)).toNat = 0xC0 + code / 64 := by
      simp only [formBound] at hcode
      rw [UInt8.toNat_ofNat']
      omega
    refine ⟨_, _, rfl, rfl, ?_, ?_, ?_, ?_⟩
    · omega
    · simp only [formBound] at hcode
      rw [width_eq, hlead, List.length_singleton]
      split_ifs <;> omega
    · simp [isContinuation_lastBits]
    · simp only [formBound] at hcode
      rw [List.length_singleton, codePoint_two, hlead, toNat_lastBits]
      omega
  · have hlead : (UInt8.ofNat (0xE0 + code / 4096)).toNat = 0xE0 + code / 4096 := by
      simp only [formBound] at hcode
      rw [UInt8.toNat_ofNat']
      omega
    refine ⟨_, _, rfl, rfl, ?_, ?_, ?_, ?_⟩
    · omega
    · simp only [formBound] at hcode
      rw [width_eq, hlead, List.length_cons, List.length_singleton]
      split_ifs <;> omega
    · simp [isContinuation_lastBits]
    · simp only [formBound] at hcode
      change codePoint 3 _ _ = code
      rw [codePoint_three, hlead, toNat_lastBits, toNat_lastBits]
      omega
  · have hlead : (UInt8.ofNat (0xF0 + code / 262144)).toNat = 0xF0 + code / 262144 := by
      simp only [formBound] at hcode
      rw [UInt8.toNat_ofNat']
      omega
    refine ⟨_, _, rfl, rfl, ?_, ?_, ?_, ?_⟩
    · omega
    · simp only [formBound] at hcode
      rw [width_eq, hlead, List.length_cons, List.length_cons, List.length_singleton]
      split_ifs <;> omega
    · simp [isContinuation_lastBits]
    · simp only [formBound] at hcode
      change codePoint 4 _ _ = code
      rw [codePoint_four, hlead, toNat_lastBits, toNat_lastBits, toNat_lastBits]
      omega

theorem lastBits_eq {byte : UInt8} {code : Nat} (h : isContinuation byte = true)
    (hcode : code % 64 = byte.toNat % 64) : byte = lastBits code := by
  rw [isContinuation_iff] at h
  rw [← UInt8.toNat_inj, toNat_lastBits]
  omega

namespace IsForm

variable {lead : UInt8} {following : List UInt8} {code : Nat}

theorem length_le (h : IsForm lead following code) :
    1 ≤ following.length ∧ following.length ≤ 3 := by
  have hwidth := h.width_eq
  have hwide := h.wide
  rw [Utf8.width_eq] at hwidth
  split_ifs at hwidth <;> omega

theorem mem_widths (h : IsForm lead following code) : following.length + 1 ∈ [2, 3, 4] := by
  have hlength := h.length_le
  simp only [List.mem_cons, List.not_mem_nil, or_false]
  omega

/-- A form is that of its number. -/
theorem eq_form (h : IsForm lead following code) :
    lead :: following = form (following.length + 1) code ∧
      code < formBound (following.length + 1) := by
  have hlength := h.length_le
  have hwidth := h.width_eq
  have hwide := h.wide
  have hcode := h.code_eq
  have hcontinues := h.continues
  have hbyte := lead.toNat_lt
  rw [Utf8.width_eq] at hwidth
  match following with
  | [a] =>
      simp only [List.all_cons, List.all_nil, Bool.and_true] at hcontinues
      rw [List.length_singleton, codePoint_two] at hcode
      simp only [List.length_singleton] at hwidth
      split_ifs at hwidth <;> try omega
      have hlead : lead = UInt8.ofNat (0xC0 + code / 64) := by
        rw [← UInt8.toNat_inj, UInt8.toNat_ofNat']
        omega
      have hlast : a = lastBits code := lastBits_eq hcontinues (by omega)
      refine ⟨by rw [hlead, hlast]; rfl, ?_⟩
      rw [List.length_singleton, formBound]
      omega
  | [a, b] =>
      simp only [List.all_cons, List.all_nil, Bool.and_true, Bool.and_eq_true] at hcontinues
      change codePoint 3 _ _ = _ at hcode
      rw [codePoint_three] at hcode
      simp only [List.length_cons, List.length_nil] at hwidth
      split_ifs at hwidth <;> try omega
      have hlead : lead = UInt8.ofNat (0xE0 + code / 4096) := by
        rw [← UInt8.toNat_inj, UInt8.toNat_ofNat']
        omega
      have hfirst : a = lastBits (code / 64) := lastBits_eq hcontinues.1 (by omega)
      have hlast : b = lastBits code := lastBits_eq hcontinues.2 (by omega)
      refine ⟨by rw [hlead, hfirst, hlast]; rfl, ?_⟩
      change code < 0x10000
      omega
  | [a, b, c] =>
      simp only [List.all_cons, List.all_nil, Bool.and_true, Bool.and_eq_true] at hcontinues
      change codePoint 4 _ _ = _ at hcode
      rw [codePoint_four] at hcode
      simp only [List.length_cons, List.length_nil] at hwidth
      split_ifs at hwidth <;> try omega
      have hlead : lead = UInt8.ofNat (0xF0 + code / 262144) := by
        rw [← UInt8.toNat_inj, UInt8.toNat_ofNat']
        omega
      have hfirst : a = lastBits (code / 4096) := lastBits_eq hcontinues.1 (by omega)
      have hsecond : b = lastBits (code / 64) := lastBits_eq hcontinues.2.1 (by omega)
      have hlast : c = lastBits code := lastBits_eq hcontinues.2.2 (by omega)
      refine ⟨by rw [hlead, hfirst, hsecond, hlast]; rfl, ?_⟩
      change code < 0x200000
      omega

/-- A form is decoded if its number needs it and is a scalar value. -/
theorem decode (h : IsForm lead following code) (rest : List UInt8) :
    decode (lead :: (following ++ rest)) =
      if leastOfWidth (following.length + 1) ≤ code ∧ code.isValidChar then
        some (code, following.length + 1)
      else none := by
  have hge : ¬ lead < 0x80 := by
    simpa [UInt8.lt_iff_toNat_lt] using h.wide
  have htake : (following ++ rest).take (following.length + 1 - 1) = following :=
    List.take_left' rfl
  simp only [Utf8.decode, hge, if_false, h.width_eq, htake, h.code_eq, h.continues,
    Nat.succ_pos, true_and]

end IsForm

theorem decode_form {width code : Nat} (hwidth : width ∈ [2, 3, 4]) (hcode : code < formBound width)
    (rest : List UInt8) : decode (form width code ++ rest) =
      if formBound (width - 1) ≤ code ∧ IsScalar code then some (code, width) else none := by
  obtain ⟨lead, following, hform, hlength, hisForm⟩ := exists_isForm hwidth hcode
  rw [hform, List.cons_append, hisForm.decode, hlength, leastOfWidth_eq hwidth]
  simp only [isScalar_iff]

/-! ## Encodings -/

theorem decode_encoding {code : Nat} (h : IsScalar code) (rest : List UInt8) :
    decode (encoding code ++ rest) = some (code, (encoding code).length) := by
  have hmost := h.1
  unfold encoding
  split_ifs with hone htwo hthree
  · have hbyte : (UInt8.ofNat code).toNat = code := by
      rw [UInt8.toNat_ofNat']
      omega
    have hdecode := decode_ascii (hbyte.trans_lt hone) rest
    rwa [hbyte] at hdecode
  · rw [decode_form (by simp) htwo, if_pos ⟨not_lt.mp hone, h⟩]
    rfl
  · rw [decode_form (by simp) hthree, if_pos ⟨not_lt.mp htwo, h⟩]
    rfl
  · have hbound : code < formBound 4 := hmost.trans_lt (by decide)
    rw [decode_form (by simp) hbound, if_pos ⟨not_lt.mp hthree, h⟩]
    rfl

/-- The shortest form is what the standard has for a character. -/
theorem encoding_toNat (char : Char) : encoding char.toNat = utf8EncodeChar char := by
  have hscalar : IsScalar char.toNat := (isScalar_iff _).mpr char.valid
  obtain ⟨other, hother, hlength, hstarts⟩ :=
    decode_eq_some_iff.mp (decode_encoding hscalar [])
  obtain rfl : other = char := Char.toNat_inj.mp hother
  rw [List.append_nil] at hstarts
  exact (hstarts.eq_of_length hlength).symm

theorem decode_eq_some_iff_encoding {bytes : List UInt8} {code n : Nat} :
    decode bytes = some (code, n) ↔
      IsScalar code ∧ n ≤ bytes.length ∧ bytes.take n = encoding code := by
  constructor
  · intro h
    obtain ⟨char, rfl, rfl, rest, rfl⟩ := decode_eq_some_iff.mp h
    refine ⟨(isScalar_iff _).mpr char.valid, by simp, ?_⟩
    rw [List.take_left, encoding_toNat]
  · rintro ⟨hscalar, hlength, htake⟩
    have hn : (encoding code).length = n := by
      rw [← htake, List.length_take]
      exact min_eq_left hlength
    have hdecode := decode_encoding hscalar (bytes.drop n)
    rwa [← htake, List.take_append_drop, htake, hn] at hdecode

/-! ## What is malformed -/

theorem width_of_stray {lead : UInt8} (h : isContinuation lead = true ∨ 0xF8 ≤ lead) :
    128 ≤ lead.toNat ∧ width lead = 0 := by
  rw [isContinuation_iff, UInt8.le_iff_toNat_le] at h
  have hbyte : (0xF8 : UInt8).toNat = 248 := rfl
  rw [hbyte] at h
  rw [width_eq]
  refine ⟨by omega, ?_⟩
  split_ifs <;> omega

theorem decode_of_width_zero {lead : UInt8} (h : isContinuation lead = true ∨ 0xF8 ≤ lead)
    (rest : List UInt8) : decode (lead :: rest) = none := by
  obtain ⟨hwide, hwidth⟩ := width_of_stray h
  have hge : ¬ lead < 0x80 := by
    simpa [UInt8.lt_iff_toNat_lt] using hwide
  simp [decode, hge, hwidth]

/-- A form of which a byte is missing is not decoded. -/
theorem decode_truncated {lead : UInt8} {first second rest : List UInt8} {code : Nat}
    (h : IsForm lead (first ++ second) code) (hsecond : second ≠ [])
    (hrest : ∀ byte ∈ rest.head?, isContinuation byte = false) :
    decode (lead :: (first ++ rest)) = none := by
  have hge : ¬ lead < 0x80 := by
    simpa [UInt8.lt_iff_toNat_lt] using h.wide
  have hmissing : 0 < second.length := List.length_pos_iff.mpr hsecond
  simp only [decode, hge, if_false, h.width_eq, List.length_append]
  refine if_neg ?_
  rintro ⟨-, hlength, hcontinues, -⟩
  rw [List.take_append, List.length_append] at hlength
  cases rest with
  | nil =>
      simp only [List.length_take, List.take_nil, List.length_nil] at hlength
      omega
  | cons byte tail =>
      -- the byte after the form stands where one of the form has to be
      have hmem : byte ∈ (first ++ byte :: tail).take (first.length + second.length + 1 - 1) := by
        obtain ⟨k, hk⟩ : ∃ k, first.length + second.length + 1 - 1 - first.length = k + 1 :=
          ⟨second.length - 1, by omega⟩
        rw [List.take_append, hk, List.take_succ_cons]
        simp
      have hbyte := List.all_eq_true.mp hcontinues byte hmem
      rw [hrest byte rfl] at hbyte
      cases hbyte

theorem decode_of_malformed {bytes : List UInt8} (h : Malformed bytes) : decode bytes = none := by
  cases h with
  | empty => rfl
  | stray rest hlead => exact decode_of_width_zero (.inl hlead) rest
  | unused rest hlead => exact decode_of_width_zero (.inr hlead) rest
  | @truncated width code first second rest hwidth hcode hcut hfirst hsecond hrest =>
      obtain ⟨lead, following, hform, -, hisForm⟩ := exists_isForm hwidth hcode
      rw [hform] at hcut
      cases first with
      | nil => exact absurd rfl hfirst
      | cons head first =>
          obtain ⟨rfl, rfl⟩ := List.cons.inj hcut
          exact decode_truncated hisForm hsecond hrest
  | @overlong width code rest hwidth hcode =>
      have hbound : code < formBound width := by
        simp only [List.mem_cons, List.not_mem_nil, or_false] at hwidth
        rcases hwidth with rfl | rfl | rfl <;> simp only [formBound] at hcode ⊢ <;> omega
      rw [decode_form hwidth hbound]
      exact if_neg fun hshortest => absurd hcode (not_lt.mpr hshortest.1)
  | surrogate rest hleast hmost =>
      rw [decode_form (by simp) (hmost.trans_lt (by decide))]
      exact if_neg fun hscalar => hscalar.2.2 ⟨hleast, hmost⟩
  | outOfRange rest hmost hcode =>
      rw [decode_form (by simp) hcode]
      exact if_neg fun hscalar => absurd hscalar.2.1 (not_le.mpr hmost)

theorem takeWhile_isContinuation (bytes : List UInt8) :
    (bytes.takeWhile isContinuation).all isContinuation = true ∧
      ∀ byte ∈ (bytes.dropWhile isContinuation).head?, isContinuation byte = false := by
  refine ⟨List.all_takeWhile, fun byte hbyte => ?_⟩
  have hnot := List.head?_dropWhile_not isContinuation bytes
  rw [Option.mem_def.mp hbyte] at hnot
  simpa using hnot

/-- A form of several bytes that is not decoded is not the shortest one of a scalar value. -/
theorem IsForm.malformed {lead : UInt8} {following : List UInt8} {code : Nat}
    (h : IsForm lead following code) (rest : List UInt8)
    (hdecode : Utf8.decode (lead :: (following ++ rest)) = none) :
    Malformed (lead :: (following ++ rest)) := by
  obtain ⟨hform, hbound⟩ := h.eq_form
  have hwidth := h.mem_widths
  rw [← List.cons_append, hform] at hdecode ⊢
  rw [decode_form hwidth hbound] at hdecode
  by_cases hleast : code < formBound (following.length + 1 - 1)
  · exact .overlong rest hwidth hleast
  · have hscalar : ¬ IsScalar code := by
      intro hscalar
      rw [if_pos ⟨not_lt.mp hleast, hscalar⟩] at hdecode
      cases hdecode
    generalize following.length + 1 = width at *
    simp only [List.mem_cons, List.not_mem_nil, or_false] at hwidth
    unfold IsScalar at hscalar
    rcases hwidth with rfl | rfl | rfl
    · simp only [formBound] at hbound
      omega
    · simp only [formBound] at hbound
      exact .surrogate rest (by omega) (by omega)
    · simp only [formBound, Nat.add_one_sub_one] at hleast
      exact .outOfRange rest (by omega) hbound

theorem malformed_of_decode {bytes : List UInt8} (h : decode bytes = none) : Malformed bytes := by
  cases bytes with
  | nil => exact .empty
  | cons lead rest =>
      by_cases hascii : lead.toNat < 128
      · rw [decode_ascii hascii] at h
        cases h
      by_cases hstray : isContinuation lead = true
      · exact .stray rest hstray
      by_cases hunused : 0xF8 ≤ lead
      · exact .unused rest hunused
      -- the lead byte of a form, of which all bytes may be there or not
      obtain ⟨missing, hmissing⟩ : ∃ missing, width lead = missing + 1 := by
        refine ⟨width lead - 1, (Nat.sub_add_cancel ?_).symm⟩
        rw [isContinuation_iff] at hstray
        rw [UInt8.le_iff_toNat_le] at hunused
        have hbyte : (0xF8 : UInt8).toNat = 248 := rfl
        rw [width_eq]
        split_ifs <;> omega
      obtain ⟨hcontinues, hstops⟩ := takeWhile_isContinuation rest
      rw [← List.takeWhile_append_dropWhile (p := isContinuation) (l := rest)] at h ⊢
      generalize rest.takeWhile isContinuation = first at *
      generalize rest.dropWhile isContinuation = after at *
      by_cases hall : missing ≤ first.length
      · have hform : IsForm lead (first.take missing)
            (codePoint ((first.take missing).length + 1) lead (first.take missing)) := by
          refine ⟨not_lt.mp hascii, ?_, ?_, rfl⟩
          · rw [hmissing, List.length_take, min_eq_left hall]
          · rw [List.all_eq_true] at hcontinues ⊢
            exact fun byte hbyte => hcontinues byte (List.mem_of_mem_take hbyte)
        have hcut : first ++ after = first.take missing ++ (first.drop missing ++ after) := by
          rw [← List.append_assoc, List.take_append_drop]
        rw [hcut] at h ⊢
        exact hform.malformed _ h
      · have hlength : (first ++ List.replicate (missing - first.length) 0x80).length =
            missing := by
          rw [List.length_append, List.length_replicate]
          omega
        have hform : IsForm lead (first ++ List.replicate (missing - first.length) 0x80)
            (codePoint (missing + 1) lead
              (first ++ List.replicate (missing - first.length) 0x80)) := by
          refine ⟨not_lt.mp hascii, by rw [hmissing, hlength], ?_, by rw [hlength]⟩
          rw [List.all_append, hcontinues, List.all_replicate]
          simp [isContinuation]
        obtain ⟨hcut, hbound⟩ := hform.eq_form
        have hwidth := hform.mem_widths
        exact .truncated hwidth hbound hcut.symm (List.cons_ne_nil lead first)
          (by simp; omega) hstops

end FrontEnd.Utf8
