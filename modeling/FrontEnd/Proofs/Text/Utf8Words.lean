import FrontEnd.Proofs.Text.Utf8Forms

/-! # Decoding with tables and masks

The width of a form can be looked up by five bits, and its number put together from bits of words,
with all checks on the number at the end. This finds the same characters. -/

namespace FrontEnd.Utf8

/-! ## Words -/

/-- The widths of forms by the first five bits of the lead byte. -/
def widthTable : List Nat :=
  List.replicate 16 1 ++ List.replicate 8 0 ++ List.replicate 4 2 ++ [3, 3, 4, 0]

/-- The smallest numbers by width. -/
def leastTable : List UInt32 := [0, 0, 0x80, 0x800, 0x10000]

/-- Puts six bits of each byte behind those of a number, as long as the bytes continue a form. -/
def addBits (code : UInt32) : List UInt8 → Option UInt32
  | [] => some code
  | byte :: rest =>
    if byte &&& 0xC0 ≠ 0x80 then none
    else addBits (code <<< 6 ||| (byte &&& 0x3F).toUInt32) rest

/-- The character at the start of some bytes, found with a table, masks and shifts. -/
def decodeWords : List UInt8 → Option (UInt32 × Nat)
  | [] => none
  | lead :: rest =>
    let n := widthTable.getD (lead >>> 3).toNat 0
    if n = 0 then none
    else if n = 1 then some (lead.toUInt32, 1)
    else if rest.length + 1 < n then none
    else
      (addBits (lead.toUInt32 &&& 0x7F >>> UInt32.ofNat n) (rest.take (n - 1))).bind fun code =>
        if code < leastTable.getD n 0 ∨ (0xD800 ≤ code ∧ code ≤ 0xDFFF) ∨ 0x10FFFF < code then none
        else some (code, n)

theorem widthTable_eq (lead : UInt8) : widthTable.getD (lead >>> 3).toNat 0 = width lead := by
  have hall : ∀ n < 256,
      widthTable.getD (UInt8.ofNat n >>> 3).toNat 0 = width (UInt8.ofNat n) := by
    decide +kernel
  have hlead := hall lead.toNat lead.toNat_lt
  rwa [UInt8.ofNat_toNat] at hlead

/-- The mask leaves the bits of a lead byte that do not tell the width. -/
theorem toNat_firstBits (lead : UInt8) {width : Nat} (h : width ∈ [2, 3, 4]) :
    (lead.toUInt32 &&& 0x7F >>> UInt32.ofNat width).toNat = lead.toNat % 2 ^ (7 - width) := by
  have hall : ∀ n < 256, ∀ width ∈ [2, 3, 4],
      ((UInt8.ofNat n).toUInt32 &&& 0x7F >>> UInt32.ofNat width).toNat = n % 2 ^ (7 - width) := by
    decide +kernel
  have hlead := hall lead.toNat lead.toNat_lt width h
  rwa [UInt8.ofNat_toNat] at hlead

theorem continuation_bits (byte : UInt8) :
    (byte &&& 0xC0 = 0x80 ↔ isContinuation byte = true) ∧
      (byte &&& 0x3F).toUInt32.toNat = byte.toNat % 64 := by
  have hall : ∀ n < 256,
      (UInt8.ofNat n &&& 0xC0 = 0x80 ↔ isContinuation (UInt8.ofNat n) = true) ∧
        (UInt8.ofNat n &&& 0x3F).toUInt32.toNat = n % 64 := by
    decide +kernel
  have hbyte := hall byte.toNat byte.toNat_lt
  rwa [UInt8.ofNat_toNat] at hbyte

/-- Six bits behind those of a number that leaves room for them. -/
theorem toNat_shift_or {code bits : UInt32} (hcode : code.toNat < 2 ^ 26)
    (hbits : bits.toNat < 64) :
    (code <<< 6 ||| bits).toNat = code.toNat * 64 + bits.toNat := by
  have hshift : (code <<< 6).toNat = code.toNat <<< 6 := by
    rw [UInt32.toNat_shiftLeft, Nat.mod_eq_of_lt]
    · rfl
    · rw [Nat.shiftLeft_eq]
      change code.toNat * 64 < 2 ^ 32
      omega
  rw [UInt32.toNat_or, hshift, ← Nat.shiftLeft_add_eq_or_of_lt hbits, Nat.shiftLeft_eq]

theorem toNat_addBits {code : UInt32} {following : List UInt8}
    (h : (code.toNat + 1) * 64 ^ following.length ≤ 2 ^ 32) :
    (addBits code following).map UInt32.toNat =
      if following.all isContinuation then
        some (following.foldl (fun code byte => code * 64 + byte.toNat % 64) code.toNat)
      else none := by
  induction following generalizing code with
  | nil => rfl
  | cons byte rest ih =>
      obtain ⟨hmask, hbits⟩ := continuation_bits byte
      rw [addBits, List.all_cons, List.foldl_cons]
      by_cases hbyte : isContinuation byte = true
      · have hpow : 1 ≤ 64 ^ rest.length := Nat.one_le_pow _ _ (by decide)
        rw [List.length_cons, pow_succ'] at h
        have hcode : code.toNat < 2 ^ 26 := by
          have hroom : (code.toNat + 1) * (64 * 1) ≤ 2 ^ 32 :=
            (Nat.mul_le_mul_left _ (Nat.mul_le_mul_left 64 hpow)).trans h
          omega
        have hsum := toNat_shift_or hcode (hbits.trans_lt (Nat.mod_lt _ (by decide)))
        rw [hbits] at hsum
        have hroom : ((code <<< 6 ||| (byte &&& 0x3F).toUInt32).toNat + 1) * 64 ^ rest.length ≤
            2 ^ 32 := by
          refine le_trans (Nat.mul_le_mul_right _ ?_) (le_of_eq_of_le (mul_assoc _ 64 _) h)
          omega
        rw [if_neg (not_not.mpr (hmask.mpr hbyte)), ih hroom, hsum, hbyte, Bool.true_and]
      · rw [if_pos fun hcontinues => hbyte (hmask.mp hcontinues), Bool.eq_false_iff.mpr hbyte]
        rfl

/-- The bits of a form are those of its number. -/
theorem addBits_form (lead : UInt8) {following : List UInt8}
    (h : following.length + 1 ∈ [2, 3, 4]) :
    (addBits (lead.toUInt32 &&& 0x7F >>> UInt32.ofNat (following.length + 1)) following).map
        UInt32.toNat =
      if following.all isContinuation then some (codePoint (following.length + 1) lead following)
      else none := by
  have hfirst := toNat_firstBits lead h
  have hbits : lead.toNat % 2 ^ (7 - (following.length + 1)) < 2 ^ (7 - (following.length + 1)) :=
    Nat.mod_lt _ (Nat.two_pow_pos _)
  have hroom : (lead.toNat % 2 ^ (7 - (following.length + 1)) + 1) * 64 ^ following.length ≤
      2 ^ 32 := by
    refine (Nat.mul_le_mul_right _ hbits).trans ?_
    generalize following.length = n at h
    simp only [List.mem_cons, List.not_mem_nil, or_false, Nat.reduceEqDiff] at h
    rcases h with rfl | rfl | rfl <;> decide
  rw [toNat_addBits (by rwa [hfirst]), hfirst]
  rfl

theorem leastTable_eq {width : Nat} (h : width ∈ [2, 3, 4]) :
    (leastTable.getD width 0).toNat = leastOfWidth width := by
  have hall : ∀ width ∈ [2, 3, 4], (leastTable.getD width 0).toNat = leastOfWidth width := by decide
  exact hall width h

/-- The checks on a number of a form, in words and in numbers. -/
theorem checked_iff {width : Nat} (hwidth : width ∈ [2, 3, 4]) (code : UInt32) :
    (code < leastTable.getD width 0 ∨ (0xD800 ≤ code ∧ code ≤ 0xDFFF) ∨ 0x10FFFF < code) ↔
      ¬ (leastOfWidth width ≤ code.toNat ∧ code.toNat.isValidChar) := by
  rw [← leastTable_eq hwidth]
  simp only [UInt32.lt_iff_toNat_lt, UInt32.le_iff_toNat_le, Nat.isValidChar]
  have hfirst : (0xD800 : UInt32).toNat = 0xD800 := rfl
  have hlast : (0xDFFF : UInt32).toNat = 0xDFFF := rfl
  have hmost : (0x10FFFF : UInt32).toNat = 0x10FFFF := rfl
  omega

theorem width_cases (lead : UInt8) :
    (lead.toNat < 128 ∧ width lead = 1) ∨
      128 ≤ lead.toNat ∧ (width lead = 0 ∨ width lead ∈ [2, 3, 4]) := by
  have hall : ∀ n < 256, (n < 128 ∧ width (UInt8.ofNat n) = 1) ∨
      128 ≤ n ∧ (width (UInt8.ofNat n) = 0 ∨ width (UInt8.ofNat n) ∈ [2, 3, 4]) := by
    decide +kernel
  have hlead := hall lead.toNat lead.toNat_lt
  rwa [UInt8.ofNat_toNat] at hlead

theorem decodeWords_of_wide {lead : UInt8} (rest : List UInt8) (hwide : 128 ≤ lead.toNat)
    (hwidth : width lead ∈ [2, 3, 4]) :
    (decodeWords (lead :: rest)).map (fun found => (found.1.toNat, found.2)) =
      decode (lead :: rest) := by
  have hge : ¬ lead < 0x80 := by simpa [UInt8.lt_iff_toNat_lt] using hwide
  simp only [decodeWords, widthTable_eq, decode, if_neg hge]
  generalize width lead = n at hwidth
  have hn : 2 ≤ n ∧ n ≤ 4 := by
    simp only [List.mem_cons, List.not_mem_nil, or_false] at hwidth
    omega
  rw [if_neg (by omega : n ≠ 0), if_neg (by omega : n ≠ 1)]
  have htake := List.length_take (i := n - 1) (l := rest)
  generalize rest.take (n - 1) = following at htake
  by_cases hlength : rest.length + 1 < n
  · rw [if_pos hlength, if_neg fun hall => absurd hall.2.1 (by omega)]
    rfl
  · obtain rfl : following.length + 1 = n := by omega
    have hadd := addBits_form lead hwidth
    rw [if_neg hlength]
    cases hcontinues : following.all isContinuation with
    | false =>
        rw [hcontinues, if_neg Bool.false_ne_true, Option.map_eq_none_iff] at hadd
        rw [hadd, if_neg fun hall => Bool.false_ne_true hall.2.2.1]
        rfl
    | true =>
        rw [hcontinues, if_pos rfl, Option.map_eq_some_iff] at hadd
        obtain ⟨code, hadded, hvalue⟩ := hadd
        have hchecked := checked_iff hwidth code
        rw [hadded, Option.bind_some, ← hvalue]
        by_cases hgood : leastOfWidth (following.length + 1) ≤ code.toNat ∧ code.toNat.isValidChar
        · rw [if_neg fun hbad => hchecked.mp hbad hgood, if_pos ⟨by omega, rfl, rfl, hgood⟩]
          rfl
        · rw [if_pos (hchecked.mpr hgood), if_neg fun hall => hgood hall.2.2.2]
          rfl

/-- Words find what unbounded numbers find. -/
theorem decodeWords_eq (bytes : List UInt8) :
    (decodeWords bytes).map (fun found => (found.1.toNat, found.2)) = decode bytes := by
  cases bytes with
  | nil => rfl
  | cons lead rest =>
      rcases width_cases lead with ⟨hascii, hwidth⟩ | ⟨hwide, hzero | hwidth⟩
      · simp only [decodeWords, widthTable_eq, hwidth, decode_ascii hascii]
        rfl
      · have hge : ¬ lead < 0x80 := by simpa [UInt8.lt_iff_toNat_lt] using hwide
        simp only [decodeWords, widthTable_eq, decode, hzero, if_neg hge]
        exact (if_neg fun hall => Nat.lt_irrefl 0 hall.1).symm
      · exact decodeWords_of_wide rest hwide hwidth

/-! ## Exactness -/

/-- Decoding is the inverse of encoding. What is decoded is a scalar value whose encoding comes
first, whatever follows it. What is not decoded is malformed, and the other way round. Tables and
masks answer the same. -/
theorem decode_inverts_encoding :
    (∀ bytes code n, decode bytes = some (code, n) ↔
      IsScalar code ∧ n ≤ bytes.length ∧ bytes.take n = encoding code) ∧
    (∀ char : Char, encoding char.toNat = String.utf8EncodeChar char) ∧
    (∀ code rest, IsScalar code →
      decode (encoding code ++ rest) = some (code, (encoding code).length)) ∧
    (∀ bytes other code n, decode bytes = some (code, n) → other.take n = bytes.take n →
      decode other = some (code, n)) ∧
    (∀ bytes, decode bytes = none ↔ Malformed bytes) ∧
    ∀ bytes, (decodeWords bytes).map (fun found => (found.1.toNat, found.2)) = decode bytes := by
  refine ⟨fun bytes code n => decode_eq_some_iff_encoding, encoding_toNat,
    fun code rest hscalar => decode_encoding hscalar rest, ?_,
    fun bytes => ⟨malformed_of_decode, decode_of_malformed⟩, decodeWords_eq⟩
  intro bytes other code n hdecode hsame
  obtain ⟨hscalar, hlength, htake⟩ := decode_eq_some_iff_encoding.mp hdecode
  refine decode_eq_some_iff_encoding.mpr ⟨hscalar, ?_, hsame.trans htake⟩
  have hmin := congrArg List.length hsame
  rw [List.length_take, List.length_take] at hmin
  omega

/-- The euro sign before a byte that would continue it, and the same number in a wider form. -/
theorem decode_inverts_encoding_euro :
    IsScalar 0x20AC ∧ decode [0xE2, 0x82, 0xAC, 0x80] = some (0x20AC, 3) ∧
      decode [0xE2, 0x82, 0xAC] = some (0x20AC, 3) ∧ Malformed [0xF0, 0x82, 0x82, 0xAC] ∧
      decode [0xF0, 0x82, 0x82, 0xAC] = none := by
  have hscalar : IsScalar 0x20AC := by decide
  have hoverlong : Malformed [0xF0, 0x82, 0x82, 0xAC] :=
    @Malformed.overlong 4 0x20AC [] (by simp) (by decide)
  have hlonger : decode [0xE2, 0x82, 0xAC, 0x80] = some (0x20AC, 3) :=
    decode_inverts_encoding.2.2.1 0x20AC [0x80] hscalar
  exact ⟨hscalar, hlonger, decode_inverts_encoding.2.2.2.1 _ _ _ _ hlonger rfl, hoverlong,
    (decode_inverts_encoding.2.2.2.2.1 _).mpr hoverlong⟩

end FrontEnd.Utf8
