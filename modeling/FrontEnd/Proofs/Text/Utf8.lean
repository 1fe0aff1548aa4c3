import FrontEnd.Text.Utf8
import Mathlib.Data.UInt

/-! # Decoding inverts encoding

A character is decoded exactly where the bytes start with its encoding. -/

namespace FrontEnd.Utf8

open String (utf8EncodeChar)

/-! ## Bytes as numbers -/

theorem isContinuation_iff (byte : UInt8) :
    isContinuation byte = true ↔ 128 ≤ byte.toNat ∧ byte.toNat < 192 := by
  simp [isContinuation, UInt8.le_iff_toNat_le, UInt8.lt_iff_toNat_lt]

theorem width_eq (lead : UInt8) : width lead =
    if lead.toNat < 128 then 1 else if lead.toNat < 192 then 0 else if lead.toNat < 224 then 2
    else if lead.toNat < 240 then 3 else if lead.toNat < 248 then 4 else 0 := by
  simp [width, UInt8.lt_iff_toNat_lt]

theorem codePoint_two (lead a : UInt8) :
    codePoint 2 lead [a] = lead.toNat % 32 * 64 + a.toNat % 64 := rfl

theorem codePoint_three (lead a b : UInt8) :
    codePoint 3 lead [a, b] = (lead.toNat % 16 * 64 + a.toNat % 64) * 64 + b.toNat % 64 := rfl

theorem codePoint_four (lead a b c : UInt8) : codePoint 4 lead [a, b, c] =
    ((lead.toNat % 8 * 64 + a.toNat % 64) * 64 + b.toNat % 64) * 64 + c.toNat % 64 := rfl

/-! ## Sequences of bytes -/

/-- A sequence of several bytes spells a code point: it has the width that its lead asks for, and
no shorter sequence has this code point. -/
structure Spells (lead : UInt8) (following : List UInt8) (code : Nat) : Prop where
  wide : 128 ≤ lead.toNat
  width_eq : width lead = following.length + 1
  continues : following.all isContinuation = true
  code_eq : codePoint (following.length + 1) lead following = code
  least : leastOfWidth (following.length + 1) ≤ code
  valid : code.isValidChar

theorem decode_ascii {lead : UInt8} (h : lead.toNat < 128) (rest : List UInt8) :
    decode (lead :: rest) = some (lead.toNat, 1) := by
  have hlt : lead < 0x80 := UInt8.lt_iff_toNat_lt.mpr h
  simp [decode, hlt]

theorem Spells.decode {lead : UInt8} {following : List UInt8} {code : Nat}
    (h : Spells lead following code) (rest : List UInt8) :
    decode (lead :: (following ++ rest)) = some (code, following.length + 1) := by
  have hge : ¬ lead < 0x80 := by
    simpa [UInt8.lt_iff_toNat_lt] using h.wide
  have htake : (following ++ rest).take (following.length + 1 - 1) = following :=
    List.take_left' rfl
  simp only [Utf8.decode, hge, if_false, h.width_eq, htake, h.code_eq]
  exact if_pos ⟨by omega, trivial, h.continues, h.least, h.valid⟩

theorem exists_of_decode {lead : UInt8} {rest : List UInt8} {code n : Nat}
    (h : decode (lead :: rest) = some (code, n)) :
    (lead.toNat < 128 ∧ code = lead.toNat ∧ n = 1) ∨
      ∃ following after, rest = following ++ after ∧ Spells lead following code ∧
        n = following.length + 1 := by
  simp only [decode] at h
  by_cases hlt : lead < 0x80
  · rw [if_pos hlt] at h
    simp only [Option.some.injEq, Prod.mk.injEq] at h
    exact .inl ⟨UInt8.lt_iff_toNat_lt.mp hlt, h.1.symm, h.2.symm⟩
  · rw [if_neg hlt] at h
    split at h
    · rename_i hall
      obtain ⟨-, hlength, hcontinues, hleast, hvalid⟩ := hall
      simp only [Option.some.injEq, Prod.mk.injEq] at h
      obtain ⟨rfl, rfl⟩ := h
      refine .inr ⟨rest.take (width lead - 1), rest.drop (width lead - 1),
        (List.take_append_drop _ _).symm, ?_, hlength.symm⟩
      refine ⟨?_, hlength.symm, hcontinues, by rw [hlength], by rwa [hlength], hvalid⟩
      simpa [UInt8.lt_iff_toNat_lt] using hlt
    · cases h

/-! ## Encodings -/

theorem spells_two {code : Nat} (hleast : 128 ≤ code) (hmost : code < 2048) :
    Spells (UInt8.ofNat (code / 64 % 32 + 192)) [UInt8.ofNat (code % 64 + 128)] code := by
  refine ⟨?_, ?_, ?_, ?_, hleast, .inl (by omega)⟩
  · simp
    omega
  · simp only [width_eq, UInt8.toNat_ofNat', List.length_singleton]
    split_ifs <;> omega
  · simp [isContinuation_iff]
    omega
  · rw [List.length_singleton, codePoint_two, UInt8.toNat_ofNat', UInt8.toNat_ofNat']
    omega

theorem spells_three {code : Nat} (hleast : 2048 ≤ code) (hmost : code < 65536)
    (hvalid : code.isValidChar) :
    Spells (UInt8.ofNat (code / 4096 % 16 + 224))
      [UInt8.ofNat (code / 64 % 64 + 128), UInt8.ofNat (code % 64 + 128)] code := by
  refine ⟨?_, ?_, ?_, ?_, hleast, hvalid⟩
  · simp
    omega
  · simp only [width_eq, UInt8.toNat_ofNat', List.length_cons, List.length_nil]
    split_ifs <;> omega
  · simp [isContinuation_iff]
    omega
  · change codePoint 3 _ _ = code
    rw [codePoint_three]
    simp only [UInt8.toNat_ofNat']
    omega

theorem spells_four {code : Nat} (hleast : 65536 ≤ code) (hvalid : code.isValidChar) :
    Spells (UInt8.ofNat (code / 262144 % 8 + 240))
      [UInt8.ofNat (code / 4096 % 64 + 128), UInt8.ofNat (code / 64 % 64 + 128),
        UInt8.ofNat (code % 64 + 128)] code := by
  have hmost : code < 0x110000 := by
    rcases hvalid with h | h <;> omega
  refine ⟨?_, ?_, ?_, ?_, hleast, hvalid⟩
  · simp
    omega
  · simp only [width_eq, UInt8.toNat_ofNat', List.length_cons, List.length_nil]
    split_ifs <;> omega
  · simp [isContinuation_iff]
    omega
  · change codePoint 4 _ _ = code
    rw [codePoint_four]
    simp only [UInt8.toNat_ofNat']
    omega

theorem decode_encode (char : Char) (rest : List UInt8) :
    decode (utf8EncodeChar char ++ rest) = some (char.toNat, (utf8EncodeChar char).length) := by
  have hvalid : char.val.toNat.isValidChar := char.valid
  simp only [utf8EncodeChar, Char.toNat]
  split
  · rename_i hmost
    have hbyte : (UInt8.ofNat char.val.toNat).toNat = char.val.toNat := by
      rw [UInt8.toNat_ofNat']
      omega
    have hlt : (UInt8.ofNat char.val.toNat).toNat < 128 := by omega
    have hdecode := decode_ascii hlt rest
    rwa [hbyte] at hdecode
  · split
    · exact (spells_two (by omega) (by omega)).decode rest
    · split
      · exact (spells_three (by omega) (by omega) hvalid).decode rest
      · exact (spells_four (by omega) hvalid).decode rest

theorem Spells.length_le {lead : UInt8} {following : List UInt8} {code : Nat}
    (h : Spells lead following code) : 1 ≤ following.length ∧ following.length ≤ 3 := by
  have hwidth := h.width_eq
  have hwide := h.wide
  rw [Utf8.width_eq] at hwidth
  split_ifs at hwidth <;> omega

/-- The only sequence that spells a code point is its encoding. -/
theorem Spells.eq_encode {lead : UInt8} {following : List UInt8} {char : Char}
    (h : Spells lead following char.toNat) : lead :: following = utf8EncodeChar char := by
  have hlength := h.length_le
  have hwidth := h.width_eq
  have hwide := h.wide
  have hcode := h.code_eq
  have hleast := h.least
  have hcontinues := h.continues
  rw [Utf8.width_eq] at hwidth
  have hbyte := lead.toNat_lt
  have hval : char.val.toNat = char.toNat := rfl
  simp only [utf8EncodeChar, hval]
  match following with
  | [a] =>
      simp only [List.all_cons, List.all_nil, Bool.and_true, isContinuation_iff] at hcontinues
      rw [List.length_singleton, codePoint_two] at hcode
      simp only [List.length_singleton] at hwidth
      rw [List.length_singleton, leastOfWidth] at hleast
      rw [if_neg (by omega), if_pos (by omega)]
      split_ifs at hwidth <;> try omega
      simp only [List.cons.injEq, and_true, ← UInt8.toNat_inj, UInt8.toNat_ofNat']
      omega
  | [a, b] =>
      simp only [List.all_cons, List.all_nil, Bool.and_true, Bool.and_eq_true,
        isContinuation_iff] at hcontinues
      change codePoint 3 _ _ = _ at hcode
      rw [codePoint_three] at hcode
      simp only [List.length_cons, List.length_nil] at hwidth
      change 0x800 ≤ _ at hleast
      rw [if_neg (by omega), if_neg (by omega), if_pos (by omega)]
      split_ifs at hwidth <;> try omega
      simp only [List.cons.injEq, and_true, ← UInt8.toNat_inj, UInt8.toNat_ofNat']
      omega
  | [a, b, c] =>
      simp only [List.all_cons, List.all_nil, Bool.and_true, Bool.and_eq_true,
        isContinuation_iff] at hcontinues
      change codePoint 4 _ _ = _ at hcode
      rw [codePoint_four] at hcode
      simp only [List.length_cons, List.length_nil] at hwidth
      change 0x10000 ≤ _ at hleast
      rw [if_neg (by omega), if_neg (by omega), if_neg (by omega)]
      split_ifs at hwidth <;> try omega
      simp only [List.cons.injEq, and_true, ← UInt8.toNat_inj, UInt8.toNat_ofNat']
      omega

theorem toNat_ofNat {code : Nat} (h : code.isValidChar) : (Char.ofNat code).toNat = code := by
  rw [Char.ofNat, dif_pos h]
  rfl

theorem encode_ascii {char : Char} (h : char.toNat < 128) :
    utf8EncodeChar char = [UInt8.ofNat char.toNat] := by
  have hval : char.val.toNat = char.toNat := rfl
  simp only [utf8EncodeChar, hval]
  rw [if_pos (by omega)]

/-- A decoded character is the one whose encoding the bytes start with. -/
theorem decode_eq_some_iff {bytes : List UInt8} {code n : Nat} :
    decode bytes = some (code, n) ↔
      ∃ char : Char, char.toNat = code ∧ (utf8EncodeChar char).length = n ∧
        utf8EncodeChar char <+: bytes := by
  constructor
  · intro h
    cases bytes with
    | nil => cases h
    | cons lead rest =>
        rcases exists_of_decode h with ⟨hlt, rfl, rfl⟩ | ⟨following, after, rfl, hspells, rfl⟩
        · have hchar : (Char.ofNat lead.toNat).toNat = lead.toNat :=
            toNat_ofNat (.inl (by omega))
          have hencode : utf8EncodeChar (Char.ofNat lead.toNat) = [lead] := by
            rw [encode_ascii (by omega), hchar, UInt8.ofNat_toNat]
          exact ⟨_, hchar, by rw [hencode]; rfl, rest, by rw [hencode]; rfl⟩
        · have hchar : (Char.ofNat code).toNat = code := toNat_ofNat hspells.valid
          rw [← hchar] at hspells
          refine ⟨_, hchar, ?_, after, ?_⟩
          · rw [← hspells.eq_encode, List.length_cons]
          · rw [← hspells.eq_encode, List.cons_append]
  · rintro ⟨char, rfl, rfl, rest, rfl⟩
    exact decode_encode char rest

end FrontEnd.Utf8
