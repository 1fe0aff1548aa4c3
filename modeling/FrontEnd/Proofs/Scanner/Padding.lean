import FrontEnd.Source.Padded
import Mathlib.Algebra.Group.Nat.Defs
import Mathlib.Tactic.Common

/-! # The padding of sources

A source keeps its bytes in front of its padding, which has room to look ahead. The padded size is
what words compute with a mask. -/

namespace FrontEnd.PaddedSource

theorem endPadding_le (source : PaddedSource) :
    source.size + endPadding ≤ source.paddedSize := by
  unfold paddedSize endPadding blockSize
  omega

theorem length_paddedBytes (source : PaddedSource) :
    source.paddedBytes.length = source.paddedSize := by
  have hroom := source.endPadding_le
  rw [paddedBytes, List.length_append, List.length_replicate, ← size]
  omega

theorem blockSize_dvd_length (source : PaddedSource) :
    blockSize ∣ source.paddedBytes.length := by
  rw [length_paddedBytes]
  exact Nat.dvd_mul_left _ _

/-- The bytes of a source are followed by zeros, more of them than are looked at. -/
theorem exists_paddedBytes (source : PaddedSource) :
    ∃ zeros, endPadding ≤ zeros ∧ source.paddedBytes = source.bytes ++ List.replicate zeros 0 := by
  have hroom := source.endPadding_le
  refine ⟨_, ?_, rfl⟩
  omega

/-! ## Words -/

/-- The padded size of so many bytes, in words that wrap around. -/
def paddedWord (size : UInt64) : UInt64 := (size + 4 + 64 - 1) &&& ~~~(64 - 1)

/-- A mask parts a word. -/
theorem toNat_and_not_add (word mask : UInt64) :
    (word &&& ~~~mask).toNat + (word &&& mask).toNat = word.toNat := by
  have hdisjoint :
      (word.toBitVec &&& ~~~mask.toBitVec) &&& (word.toBitVec &&& mask.toBitVec) = 0 := by
    ext i
    simp only [BitVec.getElem_and, BitVec.getElem_not]
    cases word.toBitVec[i] <;> cases mask.toBitVec[i] <;> simp
  have hjoin : (word.toBitVec &&& ~~~mask.toBitVec) ||| (word.toBitVec &&& mask.toBitVec) =
      word.toBitVec := by
    ext i
    simp only [BitVec.getElem_or, BitVec.getElem_and, BitVec.getElem_not]
    cases word.toBitVec[i] <;> cases mask.toBitVec[i] <;> decide
  have hsum := BitVec.toNat_add_of_and_eq_zero hdisjoint
  rw [BitVec.add_eq_or_of_and_eq_zero _ _ hdisjoint, hjoin] at hsum
  exact hsum.symm

theorem toNat_and_not_mask (word : UInt64) :
    (word &&& ~~~(64 - 1)).toNat = word.toNat / blockSize * blockSize := by
  have hparts := toNat_and_not_add word (64 - 1)
  have hmod : (word &&& (64 - 1)).toNat = word.toNat % blockSize := by
    rw [UInt64.toNat_and]
    exact Nat.and_two_pow_sub_one_eq_mod word.toNat 6
  have hdiv := Nat.div_add_mod' word.toNat blockSize
  omega

/-- Words compute the padded size as long as they can hold the bytes to round up. -/
theorem toNat_paddedWord {source : PaddedSource} (h : source.size ≤ 2 ^ 64 - 1 - 67) :
    (paddedWord (UInt64.ofNat source.size)).toNat = source.paddedSize := by
  have hword : UInt64.ofNat source.size + 4 + 64 - 1 = UInt64.ofNat (source.size + 67) := by
    rw [UInt64.ofNat_add, UInt64.add_assoc, UInt64.sub_eq_add_neg, UInt64.add_assoc]
    rfl
  have hfits : source.size + 67 < UInt64.size := by
    rw [UInt64.size]
    omega
  rw [paddedWord, toNat_and_not_mask, hword, UInt64.toNat_ofNat_of_lt' hfits]
  rfl

end FrontEnd.PaddedSource
