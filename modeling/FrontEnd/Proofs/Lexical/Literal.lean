import FrontEnd.Proofs.Lexical.Grammar
import Mathlib.Data.Nat.Digits.Lemmas

/-! # Integer literals are read as they are spelled

A word is read exactly if it is a literal, and its value is that of its digits. -/

namespace FrontEnd.Number

open LexicalGrammar

/-! ## Digits -/

theorem isDigit_iff (byte : UInt8) : isDigit byte = true ↔ 48 ≤ byte.toNat ∧ byte.toNat ≤ 57 := by
  simp [isDigit, UInt8.le_iff_toNat_le]

/-- The value of a byte as a digit, with bytes as numbers. -/
theorem digit?_eq_some (radix : Nat) (byte : UInt8) (value : Nat) :
    digit? radix byte = some value ↔ value < radix ∧
      ((48 ≤ byte.toNat ∧ byte.toNat ≤ 57 ∧ value = byte.toNat - 48) ∨
        (97 ≤ byte.toNat ∧ byte.toNat ≤ 102 ∧ value = byte.toNat - 87) ∨
        (65 ≤ byte.toNat ∧ byte.toNat ≤ 70 ∧ value = byte.toNat - 55)) := by
  simp only [digit?, isDigit_iff, Bool.and_eq_true, decide_eq_true_eq, UInt8.le_iff_toNat_le,
    UInt8.reduceToNat]
  split_ifs <;> simp <;> omega

theorem digit?_eq_some_iff {radix : Nat} {byte : UInt8} {value : Nat} :
    digit? radix byte = some value ↔ IsDigit radix byte value := by
  rw [digit?_eq_some]
  have hbyte : byte = UInt8.ofNat byte.toNat := (UInt8.ofNat_toNat).symm
  constructor
  · rintro ⟨hradix, ⟨hlow, hhigh, rfl⟩ | ⟨hlow, hhigh, rfl⟩ | ⟨hlow, hhigh, rfl⟩⟩
    · have h := IsDigit.decimal (byte.toNat - 48) hradix (by omega)
      rwa [show 0x30 + (byte.toNat - 48) = byte.toNat by omega, ← hbyte] at h
    · have h : IsDigit radix _ _ := .lower (byte.toNat - 97) (by omega) (by omega)
      rwa [show 0x61 + (byte.toNat - 97) = byte.toNat by omega, ← hbyte,
        show 10 + (byte.toNat - 97) = byte.toNat - 87 by omega] at h
    · have h : IsDigit radix _ _ := .upper (byte.toNat - 65) (by omega) (by omega)
      rwa [show 0x41 + (byte.toNat - 65) = byte.toNat by omega, ← hbyte,
        show 10 + (byte.toNat - 65) = byte.toNat - 55 by omega] at h
  · rintro (⟨value, hradix, hvalue⟩ | ⟨value, hradix, hvalue⟩ | ⟨value, hradix, hvalue⟩) <;>
      simp only [UInt8.toNat_ofNat'] <;> omega

/-- What may follow a digit up to the end of a literal. -/
def Continues (radix : Nat) (bytes digits : List UInt8) (values : List Nat) : Prop :=
  (bytes = [] ∧ digits = [] ∧ values = []) ∨ IsDigits radix bytes digits values ∨
    ∃ rest, bytes = 0x5F :: rest ∧ IsDigits radix rest digits values

theorem isDigits_cons_iff {radix : Nat} {byte : UInt8} {bytes digits : List UInt8}
    {values : List Nat} : IsDigits radix (byte :: bytes) digits values ↔
      ∃ value digits' values', digits = byte :: digits' ∧ values = value :: values' ∧
        IsDigit radix byte value ∧ Continues radix bytes digits' values' := by
  constructor
  · intro h
    cases h with
    | last hbyte => exact ⟨_, _, _, rfl, rfl, hbyte, .inl ⟨rfl, rfl, rfl⟩⟩
    | next hbyte hrest => exact ⟨_, _, _, rfl, rfl, hbyte, .inr (.inl hrest)⟩
    | separated hbyte hrest => exact ⟨_, _, _, rfl, rfl, hbyte, .inr (.inr ⟨_, rfl, hrest⟩)⟩
  · rintro ⟨value, digits', values', rfl, rfl, hbyte,
      ⟨rfl, rfl, rfl⟩ | hrest | ⟨rest, rfl, hrest⟩⟩
    · exact .last hbyte
    · exact .next hbyte hrest
    · exact .separated hbyte hrest

/-- The state of the reader says whether a separator or the end may come next. -/
def Follows (radix : Nat) (afterDigit : Bool) (bytes digits : List UInt8) (values : List Nat) :
    Prop :=
  if afterDigit then Continues radix bytes digits values else IsDigits radix bytes digits values

theorem not_isDigit_underscore {radix value : Nat} : ¬ IsDigit radix 0x5F value := by
  rw [← digit?_eq_some_iff, digit?_eq_some]
  simp

theorem not_isDigits_underscore {radix : Nat} {bytes digits : List UInt8} {values : List Nat} :
    ¬ IsDigits radix (0x5F :: bytes) digits values := by
  rw [isDigits_cons_iff]
  rintro ⟨value, -, -, -, -, hdigit, -⟩
  exact not_isDigit_underscore hdigit

theorem follows_cons_iff {radix : Nat} {afterDigit : Bool} {byte : UInt8}
    {bytes digits : List UInt8} {values : List Nat} (hbyte : byte ≠ 0x5F) :
    Follows radix afterDigit (byte :: bytes) digits values ↔
      IsDigits radix (byte :: bytes) digits values := by
  cases afterDigit <;> simp [Follows, Continues, hbyte]

theorem digitsFrom_eq_ok_iff (radix : Nat) (afterDigit : Bool) (read : Nat)
    (done bytes result : List UInt8) :
    digitsFrom radix afterDigit read done bytes = .ok result ↔
      ∃ digits values, result = done.reverse ++ digits ∧
        Follows radix afterDigit bytes digits values := by
  induction bytes generalizing afterDigit read done with
  | nil =>
      cases afterDigit with
      | false =>
          simp only [digitsFrom, Follows, Bool.false_eq_true, if_false, reduceCtorEq, false_iff]
          rintro ⟨digits, values, -, hdigits⟩
          cases hdigits
      | true =>
          have hnone : ∀ digits values, ¬ IsDigits radix [] digits values := by
            intro digits values hdigits
            cases hdigits
          simp only [digitsFrom, Follows, Continues, if_true, hnone, Except.ok.injEq]
          constructor
          · rintro rfl
            exact ⟨[], [], by simp, .inl ⟨trivial, rfl, rfl⟩⟩
          · rintro ⟨digits, values, rfl, ⟨-, rfl, -⟩ | h | ⟨rest, h, -⟩⟩
            · simp
            · cases h
            · cases h
  | cons byte bytes ih =>
      by_cases hbyte : byte = 0x5F
      · subst hbyte
        cases afterDigit with
        | false => simp [digitsFrom, Follows, not_isDigits_underscore]
        | true =>
            simp only [digitsFrom, if_true, ih]
            simp [Follows, Continues, not_isDigits_underscore]
      · simp only [follows_cons_iff hbyte, isDigits_cons_iff]
        cases hdigit : digit? radix byte with
        | none =>
            have hnone : ∀ value, ¬ IsDigit radix byte value := by
              intro value h
              rw [← digit?_eq_some_iff, hdigit] at h
              cases h
            simp [digitsFrom, hbyte, hdigit, hnone]
        | some value =>
            have hvalue : ∀ other, IsDigit radix byte other ↔ other = value := by
              intro other
              rw [← digit?_eq_some_iff, hdigit, Option.some.injEq, eq_comm]
            simp only [digitsFrom, hbyte, if_false, hdigit, Option.isSome_some, if_true, ih,
              hvalue, Follows]
            constructor
            · rintro ⟨digits, values, rfl, hrest⟩
              exact ⟨byte :: digits, value :: values, by simp, value, digits, values, rfl, rfl,
                rfl, hrest⟩
            · rintro ⟨-, -, rfl, other, digits, values, rfl, rfl, rfl, hrest⟩
              exact ⟨digits, values, by simp, hrest⟩

/-! ## Values -/

/-- The value of digits that come after others. -/
def valueFrom (radix start : Nat) (values : List Nat) : Nat :=
  values.foldl (fun value digit => value * radix + digit) start

theorem le_valueFrom {radix : Nat} (hradix : 0 < radix) (start : Nat) (values : List Nat) :
    start ≤ valueFrom radix start values := by
  induction values generalizing start with
  | nil => exact le_rfl
  | cons digit values ih =>
      have hmul : start ≤ start * radix := Nat.le_mul_of_pos_right start hradix
      exact (hmul.trans (Nat.le_add_right _ digit)).trans (ih _)

theorem valueFrom_eq (radix start : Nat) (values : List Nat) :
    valueFrom radix start values =
      start * radix ^ values.length + Nat.ofDigits radix values.reverse := by
  induction values generalizing start with
  | nil => simp [valueFrom]
  | cons digit values ih =>
      have hstep : valueFrom radix start (digit :: values) =
          valueFrom radix (start * radix + digit) values := rfl
      rw [hstep, ih, List.reverse_cons, Nat.ofDigits_append, Nat.ofDigits_singleton,
        List.length_reverse, List.length_cons, Nat.pow_succ]
      ring

theorem forall₂_of_isDigits {radix : Nat} {bytes digits : List UInt8} {values : List Nat}
    (h : IsDigits radix bytes digits values) : List.Forall₂ (IsDigit radix) digits values := by
  induction h with
  | last hbyte => exact .cons hbyte .nil
  | next hbyte _ ih => exact .cons hbyte ih
  | separated hbyte _ ih => exact .cons hbyte ih

/-- Takes one more digit into a value, as long as it is small. -/
def addDigit (radix : Nat) (value? : Option Nat) (byte : UInt8) : Option Nat :=
  value?.bind fun value =>
    let value := value * radix + (digit? radix byte).getD 0
    if value ≤ IntegerValue.smallMax then some value else none

theorem foldl_addDigit_none (radix : Nat) (digits : List UInt8) :
    digits.foldl (addDigit radix) none = none := by
  induction digits with
  | nil => rfl
  | cons byte digits ih => exact ih

/-- A value that was too large on the way is too large in the end. -/
theorem foldl_addDigit {radix : Nat} (hradix : 0 < radix) {digits : List UInt8}
    {values : List Nat} (h : List.Forall₂ (IsDigit radix) digits values) {start : Nat}
    (hstart : start ≤ IntegerValue.smallMax) :
    digits.foldl (addDigit radix) (some start) =
      if valueFrom radix start values ≤ IntegerValue.smallMax then
        some (valueFrom radix start values)
      else none := by
  induction h generalizing start with
  | nil => simp [valueFrom, hstart]
  | @cons byte digit digits values hdigit _ ih =>
      have hstep : valueFrom radix start (digit :: values) =
          valueFrom radix (start * radix + digit) values := rfl
      rw [List.foldl_cons, hstep]
      have hadd : addDigit radix (some start) byte =
          if start * radix + digit ≤ IntegerValue.smallMax then some (start * radix + digit)
          else none := by
        simp [addDigit, digit?_eq_some_iff.mpr hdigit]
      rw [hadd]
      split
      · rename_i hsmall
        exact ih hsmall
      · rename_i hlarge
        have hle := le_valueFrom hradix (start * radix + digit) values
        rw [foldl_addDigit_none, if_neg (by omega)]

theorem valueOfDigits_eq {radix : Nat} (hradix : 0 < radix) {bytes digits : List UInt8}
    {values : List Nat} (h : IsDigits radix bytes digits values) :
    valueOfDigits radix digits = literalValue radix digits values := by
  have hfold := foldl_addDigit hradix (forall₂_of_isDigits h) (Nat.zero_le IntegerValue.smallMax)
  rw [valueFrom_eq, Nat.zero_mul, Nat.zero_add] at hfold
  have hvalue : smallValue? radix digits = _ := hfold
  have hmax : ∀ value, value ≤ IntegerValue.smallMax ↔ value < 2 ^ 62 := by
    intro value
    unfold IntegerValue.smallMax
    omega
  simp only [hmax] at hvalue
  simp only [valueOfDigits, literalValue, hvalue]
  by_cases hsmall : Nat.ofDigits radix values.reverse < 2 ^ 62
  · rw [if_pos hsmall, if_pos hsmall]
  · rw [if_neg hsmall, if_neg hsmall]
    rfl

/-! ## Words -/

theorem readDigits_eq_ok_iff {radix : Nat} (hradix : 0 < radix) (skip : Nat)
    (bytes : List UInt8) (value : IntegerValue String) :
    readDigits radix skip bytes = .ok value ↔
      ∃ digits values, IsDigits radix bytes digits values ∧
        value = literalValue radix digits values := by
  have hdigits := digitsFrom_eq_ok_iff radix false skip [] bytes
  simp only [List.reverse_nil, List.nil_append, Follows, Bool.false_eq_true, if_false] at hdigits
  unfold readDigits
  cases hread : digitsFrom radix false skip [] bytes with
  | error read =>
      simp only [reduceCtorEq, false_iff]
      rintro ⟨digits, values, h, -⟩
      have hok := (hdigits digits).mpr ⟨digits, values, rfl, h⟩
      rw [hread] at hok
      cases hok
  | ok result =>
      obtain ⟨digits, values, rfl, h⟩ := (hdigits result).mp hread
      simp only [valueOfDigits_eq hradix h, Except.ok.injEq]
      constructor
      · rintro rfl
        exact ⟨result, values, h, rfl⟩
      · rintro ⟨digits, values', h', rfl⟩
        have hok := (hdigits digits).mpr ⟨digits, values', rfl, h'⟩
        rw [hread, Except.ok.injEq] at hok
        subst hok
        rw [← valueOfDigits_eq hradix h, ← valueOfDigits_eq hradix h']

/-- After a leading zero only the mark of another radix may come. -/
theorem isLiteral_zero_cons_iff {mark : UInt8} {word : List UInt8} {value : IntegerValue String} :
    IsLiteral (0x30 :: mark :: word) value ↔
      ((mark = 0x78 ∨ mark = 0x58) ∧ ∃ digits values, IsDigits 16 word digits values ∧
        value = literalValue 16 digits values) ∨
      ((mark = 0x62 ∨ mark = 0x42) ∧ ∃ digits values, IsDigits 2 word digits values ∧
        value = literalValue 2 digits values) := by
  constructor
  · intro h
    cases h with
    | decimal hdigits hhead => exact absurd rfl hhead
    | hexadecimal hmark hdigits => exact .inl ⟨hmark, _, _, hdigits, rfl⟩
    | binary hmark hdigits => exact .inr ⟨hmark, _, _, hdigits, rfl⟩
  · rintro (⟨hmark, digits, values, hdigits, rfl⟩ | ⟨hmark, digits, values, hdigits, rfl⟩)
    · exact .hexadecimal hmark hdigits
    · exact .binary hmark hdigits

/-- Exactly the literals are read, each as its value. -/
theorem read_eq_ok_iff {word : List UInt8} {value : IntegerValue String} :
    read word = .ok value ↔ IsLiteral word value := by
  unfold read
  split
  · constructor
    · intro h
      cases h
      exact .zero
    · intro h
      cases h with
      | zero => rfl
      | decimal hdigits hhead => exact absurd rfl hhead
  · rename_i mark digits
    rw [isLiteral_zero_cons_iff]
    by_cases hhex : mark = 0x78 ∨ mark = 0x58
    · have hbin : ¬ (mark = 0x62 ∨ mark = 0x42) := by
        rcases hhex with rfl | rfl <;> decide
      simp only [hhex, hbin, if_true, readDigits_eq_ok_iff, true_and, false_and, or_false,
        Nat.zero_lt_succ]
    · by_cases hbin : mark = 0x62 ∨ mark = 0x42
      · simp only [hhex, hbin, if_true, if_false, readDigits_eq_ok_iff, true_and, false_and,
          false_or, Nat.zero_lt_succ]
      · simp [hhex, hbin]
  · rename_i hzero hmark
    have hhead : word.head? ≠ some 0x30 := by
      intro h
      match word with
      | [] => cases h
      | [byte] => exact hzero (by simpa using h)
      | byte :: mark :: digits =>
          simp only [List.head?_cons, Option.some.injEq] at h
          exact hmark mark digits (by rw [h])
    rw [readDigits_eq_ok_iff (by omega)]
    constructor
    · rintro ⟨digits, values, hdigits, rfl⟩
      exact .decimal hdigits hhead
    · intro h
      cases h with
      | zero => exact absurd rfl hhead
      | decimal hdigits _ => exact ⟨_, _, hdigits, rfl⟩
      | hexadecimal _ _ => exact absurd rfl hhead
      | binary _ _ => exact absurd rfl hhead

end FrontEnd.Number
