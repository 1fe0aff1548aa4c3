import FrontEnd.OrderedMap.Slots
import Mathlib.Data.Fintype.Card
import Mathlib.Data.Nat.ModEq

/-! # The slot table as an index of hashes

The walk from the home of a hash meets its number before it meets an empty slot, and there is an
empty slot as long as there are fewer numbers than slots. -/

namespace FrontEnd.Slots

/-! ## Walks -/

/-- The slot some steps after another. -/
def walk (slots : Slots) (start steps : Nat) : Nat := (start + steps) % slots.count

theorem walk_zero {slots : Slots} {start : Nat} (h : start < slots.count) :
    slots.walk start 0 = start := by
  simp [walk, Nat.mod_eq_of_lt h]

theorem walk_lt {slots : Slots} (h : 0 < slots.count) (start steps : Nat) :
    slots.walk start steps < slots.count :=
  Nat.mod_lt _ h

theorem walk_next (slots : Slots) (start steps : Nat) :
    slots.walk (slots.next start) steps = slots.walk start (steps + 1) := by
  simp only [walk, next, Nat.mod_add_mod]
  congr 1
  omega

theorem home_lt {slots : Slots} (h : 0 < slots.count) (hash : UInt32) :
    slots.home hash < slots.count :=
  Nat.mod_lt _ h

theorem next_lt {slots : Slots} (h : 0 < slots.count) (slot : Nat) :
    slots.next slot < slots.count :=
  Nat.mod_lt _ h

/-- A walk meets no slot twice before it comes back. -/
theorem walk_injective {slots : Slots} {start a b : Nat} (ha : a < slots.count)
    (hb : b < slots.count) (h : slots.walk start a = slots.walk start b) : a = b :=
  (Nat.ModEq.add_left_cancel' start h).eq_of_lt_of_lt ha hb

/-- A walk meets every slot before it comes back. -/
theorem exists_walk_eq {slots : Slots} {start slot : Nat} (hstart : start < slots.count)
    (hslot : slot < slots.count) : ∃ steps < slots.count, slots.walk start steps = slot := by
  by_cases h : start ≤ slot
  · refine ⟨slot - start, by omega, ?_⟩
    have hsum : start + (slot - start) = slot := by omega
    rw [walk, hsum, Nat.mod_eq_of_lt hslot]
  · refine ⟨slot + slots.count - start, by omega, ?_⟩
    have hsum : start + (slot + slots.count - start) = slot + slots.count := by omega
    rw [walk, hsum, Nat.add_mod_right, Nat.mod_eq_of_lt hslot]

/-- All slots of a walk are taken up to a step. -/
def Taken (slots : Slots) (start steps : Nat) : Prop :=
  ∀ n < steps, slots.get (slots.walk start n) ≠ 0

theorem Taken.tail {slots : Slots} {start steps : Nat} (h : slots.Taken start (steps + 1)) :
    slots.Taken (slots.next start) steps := by
  intro n hn
  rw [walk_next]
  exact h (n + 1) (by omega)

theorem Taken.head {slots : Slots} {start steps : Nat} (hstart : start < slots.count)
    (h : slots.Taken start (steps + 1)) : slots.get start ≠ 0 := by
  simpa only [walk_zero hstart] using h 0 (by omega)

/-- A step of a walk to the first empty slot. -/
structure Vacancy (slots : Slots) (start steps : Nat) : Prop where
  steps_lt : steps < slots.count
  empty : slots.get (slots.walk start steps) = 0
  taken : slots.Taken start steps

theorem findEmpty_eq_walk {slots : Slots} (limit steps : Nat) {start : Nat}
    (hstart : start < slots.count) (hlimit : steps < limit)
    (hempty : slots.get (slots.walk start steps) = 0) (htaken : slots.Taken start steps) :
    slots.findEmpty limit start = some (slots.walk start steps) := by
  induction steps generalizing limit start with
  | zero =>
      obtain ⟨limit, rfl⟩ : ∃ n, limit = n + 1 := ⟨limit - 1, by omega⟩
      rw [walk_zero hstart] at hempty ⊢
      simp [findEmpty, hempty]
  | succ steps ih =>
      obtain ⟨limit, rfl⟩ : ∃ n, limit = n + 1 := ⟨limit - 1, by omega⟩
      have hnext := ih limit (next_lt (by omega) start) (by omega)
        (by rwa [walk_next]) htaken.tail
      simp [findEmpty, htaken.head hstart, hnext, walk_next]

/-! ## Widths -/

@[simp] theorem count_empty (n : Nat) : (empty n).count = n := by simp [empty, count]

@[simp] theorem count_set (slots : Slots) (slot number : Nat) :
    (slots.set slot number).count = slots.count := by
  simp [set, count]

theorem get_empty (n slot : Nat) : (empty n).get slot = 0 := by
  by_cases h : slot < n <;> simp [empty, get, Array.getD, h]

/-- Numbers below the count of slots fit the width of a slot, if they have 32 bits. -/
theorem lt_pow_width {slots : Slots} {number : Nat} (h : number < slots.count)
    (hbits : number < 2 ^ 32) : number < Nat.pow 256 slots.width := by
  unfold width
  split
  · have : Nat.pow 256 1 = 256 := rfl
    omega
  · split
    · have : Nat.pow 256 2 = 65536 := rfl
      omega
    · have : Nat.pow 256 4 = 2 ^ 32 := rfl
      omega

theorem get_set {slots : Slots} {slot number : Nat} (hslot : slot < slots.count)
    (hnumber : number < slots.count) (hbits : number < 2 ^ 32) (other : Nat) :
    (slots.set slot number).get other = if other = slot then number else slots.get other := by
  have hfit : number % Nat.pow 256 slots.width = number :=
    Nat.mod_eq_of_lt (lt_pow_width hnumber hbits)
  unfold count at hslot
  simp only [set, get, hfit, Array.getD_eq_getD_getElem?, Array.getElem?_setIfInBounds]
  by_cases h : other = slot
  · subst h
    simp [hslot]
  · simp [h, Ne.symm h]

/-! ## Slots as an index -/

/-- The slots hold the numbers of some hashes, each once, and every hash is found on the walk from
its home before an empty slot. -/
structure Indexes (slots : Slots) (hashes : List UInt32) : Prop where
  le_length : ∀ slot, slots.get slot ≤ hashes.length
  injective : ∀ {a b}, a < slots.count → b < slots.count → slots.get a ≠ 0 →
    slots.get a = slots.get b → a = b
  reached : ∀ i (h : i < hashes.length), ∃ steps < slots.count,
    slots.get (slots.walk (slots.home hashes[i]) steps) = i + 1 ∧
      slots.Taken (slots.home hashes[i]) steps

theorem indexes_empty (n : Nat) : (empty n).Indexes [] where
  le_length slot := by simp [get_empty]
  injective _ _ h := absurd (get_empty _ _) h
  reached i h := absurd h (by simp)

namespace Indexes

variable {slots : Slots} {hashes : List UInt32}

/-- Numbers are given out once, so they cannot fill more slots than there are of them. -/
theorem exists_empty (h : slots.Indexes hashes) (hroom : hashes.length < slots.count) :
    ∃ slot < slots.count, slots.get slot = 0 := by
  by_contra hall
  push Not at hall
  let number (slot : Fin slots.count) : Fin hashes.length :=
    ⟨slots.get slot - 1, by
      have := h.le_length slot
      have := hall slot slot.isLt
      omega⟩
  have hinjective : Function.Injective number := by
    intro a b hab
    have ha := hall a a.isLt
    have hb := hall b b.isLt
    have hpred : slots.get a - 1 = slots.get b - 1 := congrArg Fin.val hab
    exact Fin.ext (h.injective a.isLt b.isLt ha (by omega))
  have hcard := Fintype.card_le_of_injective number hinjective
  simp only [Fintype.card_fin] at hcard
  omega

theorem exists_vacancy (h : slots.Indexes hashes) (hroom : hashes.length < slots.count)
    {start : Nat} (hstart : start < slots.count) : ∃ steps, slots.Vacancy start steps := by
  obtain ⟨slot, hslot, hempty⟩ := h.exists_empty hroom
  obtain ⟨bound, hbound, rfl⟩ := exists_walk_eq hstart hslot
  have hexists : ∃ steps, slots.get (slots.walk start steps) = 0 := ⟨bound, hempty⟩
  exact ⟨Nat.find hexists, (Nat.find_min' hexists hempty).trans_lt hbound,
    Nat.find_spec hexists, fun n hn => Nat.find_min hexists hn⟩

/-- The search from the home of a hash ends at the first empty slot on the walk from there. -/
theorem exists_findEmpty (h : slots.Indexes hashes) (hroom : hashes.length < slots.count)
    (hash : UInt32) : ∃ steps, slots.Vacancy (slots.home hash) steps ∧
      slots.findEmpty slots.count (slots.home hash) =
        some (slots.walk (slots.home hash) steps) := by
  have hhome := home_lt ((Nat.zero_le _).trans_lt hroom) hash
  obtain ⟨steps, hvacant⟩ := h.exists_vacancy hroom hhome
  exact ⟨steps, hvacant,
    findEmpty_eq_walk _ steps hhome hvacant.steps_lt hvacant.empty hvacant.taken⟩

/-- A new number goes to the first empty slot on the walk from the home of its hash. -/
theorem set (h : slots.Indexes hashes) {hash : UInt32} {steps : Nat}
    (hvacant : slots.Vacancy (slots.home hash) steps)
    (hroom : hashes.length + 1 < slots.count) (hbits : hashes.length + 1 < 2 ^ 32) :
    (slots.set (slots.walk (slots.home hash) steps) (hashes.length + 1)).Indexes
      (hashes ++ [hash]) := by
  have hpos : 0 < slots.count := by omega
  have hslot := walk_lt hpos (slots.home hash) steps
  have hget := get_set hslot hroom hbits
  -- The only slot that changes was empty, so no walk over taken slots changes.
  have hkept : ∀ {start n}, slots.get (slots.walk start n) ≠ 0 →
      slots.walk start n ≠ slots.walk (slots.home hash) steps := by
    intro start n hn heq
    exact hn (heq ▸ hvacant.empty)
  have hwalk : ∀ slot number start n,
      (slots.set slot number).walk start n = slots.walk start n := by simp [walk]
  have hhome : ∀ slot number hash, (slots.set slot number).home hash = slots.home hash := by
    simp [home]
  refine ⟨?_, ?_, ?_⟩
  · intro slot
    rw [hget, List.length_append, List.length_singleton]
    have := h.le_length slot
    split <;> omega
  · intro a b ha hb hne heq
    simp only [count_set] at ha hb
    rw [hget] at hne heq
    rw [hget] at heq
    have hla := h.le_length a
    have hlb := h.le_length b
    split at heq <;> split at heq
    · simp_all
    · omega
    · omega
    · rename_i hna _
      exact h.injective ha hb (by simpa [hna] using hne) heq
  · intro i hi
    simp only [hwalk, hhome, count_set, Taken]
    by_cases hold : i < hashes.length
    · obtain ⟨n, hn, hnumber, htaken⟩ := h.reached i hold
      rw [List.getElem_append_left hold]
      refine ⟨n, hn, ?_, ?_⟩
      · rw [hget, if_neg (hkept (by omega)), hnumber]
      · intro k hk
        rw [hget, if_neg (hkept (htaken k hk))]
        exact htaken k hk
    · have hlast : i = hashes.length := by simp at hi; omega
      subst hlast
      refine ⟨steps, hvacant.steps_lt, ?_, ?_⟩
      · simp [hget]
      · intro k hk
        have hk' := hvacant.taken k hk
        simp only [List.getElem_concat_length, hget, if_neg (hkept hk')]
        exact hk'

end Indexes

@[simp] theorem count_place (slots : Slots) (hash : UInt32) (number : Nat) :
    (slots.place hash number).count = slots.count := by
  unfold place
  split <;> simp

theorem Indexes.place {slots : Slots} {hashes : List UInt32} (h : slots.Indexes hashes)
    (hash : UInt32) (hroom : hashes.length + 1 < slots.count)
    (hbits : hashes.length + 1 < 2 ^ 32) :
    (slots.place hash (hashes.length + 1)).Indexes (hashes ++ [hash]) := by
  obtain ⟨steps, hvacant, hfound⟩ := h.exists_findEmpty (by omega) hash
  unfold Slots.place
  rw [hfound]
  exact h.set hvacant hroom hbits

end FrontEnd.Slots
