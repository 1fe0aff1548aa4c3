import FrontEnd.OrderedMap.Basic
import FrontEnd.Proofs.OrderedMap.Slots

/-! # Well-formed maps

A map is well-formed if its slots index its entries and leave a quarter of the table free. On such
a map a search ends at the entry of the key, or at the empty slot where it belongs. -/

namespace FrontEnd.OrderedMap

variable {κ α : Type} {hash : κ → UInt32}

/-! ## The invariant -/

def hashes (m : OrderedMap hash α) : List UInt32 := m.entries.toList.map (·.hash)

def keys (m : OrderedMap hash α) : List κ := m.entries.toList.map (·.key)

@[simp] theorem length_hashes (m : OrderedMap hash α) : m.hashes.length = m.size := by
  simp [hashes, size]

@[simp] theorem length_keys (m : OrderedMap hash α) : m.keys.length = m.size := by
  simp [keys, size]

theorem getElem_hashes (m : OrderedMap hash α) {i : Nat} (hi : i < m.entries.size)
    (h : i < m.hashes.length) : m.hashes[i] = m.entries[i].hash := by
  simp [hashes]

theorem getElem_keys (m : OrderedMap hash α) {i : Nat} (hi : i < m.entries.size)
    (h : i < m.keys.length) : m.keys[i] = m.entries[i].key := by
  simp [keys]

/-- The table is indexed by its slots, sized in powers of two and never more than three quarters
full. Entry numbers have 32 bits. -/
structure WellFormed (m : OrderedMap hash α) : Prop where
  indexes : m.slots.Indexes m.hashes
  hashed : ∀ e ∈ m.entries.toList, e.hash = hash e.key
  nodup : m.keys.Nodup
  power : ∃ k, m.slotCount = initialSlots * 2 ^ k
  load : m.size ≤ m.slotCount / 4 * 3
  bits : m.size < 2 ^ 32

theorem empty_wellFormed : (empty : OrderedMap hash α).WellFormed where
  indexes := Slots.indexes_empty _
  hashed := by simp [empty]
  nodup := by simp [empty, keys]
  power := ⟨0, by simp [empty, slotCount]⟩
  load := by simp [empty, size]
  bits := by simp [empty, size]

/-- A cleared map is well-formed, whatever its size was. -/
theorem WellFormed.clear {m : OrderedMap hash α} (h : m.WellFormed) : m.clear.WellFormed where
  indexes := Slots.indexes_empty _
  hashed := by simp [OrderedMap.clear]
  nodup := by simp [OrderedMap.clear, keys]
  power := by simpa [OrderedMap.clear, slotCount, Slots.clear] using h.power
  load := by simp [OrderedMap.clear, size]
  bits := by simp [OrderedMap.clear, size]

/-- The entries are found by their own hashes. -/
theorem WellFormed.getElem_hash {m : OrderedMap hash α} (h : m.WellFormed) {i : Nat}
    (hi : i < m.entries.size) : m.entries[i].hash = hash m.entries[i].key :=
  h.hashed _ (by simp)

theorem WellFormed.slotCount_ge {m : OrderedMap hash α} (h : m.WellFormed) :
    initialSlots ≤ m.slotCount := by
  obtain ⟨k, hk⟩ := h.power
  rw [hk]
  exact Nat.le_mul_of_pos_right _ (Nat.two_pow_pos k)

theorem WellFormed.size_lt_slotCount {m : OrderedMap hash α} (h : m.WellFormed) :
    m.size < m.slotCount := by
  have hcount := h.slotCount_ge
  have hload := h.load
  unfold initialSlots at hcount
  omega

theorem WellFormed.number_le {m : OrderedMap hash α} (h : m.WellFormed) (slot : Nat) :
    m.slots.get slot ≤ m.size := by
  rw [← length_hashes]
  exact h.indexes.le_length slot

/-- A key has one place among the entries. -/
theorem WellFormed.eq_of_key_eq {m : OrderedMap hash α} (h : m.WellFormed) {i j : Nat}
    (hi : i < m.entries.size) (hj : j < m.entries.size)
    (hkey : m.entries[i].key = m.entries[j].key) :
    i = j := by
  have hi' : i < m.keys.length := by simpa [size] using hi
  have hj' : j < m.keys.length := by simpa [size] using hj
  rw [← m.getElem_keys hi hi', ← m.getElem_keys hj hj'] at hkey
  exact h.nodup.getElem_inj_iff.mp hkey

/-! ## Searching -/

section Probing

variable [DecidableEq κ]

/-- A walk over entries with other keys leads a search to where the walk ends. -/
theorem probeFrom_walk (m : OrderedMap hash α) (key : κ) (steps limit : Nat) {start : Nat}
    (hstart : start < m.slotCount) (hnumbers : ∀ slot, m.slots.get slot ≤ m.size)
    (htaken : m.slots.Taken start steps)
    (hothers : ∀ n < steps, ∀ i (hi : i < m.entries.size),
      m.slots.get (m.slots.walk start n) = i + 1 → m.entries[i].key ≠ key) :
    m.probeFrom (hash key) key (steps + limit) start =
      m.probeFrom (hash key) key limit (m.slots.walk start steps) := by
  induction steps generalizing start with
  | zero => rw [Slots.walk_zero hstart, Nat.zero_add]
  | succ steps ih =>
      have hne := htaken.head hstart
      have hle := hnumbers start
      obtain ⟨i, hi⟩ : ∃ i, m.slots.get start = i + 1 := ⟨m.slots.get start - 1, by omega⟩
      have hsize : i < m.entries.size := by
        have : m.size = m.entries.size := rfl
        omega
      have hother : m.entries[i].key ≠ key :=
        hothers 0 (by omega) i hsize (by rwa [Slots.walk_zero hstart])
      have hentry : m.entries[i]? = some m.entries[i] := Array.getElem?_eq_getElem hsize
      have hnext := ih (Slots.next_lt ((Nat.zero_le _).trans_lt hstart) start) htaken.tail
        (fun n hn j hj hnumber => hothers (n + 1) (by omega) j hj (by rwa [← Slots.walk_next]))
      rw [Nat.add_right_comm, probeFrom, hi]
      simp only [EntryId.ofNumber?, hentry, hother, and_false, if_false, hnext, Slots.walk_next]

/-- A search ends at the entry of the key. -/
theorem WellFormed.probe_of_getElem {m : OrderedMap hash α} (h : m.WellFormed) {i : Nat}
    (hi : i < m.entries.size) : m.probe m.entries[i].key = .found ⟨i⟩ := by
  have hroom := h.size_lt_slotCount
  obtain ⟨steps, hsteps, hnumber, htaken⟩ := h.indexes.reached i (by simpa [size] using hi)
  rw [getElem_hashes m hi _, h.getElem_hash hi] at hnumber htaken
  have hhome := Slots.home_lt (by exact (Nat.zero_le _).trans_lt hsteps) (hash m.entries[i].key)
  -- No number occurs twice, so the walk meets no entry with the key before its end.
  have hothers : ∀ n < steps, ∀ j (hj : j < m.entries.size),
      m.slots.get (m.slots.walk (m.slots.home (hash m.entries[i].key)) n) = j + 1 →
        m.entries[j].key ≠ m.entries[i].key := by
    intro n hn j hj hslot hkey
    obtain rfl := h.eq_of_key_eq hj hi hkey
    have hwalk := h.indexes.injective (Slots.walk_lt (by omega) _ n)
      (Slots.walk_lt (by omega) _ steps) (htaken n hn) (hslot.trans hnumber.symm)
    exact hn.ne (Slots.walk_injective (hn.trans hsteps) hsteps hwalk)
  have hlimit : m.slotCount = steps + (m.slotCount - steps - 1 + 1) := by
    simp only [slotCount] at *
    omega
  rw [probe, hlimit, probeFrom_walk m _ _ _ hhome h.number_le htaken hothers, probeFrom, hnumber]
  simp [EntryId.ofNumber?, Array.getElem?_eq_getElem hi, h.getElem_hash hi]

/-- A search for an absent key ends at the first empty slot from its home on. -/
theorem WellFormed.probe_of_notMem {m : OrderedMap hash α} (h : m.WellFormed) {key : κ}
    (hkey : key ∉ m.keys) : ∃ steps, m.slots.Vacancy (m.slots.home (hash key)) steps ∧
      m.probe key = .absent (m.slots.walk (m.slots.home (hash key)) steps) := by
  have hroom := h.size_lt_slotCount
  have hhome := Slots.home_lt (by exact (Nat.zero_le _).trans_lt hroom) (hash key)
  obtain ⟨steps, hvacant⟩ := h.indexes.exists_vacancy (by rwa [length_hashes]) hhome
  refine ⟨steps, hvacant, ?_⟩
  have hothers : ∀ n < steps, ∀ j (hj : j < m.entries.size),
      m.slots.get (m.slots.walk (m.slots.home (hash key)) n) = j + 1 → m.entries[j].key ≠ key := by
    intro n _ j hj _ heq
    exact hkey (heq ▸ List.mem_map.mpr ⟨m.entries[j], by simp, rfl⟩)
  have hlimit : m.slotCount = steps + (m.slotCount - steps - 1 + 1) := by
    have := hvacant.steps_lt
    simp only [slotCount] at *
    omega
  rw [probe, hlimit, probeFrom_walk m _ _ _ hhome h.number_le hvacant.taken hothers, probeFrom,
    hvacant.empty]
  rfl

end Probing

end FrontEnd.OrderedMap
