import FrontEnd.Proofs.OrderedMap.WellFormed

/-! # Insertion

What an insertion leaves: a key that is present keeps its entry, and a new key comes last. Both
keep a map well-formed as long as entry numbers have 32 bits. -/

namespace FrontEnd.OrderedMap

variable {κ α : Type} {hash : κ → UInt32}

/-! ## Growing the table -/

theorem placeFrom_count (entries : Array (Entry κ α)) (index : Nat) (slots : Slots) :
    (placeFrom entries index slots).count = slots.count := by
  fun_induction placeFrom with
  | case1 index slots h ih => rw [ih, Slots.count_place]
  | case2 => rfl

theorem length_take_hashes {entries : Array (Entry κ α)} {index : Nat} (h : index ≤ entries.size) :
    ((entries.toList.map (·.hash)).take index).length = index := by
  rw [List.length_take, List.length_map, Array.length_toList, Nat.min_eq_left h]

/-- One more entry is placed by the next number. -/
theorem indexes_place_take {entries : Array (Entry κ α)} {index : Nat} {slots : Slots}
    (hlt : index < entries.size) (h : slots.Indexes ((entries.toList.map (·.hash)).take index))
    (hroom : entries.size < slots.count) (hbits : entries.size < 2 ^ 32) :
    (slots.place entries[index].hash (index + 1)).Indexes
      ((entries.toList.map (·.hash)).take (index + 1)) := by
  have hlength := length_take_hashes hlt.le
  have hplaced := h.place entries[index].hash (by omega) (by omega)
  rw [hlength] at hplaced
  rw [List.take_succ_eq_append_getElem (by simpa using hlt)]
  simpa using hplaced

theorem placeFrom_indexes (entries : Array (Entry κ α)) (index : Nat) (slots : Slots)
    (hindex : index ≤ entries.size)
    (h : slots.Indexes ((entries.toList.map (·.hash)).take index))
    (hroom : entries.size < slots.count) (hbits : entries.size < 2 ^ 32) :
    (placeFrom entries index slots).Indexes (entries.toList.map (·.hash)) := by
  fun_induction placeFrom with
  | case1 index slots hlt ih =>
      exact ih (by omega) (indexes_place_take hlt h hroom hbits) (by simpa using hroom)
  | case2 index slots hge =>
      have hall : (entries.toList.map (·.hash)).take index = entries.toList.map (·.hash) :=
        List.take_of_length_le (by simp; omega)
      rwa [hall] at h

theorem slotCount_double (m : OrderedMap hash α) : m.double.slotCount = m.slotCount * 2 := by
  simp [double, slotCount, placeFrom_count]

theorem WellFormed.double {m : OrderedMap hash α} (h : m.WellFormed) : m.double.WellFormed where
  indexes := by
    have hroom := h.size_lt_slotCount
    apply placeFrom_indexes
    · omega
    · simpa using Slots.indexes_empty _
    · simp only [Slots.count_empty]
      exact hroom.trans_le (by omega)
    · exact h.bits
  hashed := h.hashed
  nodup := h.nodup
  power := by
    obtain ⟨k, hk⟩ := h.power
    exact ⟨k + 1, by rw [slotCount_double, hk, Nat.pow_succ, Nat.mul_assoc]⟩
  load := by
    have hload := h.load
    have hsize : m.double.size = m.size := rfl
    rw [slotCount_double, hsize]
    omega
  bits := h.bits

@[simp] theorem entries_makeRoom (m : OrderedMap hash α) : m.makeRoom.entries = m.entries := by
  unfold makeRoom
  split <;> rfl

@[simp] theorem keys_makeRoom (m : OrderedMap hash α) : m.makeRoom.keys = m.keys := by
  simp [keys]

@[simp] theorem toList_makeRoom (m : OrderedMap hash α) : m.makeRoom.toList = m.toList := by
  simp [toList]

@[simp] theorem size_makeRoom (m : OrderedMap hash α) : m.makeRoom.size = m.size := by
  simp [size]

theorem WellFormed.makeRoom {m : OrderedMap hash α} (h : m.WellFormed) :
    m.makeRoom.WellFormed := by
  unfold OrderedMap.makeRoom
  split
  · exact h.double
  · exact h

/-- There is room for one more entry. -/
theorem WellFormed.size_lt_makeRoom {m : OrderedMap hash α} (h : m.WellFormed) :
    m.size < m.makeRoom.slotCount / 4 * 3 := by
  have hload := h.load
  have hcount := h.slotCount_ge
  unfold initialSlots at hcount
  unfold OrderedMap.makeRoom isFull
  split
  · rw [slotCount_double]
    omega
  · rename_i hroom
    simpa using hroom

/-! ## New entries -/

@[simp] theorem keys_push (m : OrderedMap hash α) (slot : Nat) (key : κ) (value : α) :
    (m.push slot key value).keys = m.keys ++ [key] := by
  simp [push, keys]

@[simp] theorem toList_push (m : OrderedMap hash α) (slot : Nat) (key : κ) (value : α) :
    (m.push slot key value).toList = m.toList ++ [(key, value)] := by
  simp [push, toList]

@[simp] theorem size_push (m : OrderedMap hash α) (slot : Nat) (key : κ) (value : α) :
    (m.push slot key value).size = m.size + 1 := by
  simp [push, size]

theorem WellFormed.push {m : OrderedMap hash α} (h : m.WellFormed) {key : κ} {steps : Nat}
    (value : α) (hkey : key ∉ m.keys)
    (hvacant : m.slots.Vacancy (m.slots.home (hash key)) steps)
    (hroom : m.size < m.slotCount / 4 * 3) (hbits : m.size + 1 < 2 ^ 32) :
    (m.push (m.slots.walk (m.slots.home (hash key)) steps) key value).WellFormed := by
  have hcount : m.size + 1 < m.slotCount := by omega
  refine ⟨?_, ?_, ?_, ?_, ?_, ?_⟩
  · have hset := h.indexes.set hvacant (by simpa [slotCount] using hcount) (by simpa using hbits)
    simpa [OrderedMap.push, hashes, size] using hset
  · intro e he
    simp only [OrderedMap.push, Array.toList_push, List.mem_append, List.mem_singleton] at he
    rcases he with he | rfl
    · exact h.hashed e he
    · rfl
  · rw [keys_push, List.nodup_append]
    refine ⟨h.nodup, by simp, ?_⟩
    intro a ha b hb
    simp only [List.mem_singleton] at hb
    exact fun hab => hkey (hb ▸ hab ▸ ha)
  · simpa [OrderedMap.push, slotCount] using h.power
  · simp only [OrderedMap.push, slotCount, size, Slots.count_set, Array.size_push] at hroom ⊢
    omega
  · simpa [OrderedMap.push, size] using hbits

/-! ## Replaced values -/

/-- The map with another value in an entry. -/
def update (m : OrderedMap hash α) (index : Nat) (value : α) : OrderedMap hash α :=
  { m with entries := m.entries.modify index fun e => { e with value } }

theorem getElem_update (m : OrderedMap hash α) (index : Nat) (value : α) {i : Nat}
    (hi : i < m.entries.size) (h : i < (m.update index value).entries.size) :
    (m.update index value).entries[i] =
      if index = i then { m.entries[i] with value } else m.entries[i] := by
  simp [update, Array.getElem_modify]

@[simp] theorem size_entries_update (m : OrderedMap hash α) (index : Nat) (value : α) :
    (m.update index value).entries.size = m.entries.size := by
  simp [update]

theorem hashes_update (m : OrderedMap hash α) (index : Nat) (value : α) :
    (m.update index value).hashes = m.hashes := by
  apply List.ext_getElem
  · simp [size]
  · intro i _ h
    have hi : i < m.entries.size := by simpa [size] using h
    rw [getElem_hashes _ (by simpa using hi), getElem_hashes _ hi, getElem_update _ _ _ hi]
    split <;> rfl

@[simp] theorem keys_update (m : OrderedMap hash α) (index : Nat) (value : α) :
    (m.update index value).keys = m.keys := by
  apply List.ext_getElem
  · simp [size]
  · intro i _ h
    have hi : i < m.entries.size := by simpa [size] using h
    rw [getElem_keys _ (by simpa using hi), getElem_keys _ hi, getElem_update _ _ _ hi]
    split <;> rfl

theorem WellFormed.update {m : OrderedMap hash α} (h : m.WellFormed) (index : Nat) (value : α) :
    (m.update index value).WellFormed where
  indexes := by
    rw [hashes_update]
    exact h.indexes
  hashed := by
    intro e he
    obtain ⟨i, hi, rfl⟩ := List.getElem_of_mem he
    have hi' : i < m.entries.size := by simpa using hi
    rw [Array.getElem_toList, getElem_update _ _ _ hi']
    split <;> exact h.getElem_hash hi'
  nodup := by
    rw [keys_update]
    exact h.nodup
  power := h.power
  load := by simpa [size, slotCount, OrderedMap.update] using h.load
  bits := by simpa [size] using h.bits

/-! ## Finding or inserting -/

theorem exists_getElem_of_mem_keys {m : OrderedMap hash α} {key : κ} (hkey : key ∈ m.keys) :
    ∃ (i : Nat) (hi : i < m.entries.size), m.entries[i].key = key := by
  obtain ⟨i, hi, rfl⟩ := List.getElem_of_mem hkey
  have hi' : i < m.entries.size := by simpa [size] using hi
  exact ⟨i, hi', (getElem_keys m hi' hi).symm⟩

section Operations

variable [DecidableEq κ]

/-- A key that is present is found, and the entries stay. -/
theorem WellFormed.findOrInsert_of_getElem {m : OrderedMap hash α} (h : m.WellFormed) {i : Nat}
    (hi : i < m.entries.size) (makeValue : Unit → α) :
    m.findOrInsert m.entries[i].key makeValue = ⟨⟨i⟩, false, m.makeRoom⟩ := by
  have hprobe := h.makeRoom.probe_of_getElem (by simpa using hi : i < m.makeRoom.entries.size)
  simp only [entries_makeRoom] at hprobe
  simp only [findOrInsert, hprobe]

/-- A key that is absent is given the next entry. -/
theorem WellFormed.findOrInsert_of_notMem {m : OrderedMap hash α} (h : m.WellFormed) {key : κ}
    (hkey : key ∉ m.keys) (hbits : m.size + 1 < 2 ^ 32) (makeValue : Unit → α) :
    ∃ map : OrderedMap hash α, m.findOrInsert key makeValue = ⟨⟨m.size⟩, true, map⟩ ∧
      map.WellFormed ∧ map.toList = m.toList ++ [(key, makeValue ())] := by
  have hkey' : key ∉ m.makeRoom.keys := by simpa using hkey
  obtain ⟨steps, hvacant, hprobe⟩ := h.makeRoom.probe_of_notMem hkey'
  have hroom : m.makeRoom.size < m.makeRoom.slotCount / 4 * 3 := by
    simpa using h.size_lt_makeRoom
  refine ⟨_, ?_, h.makeRoom.push (makeValue ()) hkey' hvacant hroom (by simpa using hbits), ?_⟩
  · simp only [findOrInsert, hprobe, size_makeRoom]
  · simp

theorem size_findOrInsert (m : OrderedMap hash α) (key : κ) (makeValue : Unit → α) :
    m.size ≤ (m.findOrInsert key makeValue).map.size ∧
      (m.findOrInsert key makeValue).map.size ≤ m.size + 1 := by
  unfold findOrInsert
  dsimp only
  split <;> simp

theorem WellFormed.size_findOrInsert_of_notMem {m : OrderedMap hash α} (h : m.WellFormed) {key : κ}
    (hkey : key ∉ m.keys) (makeValue : Unit → α) :
    (m.findOrInsert key makeValue).map.size = m.size + 1 := by
  have hkey' : key ∉ m.makeRoom.keys := by simpa using hkey
  obtain ⟨steps, -, hprobe⟩ := h.makeRoom.probe_of_notMem hkey'
  simp [findOrInsert, hprobe]

/-- Setting a new key is inserting it. -/
theorem WellFormed.set_of_notMem {m : OrderedMap hash α} (h : m.WellFormed) {key : κ}
    (hkey : key ∉ m.keys) (value : α) :
    m.set key value = m.findOrInsert key fun _ => value := by
  have hkey' : key ∉ m.makeRoom.keys := by simpa using hkey
  obtain ⟨steps, -, hprobe⟩ := h.makeRoom.probe_of_notMem hkey'
  simp only [OrderedMap.set, findOrInsert, hprobe]

/-- Setting a key that is present replaces the value of its entry. -/
theorem WellFormed.set_of_getElem {m : OrderedMap hash α} (h : m.WellFormed) {i : Nat}
    (hi : i < m.entries.size) (value : α) :
    m.set m.entries[i].key value = ⟨⟨i⟩, false, m.makeRoom.update i value⟩ := by
  have hprobe := h.makeRoom.probe_of_getElem (by simpa using hi : i < m.makeRoom.entries.size)
  simp only [entries_makeRoom] at hprobe
  simp only [OrderedMap.set, hprobe, OrderedMap.update]

theorem WellFormed.mem_keys_set {m : OrderedMap hash α} (h : m.WellFormed) {key other : κ}
    {value : α} (hother : other ∈ (m.set key value).map.keys) : other = key ∨ other ∈ m.keys := by
  by_cases hkey : key ∈ m.keys
  · obtain ⟨i, hi, rfl⟩ := exists_getElem_of_mem_keys hkey
    rw [h.set_of_getElem hi, keys_update, keys_makeRoom] at hother
    exact .inr hother
  · have hkey' : key ∉ m.makeRoom.keys := by simpa using hkey
    obtain ⟨steps, -, hprobe⟩ := h.makeRoom.probe_of_notMem hkey'
    simp only [OrderedMap.set, hprobe, keys_push, keys_makeRoom, List.mem_append,
      List.mem_singleton] at hother
    exact hother.symm

theorem WellFormed.findOrInsert {m : OrderedMap hash α} (h : m.WellFormed) (key : κ)
    (makeValue : Unit → α) (hbits : key ∉ m.keys → m.size + 1 < 2 ^ 32) :
    (m.findOrInsert key makeValue).map.WellFormed := by
  by_cases hkey : key ∈ m.keys
  · obtain ⟨i, hi, rfl⟩ := exists_getElem_of_mem_keys hkey
    rw [h.findOrInsert_of_getElem hi]
    exact h.makeRoom
  · obtain ⟨map, hmap, hwell, -⟩ := h.findOrInsert_of_notMem hkey (hbits hkey) makeValue
    rw [hmap]
    exact hwell

theorem WellFormed.set {m : OrderedMap hash α} (h : m.WellFormed) (key : κ) (value : α)
    (hbits : key ∉ m.keys → m.size + 1 < 2 ^ 32) : (m.set key value).map.WellFormed := by
  by_cases hkey : key ∈ m.keys
  · obtain ⟨i, hi, rfl⟩ := exists_getElem_of_mem_keys hkey
    rw [h.set_of_getElem hi]
    exact h.makeRoom.update i value
  · rw [h.set_of_notMem hkey]
    exact h.findOrInsert key _ hbits

/-! ## Looking up -/

theorem WellFormed.get?_of_getElem {m : OrderedMap hash α} (h : m.WellFormed) {i : Nat}
    (hi : i < m.entries.size) : m.get? m.entries[i].key = some m.entries[i].value := by
  simp [get?, find?, h.probe_of_getElem hi, value?, hi]

theorem WellFormed.get?_of_notMem {m : OrderedMap hash α} (h : m.WellFormed) {key : κ}
    (hkey : key ∉ m.keys) : m.get? key = none := by
  obtain ⟨steps, -, hprobe⟩ := h.probe_of_notMem hkey
  simp [get?, find?, hprobe]

/-- The value of a key is what stands beside it in the list of entries. -/
theorem WellFormed.get?_eq_some_iff {m : OrderedMap hash α} (h : m.WellFormed) {key : κ}
    {value : α} : m.get? key = some value ↔ (key, value) ∈ m.toList := by
  constructor
  · intro hget
    by_cases hkey : key ∈ m.keys
    · obtain ⟨i, hi, rfl⟩ := exists_getElem_of_mem_keys hkey
      rw [h.get?_of_getElem hi, Option.some.injEq] at hget
      subst hget
      exact List.mem_map.mpr ⟨m.entries[i], by simp, rfl⟩
    · rw [h.get?_of_notMem hkey] at hget
      cases hget
  · intro hmem
    obtain ⟨e, he, heq⟩ := List.mem_map.mp hmem
    obtain ⟨i, hi, rfl⟩ := List.getElem_of_mem he
    simp only [Array.getElem_toList, Prod.mk.injEq] at heq
    obtain ⟨rfl, rfl⟩ := heq
    exact h.get?_of_getElem (by simpa using hi)

theorem WellFormed.get?_set {m : OrderedMap hash α} (h : m.WellFormed) (key : κ) (value : α)
    (hbits : key ∉ m.keys → m.size + 1 < 2 ^ 32) (other : κ) :
    (m.set key value).map.get? other = if other = key then some value else m.get? other := by
  have hset := h.set key value hbits
  by_cases hkey : key ∈ m.keys
  · obtain ⟨i, hi, rfl⟩ := exists_getElem_of_mem_keys hkey
    rw [h.set_of_getElem hi] at hset ⊢
    by_cases hother : other ∈ m.keys
    · obtain ⟨j, hj, rfl⟩ := exists_getElem_of_mem_keys hother
      have hj' : j < m.makeRoom.entries.size := by simpa using hj
      have hget := hset.get?_of_getElem (by simpa using hj)
      rw [getElem_update _ _ _ hj'] at hget
      by_cases hij : i = j
      · subst hij
        simpa using hget
      · have hne : m.entries[j].key ≠ m.entries[i].key :=
          fun heq => hij (h.eq_of_key_eq hi hj heq.symm)
        simpa [hij, hne, h.get?_of_getElem hj] using hget
    · have hne : other ≠ m.entries[i].key := fun heq => hother (heq ▸ hkey)
      rw [if_neg hne, h.get?_of_notMem hother, hset.get?_of_notMem (by simpa using hother)]
  · obtain ⟨map, hmap, hwell, hlist⟩ := h.findOrInsert_of_notMem hkey (hbits hkey) fun _ => value
    rw [h.set_of_notMem hkey, hmap]
    ext found
    rw [hwell.get?_eq_some_iff, hlist, List.mem_append, List.mem_singleton, Prod.mk.injEq]
    by_cases hother : other = key
    · subst hother
      have habsent : (other, found) ∉ m.toList :=
        fun hmem => hkey (List.mem_map.mpr (by
          obtain ⟨e, he, heq⟩ := List.mem_map.mp hmem
          exact ⟨e, he, congrArg Prod.fst heq⟩))
      simp [habsent, eq_comm]
    · simp [hother, h.get?_eq_some_iff]

end Operations

end FrontEnd.OrderedMap
