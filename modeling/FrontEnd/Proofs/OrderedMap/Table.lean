import FrontEnd.Proofs.OrderedMap.Refinement

/-! # The table of a map

Which slots a table has, which numbers stand in them and where, after any operations and for any
hash function. A quarter of the slots stays free, so the searches in the table would end without a
limit, and a slot is never too narrow for the number that is put into it. -/

namespace FrontEnd

/-! ## Searches that nothing limits -/

namespace Slots

/-- Puts a number into a slot as it is, however wide the slots are. -/
def put (slots : Slots) (slot number : Nat) : Slots := ⟨slots.cells.setIfInBounds slot number⟩

theorem set_eq_put {slots : Slots} {number : Nat} (h : number < Nat.pow 256 slots.width)
    (slot : Nat) : slots.set slot number = slots.put slot number := by
  rw [set, put, Nat.mod_eq_of_lt h]

/-- An empty slot is looked for from a slot on, and nothing limits the search. -/
inductive LeadsToEmpty (slots : Slots) : Nat → Nat → Prop
  | here {slot : Nat} : slots.get slot = 0 → LeadsToEmpty slots slot slot
  | next {slot last : Nat} : slots.get slot ≠ 0 → LeadsToEmpty slots (slots.next slot) last →
      LeadsToEmpty slots slot last

theorem walk_home (slots : Slots) (hash : UInt32) (steps : Nat) :
    slots.walk (slots.home hash) steps = (hash.toNat + steps) % slots.count :=
  Nat.mod_add_mod ..

theorem leadsToEmpty_of_findEmpty {slots : Slots} {limit slot last : Nat}
    (h : slots.findEmpty limit slot = some last) : slots.LeadsToEmpty slot last := by
  induction limit generalizing slot with
  | zero => cases h
  | succ limit ih =>
      rw [findEmpty] at h
      by_cases hempty : slots.get slot = 0
      · rw [if_pos hempty, Option.some.injEq] at h
        subst h
        exact .here hempty
      · rw [if_neg hempty] at h
        exact .next hempty (ih h)

/-- The next number goes whole into the slot where a search that nothing limits ends. -/
theorem Indexes.exists_place_eq_put {slots : Slots} {hashes : List UInt32}
    (h : slots.Indexes hashes) (hash : UInt32) (hroom : hashes.length + 1 < slots.count)
    (hbits : hashes.length + 1 < 2 ^ 32) :
    ∃ slot, slots.LeadsToEmpty (slots.home hash) slot ∧
      slots.place hash (hashes.length + 1) = slots.put slot (hashes.length + 1) := by
  obtain ⟨steps, -, hfound⟩ := h.exists_findEmpty (by omega) hash
  refine ⟨_, leadsToEmpty_of_findEmpty hfound, ?_⟩
  rw [Slots.place, hfound]
  exact set_eq_put (lt_pow_width hroom hbits) _

end Slots

namespace OrderedMap

variable {κ α : Type} {hash : κ → UInt32}

/-- A key is looked for from a slot on, and nothing limits the search. There is no rule for a number
without an entry. -/
inductive Searches (m : OrderedMap hash α) (h : UInt32) (key : κ) : Nat → Probe → Prop
  | absent {slot : Nat} : m.slots.get slot = 0 → Searches m h key slot (.absent slot)
  | found {slot i : Nat} (hi : i < m.entries.size) : m.slots.get slot = i + 1 →
      m.entries[i].hash = h ∧ m.entries[i].key = key → Searches m h key slot (.found ⟨i⟩)
  | next {slot i : Nat} {result : Probe} (hi : i < m.entries.size) : m.slots.get slot = i + 1 →
      ¬ (m.entries[i].hash = h ∧ m.entries[i].key = key) →
      Searches m h key (m.slots.next slot) result → Searches m h key slot result

/-- The entries from an index on are placed by searches that nothing limits, and their numbers are
put into the slots as they are. -/
inductive Replays (entries : Array (Entry κ α)) : Nat → Slots → Slots → Prop
  | done {slots : Slots} : Replays entries entries.size slots slots
  | place {index slot : Nat} {slots last : Slots} (h : index < entries.size) :
      slots.LeadsToEmpty (slots.home entries[index].hash) slot →
      Replays entries (index + 1) (slots.put slot (index + 1)) last →
      Replays entries index slots last

theorem searches_of_probeFrom [DecidableEq κ] {m : OrderedMap hash α} {h : UInt32} {key : κ}
    {limit slot : Nat} (hends : m.probeFrom h key limit slot ≠ .exhausted) :
    m.Searches h key slot (m.probeFrom h key limit slot) := by
  induction limit generalizing slot with
  | zero => exact absurd rfl hends
  | succ limit ih =>
      rw [probeFrom] at hends ⊢
      cases hnumber : m.slots.get slot with
      | zero => exact .absent hnumber
      | succ i =>
          simp only [hnumber, EntryId.ofNumber?] at hends ⊢
          by_cases hi : i < m.entries.size
          · simp only [Array.getElem?_eq_getElem hi] at hends ⊢
            by_cases hfound : m.entries[i].hash = h ∧ m.entries[i].key = key
            · rw [if_pos hfound]
              exact .found hi hnumber hfound
            · rw [if_neg hfound] at hends ⊢
              exact .next hi hnumber hfound (ih hends)
          · simp [Array.getElem?_eq_none (Nat.le_of_not_lt hi)] at hends

theorem WellFormed.searches [DecidableEq κ] {m : OrderedMap hash α} (h : m.WellFormed) (key : κ) :
    m.Searches (hash key) key (m.slots.home (hash key)) (m.probe key) := by
  apply searches_of_probeFrom
  change m.probe key ≠ .exhausted
  by_cases hkey : key ∈ m.keys
  · obtain ⟨i, hi, rfl⟩ := exists_getElem_of_mem_keys hkey
    rw [h.probe_of_getElem hi]
    exact nofun
  · obtain ⟨steps, -, hprobe⟩ := h.probe_of_notMem hkey
    rw [hprobe]
    exact nofun

theorem placeFrom_replays (entries : Array (Entry κ α)) (index : Nat) (slots : Slots)
    (hindex : index ≤ entries.size)
    (h : slots.Indexes ((entries.toList.map (·.hash)).take index))
    (hroom : entries.size < slots.count) (hbits : entries.size < 2 ^ 32) :
    Replays entries index slots (placeFrom entries index slots) := by
  fun_induction placeFrom with
  | case1 index slots hlt ih =>
      have hlength := length_take_hashes hlt.le
      have hrest := ih (by omega) (indexes_place_take hlt h hroom hbits) (by simpa using hroom)
      obtain ⟨slot, hleads, hput⟩ :=
        h.exists_place_eq_put entries[index].hash (by omega) (by omega)
      rw [hlength] at hput
      rw [hput] at hrest ⊢
      exact .place hlt hleads hrest
  | case2 index slots hge =>
      obtain rfl : index = entries.size := by omega
      exact .done

theorem WellFormed.replays_double {m : OrderedMap hash α} (h : m.WellFormed) :
    Replays m.entries 0 (Slots.empty (m.slotCount * 2)) m.double.slots := by
  have hroom := h.size_lt_slotCount
  apply placeFrom_replays
  · exact Nat.zero_le _
  · simpa using Slots.indexes_empty _
  · rw [Slots.count_empty]
    exact hroom.trans_le (by omega)
  · exact h.bits

/-! ## What a table holds -/

/-- The low 32 bits of a digest of 64 bits. -/
def lowBits (digest : κ → UInt64) (key : κ) : UInt32 := (digest key).toUInt32

/-- The table of a map whose keys are hashed by the low bits of a digest. -/
structure Tabulated (digest : κ → UInt64) [DecidableEq κ] (m : OrderedMap (lowBits digest) α) :
    Prop where
  power : ∃ k, m.slotCount = 2 ^ k
  count_ge : 16 ≤ m.slotCount
  /-- A mask of the low bits goes around the table. -/
  mask : ∀ n, n &&& (m.slotCount - 1) = n % m.slotCount
  load : 4 * m.size ≤ 3 * m.slotCount
  vacant : ∃ slot < m.slotCount, m.slots.get slot = 0
  /-- The search for a key ends though nothing limits it. -/
  searches : ∀ key, m.Searches (lowBits digest key) key (m.slots.home (lowBits digest key))
    (m.probe key)
  /-- The searches of a doubling end though nothing limits them, and no number is cut. -/
  replays : Replays m.entries 0 (Slots.empty (m.slotCount * 2)) m.double.slots
  once : ∀ number, 1 ≤ number → number ≤ m.size →
    ∃! slot, slot < m.slotCount ∧ m.slots.get slot = number
  only : ∀ slot, m.slots.get slot ≠ 0 → 1 ≤ m.slots.get slot ∧ m.slots.get slot ≤ m.size
  /-- All slots on the way from the home of an entry to its slot are taken. -/
  reached : ∀ slot < m.slotCount, ∀ i (hi : i < m.entries.size), m.slots.get slot = i + 1 →
    ∃ steps < m.slotCount, (m.entries[i].hash.toNat + steps) % m.slotCount = slot ∧
      ∀ n < steps, m.slots.get ((m.entries[i].hash.toNat + n) % m.slotCount) ≠ 0
  distinct : ∀ i j (hi : i < m.entries.size) (hj : j < m.entries.size),
    m.entries[i].key = m.entries[j].key → i = j
  hashed : ∀ i (hi : i < m.entries.size),
    m.entries[i].hash.toNat = (digest m.entries[i].key).toNat % 2 ^ 32
  /-- Every number fits the width of the slots. -/
  fits : ∀ slot, m.slots.get slot < Nat.pow 256 m.slots.width
  /-- If there is room for an entry, its number is not cut. -/
  appends : m.isFull = false → m.size + 1 < 2 ^ 32 →
    ∀ slot, m.slots.set slot (m.size + 1) = m.slots.put slot (m.size + 1)

theorem WellFormed.slotCount_eq_two_pow {m : OrderedMap hash α} (h : m.WellFormed) :
    ∃ k, m.slotCount = 2 ^ k := by
  obtain ⟨k, hk⟩ := h.power
  exact ⟨4 + k, by rw [hk, Nat.pow_add]; rfl⟩

theorem WellFormed.existsUnique_slot {m : OrderedMap hash α} (h : m.WellFormed) {number : Nat}
    (hlow : 1 ≤ number) (hhigh : number ≤ m.size) :
    ∃! slot, slot < m.slotCount ∧ m.slots.get slot = number := by
  obtain ⟨i, rfl⟩ : ∃ i, number = i + 1 := ⟨number - 1, by omega⟩
  have hi : i < m.hashes.length := by rwa [length_hashes]
  obtain ⟨steps, hsteps, hnumber, -⟩ := h.indexes.reached i hi
  have hlt := Slots.walk_lt ((Nat.zero_le _).trans_lt hsteps) (m.slots.home m.hashes[i]) steps
  refine ⟨_, ⟨hlt, hnumber⟩, ?_⟩
  rintro slot ⟨hslot, heq⟩
  exact h.indexes.injective hslot hlt (by omega) (heq.trans hnumber.symm)

/-- The slots from the home of an entry to its slot are taken. -/
theorem WellFormed.exists_steps {m : OrderedMap hash α} (h : m.WellFormed) {slot i : Nat}
    (hslot : slot < m.slotCount) (hi : i < m.entries.size) (hnumber : m.slots.get slot = i + 1) :
    ∃ steps < m.slotCount, (m.entries[i].hash.toNat + steps) % m.slotCount = slot ∧
      ∀ n < steps, m.slots.get ((m.entries[i].hash.toNat + n) % m.slotCount) ≠ 0 := by
  obtain ⟨steps, hsteps, heq, htaken⟩ := h.indexes.reached i (by simpa [size] using hi)
  rw [getElem_hashes m hi] at heq htaken
  have hlt := Slots.walk_lt ((Nat.zero_le _).trans_lt hsteps) (m.slots.home m.entries[i].hash) steps
  refine ⟨steps, hsteps, ?_, fun n hn => ?_⟩
  · rw [slotCount, ← Slots.walk_home]
    exact h.indexes.injective hlt hslot (by omega) (heq.trans hnumber.symm)
  · rw [slotCount, ← Slots.walk_home]
    exact htaken n hn

theorem WellFormed.tabulated {digest : κ → UInt64} [DecidableEq κ]
    {m : OrderedMap (lowBits digest) α} (h : m.WellFormed) : m.Tabulated digest where
  power := h.slotCount_eq_two_pow
  count_ge := h.slotCount_ge
  mask := by
    intro n
    obtain ⟨k, hk⟩ := h.slotCount_eq_two_pow
    rw [hk, Nat.and_two_pow_sub_one_eq_mod]
  load := by
    have hload := h.load
    omega
  vacant := h.indexes.exists_empty (by rw [length_hashes]; exact h.size_lt_slotCount)
  searches := h.searches
  replays := h.replays_double
  once _ := h.existsUnique_slot
  only slot hne := ⟨Nat.pos_of_ne_zero hne, h.number_le slot⟩
  reached _ hslot _ hi := h.exists_steps hslot hi
  distinct _ _ hi hj := h.eq_of_key_eq hi hj
  hashed := by
    intro i hi
    rw [h.getElem_hash hi, lowBits, UInt64.toNat_toUInt32]
  fits slot := Slots.lt_pow_width ((h.number_le slot).trans_lt h.size_lt_slotCount)
    ((h.number_le slot).trans_lt h.bits)
  appends := by
    intro hroom hbits slot
    have hcount := h.slotCount_ge
    unfold initialSlots at hcount
    rw [isFull, decide_eq_false_iff_not] at hroom
    exact Slots.set_eq_put (Slots.lt_pow_width (by rw [slotCount] at *; omega) hbits) slot

/-! ## Operations one after another -/

variable [DecidableEq κ]

theorem size_set_le (m : OrderedMap hash α) (key : κ) (value : α) :
    (m.set key value).map.size ≤ m.size + 1 := by
  unfold set
  dsimp only
  split
  · rw [size, Array.size_modify, entries_makeRoom]
    exact Nat.le_succ _
  · rw [size_push, size_makeRoom]
  · rw [size_makeRoom]
    exact Nat.le_succ _

theorem WellFormed.set_of_size_lt {m : OrderedMap hash α} (h : m.WellFormed) (key : κ) (value : α)
    (hbits : (m.set key value).map.size < 2 ^ 32) : (m.set key value).map.WellFormed := by
  refine h.set key value fun hkey => ?_
  rwa [← h.size_findOrInsert_of_notMem hkey fun _ => value, ← h.set_of_notMem hkey]

/-- One operation keeps a map well-formed. -/
theorem WellFormed.onMap {m : OrderedMap hash α} (h : m.WellFormed) (op : Operation κ α)
    (hbits : (op.onMap m).2.size < 2 ^ 32) : (op.onMap m).2.WellFormed := by
  cases op with
  | set key value => exact h.set_of_size_lt key value hbits
  | findOrInsert key makeValue =>
      refine h.findOrInsert key makeValue fun hkey => ?_
      rwa [← h.size_findOrInsert_of_notMem hkey makeValue]
  | insert key => exact h.set_of_size_lt key ⟨⟩ hbits
  | clear => exact h.clear

theorem WellFormed.runWith {m : OrderedMap hash α} (h : m.WellFormed) (ops : List (Operation κ α))
    (hbits : ∀ before, before <+: ops →
      (Operation.runWith Operation.onMap m before).2.size < 2 ^ 32) :
    (Operation.runWith Operation.onMap m ops).2.WellFormed := by
  induction ops generalizing m with
  | nil => exact h
  | cons op ops ih =>
      have hnext := h.onMap op (hbits [op] (by simp))
      exact ih hnext fun before hbefore =>
        hbits (op :: before) (List.cons_prefix_cons.mpr ⟨rfl, hbefore⟩)

theorem size_onMap_le (m : OrderedMap hash α) (op : Operation κ α) :
    (op.onMap m).2.size ≤ m.size + 1 := by
  cases op with
  | set key value => exact size_set_le m key value
  | findOrInsert key makeValue => exact (size_findOrInsert m key makeValue).2
  | insert key => exact size_set_le m key ⟨⟩
  | clear => simp [Operation.onMap, clear, size]

theorem size_runWith_onMap_le (m : OrderedMap hash α) (ops : List (Operation κ α)) :
    (Operation.runWith Operation.onMap m ops).2.size ≤ m.size + ops.length := by
  induction ops generalizing m with
  | nil => exact Nat.le_refl _
  | cons op ops ih =>
      calc (Operation.runWith Operation.onMap m (op :: ops)).2.size
          ≤ (op.onMap m).2.size + ops.length := ih _
        _ ≤ m.size + 1 + ops.length := Nat.add_le_add_right (size_onMap_le m op) _
        _ = m.size + (op :: ops).length := by rw [List.length_cons, Nat.add_right_comm]; rfl

/-- Whatever the hash function is, after every sequence of operations that leaves entry numbers at
32 bits the table of a map is in order, and so is the table that an insertion searches, which has
been doubled if it was full and has room then. -/
theorem runFromEmpty_tabulated (digest : κ → UInt64) (ops : List (Operation κ α))
    (hbits : ∀ before, before <+: ops →
      (runFromEmpty (lowBits digest) before).2.size < 2 ^ 32) :
    (runFromEmpty (lowBits digest) ops).2.Tabulated digest ∧
      (runFromEmpty (lowBits digest) ops).2.makeRoom.Tabulated digest ∧
      (runFromEmpty (lowBits digest) ops).2.makeRoom.isFull = false := by
  have hwell := empty_wellFormed.runWith ops hbits
  refine ⟨hwell.tabulated, hwell.makeRoom.tabulated, ?_⟩
  have hroom := hwell.size_lt_makeRoom
  rw [isFull, decide_eq_false_iff_not, size_makeRoom]
  exact Nat.not_le_of_lt hroom

/-- A digest that leads every key to the last slot of the first table. Its high bits differ. -/
def lastSlotDigest (n : Nat) : UInt64 := UInt64.ofNat (n * 2 ^ 32 + 15)

/-- As many keys as the first table takes. -/
def twelveKeys : List (Operation Nat Nat) := (List.range 12).map fun n => .set n n

/-- Behind the last slot of the first table the numbers go on in the first one, and in the doubled
table there is a slot behind it. -/
theorem runFromEmpty_tabulated_twelveKeys :
    ∃ m : OrderedMap (lowBits lastSlotDigest) Nat, m.Tabulated lastSlotDigest ∧
      m.makeRoom.Tabulated lastSlotDigest ∧
      m.slotCount = 16 ∧ m.slots.get 15 = 1 ∧ m.slots.get 0 = 2 ∧
      m.makeRoom.slotCount = 32 ∧ m.makeRoom.slots.get 15 = 1 ∧ m.makeRoom.slots.get 16 = 2 := by
  have hbits : ∀ before, before <+: twelveKeys →
      (runFromEmpty (lowBits lastSlotDigest) before).2.size < 2 ^ 32 := by
    intro before hbefore
    have hempty : (empty : OrderedMap (lowBits lastSlotDigest) Nat).size = 0 := rfl
    have hsize := size_runWith_onMap_le (empty : OrderedMap (lowBits lastSlotDigest) Nat) before
    have hlength : before.length ≤ 12 := hbefore.length_le
    rw [runFromEmpty]
    omega
  obtain ⟨hmap, hroom, -⟩ := runFromEmpty_tabulated lastSlotDigest twelveKeys hbits
  exact ⟨_, hmap, hroom, by decide +kernel, by decide +kernel, by decide +kernel,
    by decide +kernel, by decide +kernel, by decide +kernel⟩

end OrderedMap

end FrontEnd
