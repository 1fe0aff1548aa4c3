import FrontEnd.Proofs.OrderedMap.Insertion

/-! # Maps answer as lists of entries do

Whatever the hash function is, a map answers every sequence of operations as a list of entries
does that is searched from its start. The table of slots shows in its size alone, which follows
from the sizes of that list. -/

namespace FrontEnd

/-! ## Lists of entries -/

namespace EntryList

variable {κ α : Type}

/-- Gives another value to the entry at a place. -/
def replaceAt (entries : List (κ × α)) (index : Nat) (value : α) : List (κ × α) :=
  entries.modify index fun entry => (entry.1, value)

@[simp] theorem length_replaceAt (entries : List (κ × α)) (index : Nat) (value : α) :
    (replaceAt entries index value).length = entries.length :=
  List.length_modify ..

@[simp] theorem map_fst_replaceAt (entries : List (κ × α)) (index : Nat) (value : α) :
    (replaceAt entries index value).map Prod.fst = entries.map Prod.fst := by
  apply List.ext_getElem
  · simp
  · intro i _ _
    simp only [replaceAt, List.getElem_map, List.getElem_modify]
    split <;> rfl

/-- Where no key stands twice, no earlier entry has the key of a later one. -/
theorem key_ne_of_lt {entries : List (κ × α)} (h : (entries.map Prod.fst).Nodup) {i j : Nat}
    (hj : j < entries.length) (hi : i < entries.length) (hlt : j < i) :
    entries[j].1 ≠ entries[i].1 :=
  List.pairwise_iff_getElem.mp (List.pairwise_map.mp h) j i hj hi hlt

variable [DecidableEq κ]

/-- The place of the first entry of a key. -/
def place? (entries : List (κ × α)) (key : κ) : Option Nat :=
  entries.findIdx? fun entry => entry.1 = key

/-- The value of the first entry of a key. -/
def get? (entries : List (κ × α)) (key : κ) : Option α :=
  (entries.find? fun entry => entry.1 = key).map Prod.snd

theorem place?_of_notMem {entries : List (κ × α)} {key : κ} (h : key ∉ entries.map Prod.fst) :
    place? entries key = none := by
  rw [place?, List.findIdx?_eq_none_iff]
  intro entry hentry
  simpa using fun heq : entry.1 = key => h (heq ▸ List.mem_map_of_mem hentry)

theorem get?_of_notMem {entries : List (κ × α)} {key : κ} (h : key ∉ entries.map Prod.fst) :
    get? entries key = none := by
  rw [get?, Option.map_eq_none_iff, List.find?_eq_none]
  intro entry hentry
  simpa using fun heq : entry.1 = key => h (heq ▸ List.mem_map_of_mem hentry)

theorem place?_getElem {entries : List (κ × α)} (h : (entries.map Prod.fst).Nodup) {i : Nat}
    (hi : i < entries.length) : place? entries entries[i].1 = some i := by
  rw [place?, List.findIdx?_eq_some_iff_getElem]
  refine ⟨hi, by simp, fun j hj => ?_⟩
  simpa using key_ne_of_lt h (hj.trans hi) hi hj

theorem get?_getElem {entries : List (κ × α)} (h : (entries.map Prod.fst).Nodup) {i : Nat}
    (hi : i < entries.length) : get? entries entries[i].1 = some entries[i].2 := by
  have hfind : (entries.find? fun entry => entry.1 = entries[i].1) = some entries[i] := by
    rw [List.find?_eq_some_iff_getElem]
    refine ⟨by simp, i, hi, rfl, fun j hj => ?_⟩
    simpa using key_ne_of_lt h (hj.trans hi) hi hj
  rw [get?, hfind]
  rfl

end EntryList

/-! ## Operations -/

/-- An operation that changes a map from keys to values of a type. -/
inductive Operation (κ : Type) : Type → Type 1
  | set {α : Type} (key : κ) (value : α) : Operation κ α
  | findOrInsert {α : Type} (key : κ) (makeValue : Unit → α) : Operation κ α
  | insert (key : κ) : Operation κ PUnit
  | clear {α : Type} : Operation κ α

namespace Operation

variable {κ α : Type}

/-- The entry of the key, and whether the operation made it; clearing has no reply. -/
abbrev Reply : Type := Option (EntryId × Bool)

/-- The replies to operations one after another, and the state after all of them. -/
def runWith {σ : Type} (step : σ → Operation κ α → Reply × σ) :
    σ → List (Operation κ α) → List Reply × σ
  | state, [] => ([], state)
  | state, op :: ops =>
    let rest := runWith step (step state op).2 ops
    ((step state op).1 :: rest.1, rest.2)

theorem runWith_append {σ : Type} (step : σ → Operation κ α → Reply × σ) (state : σ)
    (ops more : List (Operation κ α)) :
    (runWith step state (ops ++ more)).2 =
      (runWith step (runWith step state ops).2 more).2 := by
  induction ops generalizing state with
  | nil => rfl
  | cons op ops ih => exact ih _

variable [DecidableEq κ]

/-- A new key comes last. Only `set` changes the entry of a key that is present. -/
def onList : {α : Type} → List (κ × α) → Operation κ α → Reply × List (κ × α)
  | _, entries, .set key value =>
    match EntryList.place? entries key with
    | some i => (some (⟨i⟩, false), EntryList.replaceAt entries i value)
    | none => (some (⟨entries.length⟩, true), entries ++ [(key, value)])
  | _, entries, .findOrInsert key makeValue =>
    match EntryList.place? entries key with
    | some i => (some (⟨i⟩, false), entries)
    | none => (some (⟨entries.length⟩, true), entries ++ [(key, makeValue ())])
  | _, entries, .insert key =>
    match EntryList.place? entries key with
    | some i => (some (⟨i⟩, false), entries)
    | none => (some (⟨entries.length⟩, true), entries ++ [(key, ⟨⟩)])
  | _, _, .clear => (none, [])

def onMap {hash : κ → UInt32} :
    {α : Type} → OrderedMap hash α → Operation κ α → Reply × OrderedMap hash α
  | _, m, .set key value => reply (m.set key value)
  | _, m, .findOrInsert key makeValue => reply (m.findOrInsert key makeValue)
  | _, m, .insert key => reply (OrderedSet.insert m key)
  | _, m, .clear => (none, m.clear)
where
  reply {α : Type} (insertion : OrderedMap.Insertion hash α) : Reply × OrderedMap hash α :=
    (some (insertion.id, insertion.isNew), insertion.map)

/-- Every insertion, whether the key is new or not, doubles a full table before it searches. -/
def slotCountAfter (size count : Nat) : Operation κ α → Nat
  | .clear => count
  | _ => if count / 4 * 3 ≤ size then count * 2 else count

/-! ### What one operation does to a list -/

theorem length_onList_le (entries : List (κ × α)) (op : Operation κ α) :
    (onList entries op).2.length ≤ entries.length + 1 := by
  cases op with
  | set key value => simp only [onList]; split <;> simp
  | findOrInsert key makeValue => simp only [onList]; split <;> simp
  | insert key => simp only [onList]; split <;> simp
  | clear => simp [onList]

theorem length_runWith_onList_le (entries : List (κ × α)) (ops : List (Operation κ α)) :
    (runWith onList entries ops).2.length ≤ entries.length + ops.length := by
  induction ops generalizing entries with
  | nil => simp [runWith]
  | cons op ops ih =>
      have hstep := length_onList_le entries op
      have hrest := ih (onList entries op).2
      simp only [runWith, List.length_cons]
      omega

/-- Keys stay in their places until the list is cleared. -/
theorem keys_onList (entries : List (κ × α)) (op : Operation κ α) (h : op ≠ .clear) :
    entries.map Prod.fst <+: (onList entries op).2.map Prod.fst := by
  cases op with
  | set key value => simp only [onList]; split <;> simp
  | findOrInsert key makeValue => simp only [onList]; split <;> simp
  | insert key => simp only [onList]; split <;> simp
  | clear => exact absurd rfl h

theorem keys_runWith_onList (entries : List (κ × α)) {ops : List (Operation κ α)}
    (h : .clear ∉ ops) :
    entries.map Prod.fst <+: (runWith onList entries ops).2.map Prod.fst := by
  induction ops generalizing entries with
  | nil => exact List.prefix_refl _
  | cons op ops ih =>
      have hstep := keys_onList entries op fun heq => h (heq ▸ List.mem_cons_self)
      exact hstep.trans (ih _ fun hmem => h (List.mem_cons_of_mem _ hmem))

end Operation

/-! ## Maps beside lists -/

namespace OrderedMap

variable {κ α : Type} {hash : κ → UInt32}

@[simp] theorem length_toList (m : OrderedMap hash α) : m.toList.length = m.size := by
  simp [toList, size]

theorem map_fst_toList (m : OrderedMap hash α) : m.toList.map Prod.fst = m.keys := by
  simp [toList, keys]

theorem toList_update (m : OrderedMap hash α) (index : Nat) (value : α) :
    (m.update index value).toList = EntryList.replaceAt m.toList index value := by
  apply List.ext_getElem
  · simp [size]
  · intro i hi _
    have hi' : i < m.entries.size := by simpa [size] using hi
    simp only [toList, EntryList.replaceAt, List.getElem_map, List.getElem_modify,
      Array.getElem_toList, getElem_update _ _ _ hi']
    split <;> rfl

theorem slotCount_push (m : OrderedMap hash α) (slot : Nat) (key : κ) (value : α) :
    (m.push slot key value).slotCount = m.slotCount := by
  simp [push, slotCount]

theorem slotCount_makeRoom (m : OrderedMap hash α) :
    m.makeRoom.slotCount =
      if m.slotCount / 4 * 3 ≤ m.size then m.slotCount * 2 else m.slotCount := by
  by_cases h : m.slotCount / 4 * 3 ≤ m.size
  · simp [makeRoom, isFull, h, slotCount_double]
  · simp [makeRoom, isFull, h]

/-- A well-formed map that has the entries of a list. -/
structure Represents (m : OrderedMap hash α) (entries : List (κ × α)) : Prop where
  wellFormed : m.WellFormed
  toList_eq : m.toList = entries

namespace Represents

variable {m : OrderedMap hash α} {entries : List (κ × α)}

variable (hash) in
theorem empty : (empty : OrderedMap hash α).Represents [] :=
  ⟨empty_wellFormed, rfl⟩

theorem size_eq (h : m.Represents entries) : m.size = entries.length := by
  rw [← h.toList_eq, length_toList]

theorem keys_eq (h : m.Represents entries) : m.keys = entries.map Prod.fst := by
  rw [← h.toList_eq, map_fst_toList]

theorem nodup (h : m.Represents entries) : (entries.map Prod.fst).Nodup :=
  h.keys_eq ▸ h.wellFormed.nodup

theorem getElem_eq (h : m.Represents entries) {i : Nat} (hi : i < m.entries.size)
    (hi' : i < entries.length) : entries[i] = (m.entries[i].key, m.entries[i].value) := by
  obtain ⟨-, rfl⟩ := h
  simp [OrderedMap.toList]

theorem makeRoom (h : m.Represents entries) : m.makeRoom.Represents entries :=
  ⟨h.wellFormed.makeRoom, by rw [toList_makeRoom, h.toList_eq]⟩

theorem update (h : m.Represents entries) (index : Nat) (value : α) :
    (m.update index value).Represents (EntryList.replaceAt entries index value) :=
  ⟨h.wellFormed.update index value, by rw [toList_update, h.toList_eq]⟩

end Represents

variable [DecidableEq κ]

theorem slotCount_set (m : OrderedMap hash α) (key : κ) (value : α) :
    (m.set key value).map.slotCount = m.makeRoom.slotCount := by
  simp only [set]
  split
  · rfl
  · exact slotCount_push ..
  · rfl

theorem slotCount_findOrInsert (m : OrderedMap hash α) (key : κ) (makeValue : Unit → α) :
    (m.findOrInsert key makeValue).map.slotCount = m.makeRoom.slotCount := by
  simp only [findOrInsert]
  split
  · rfl
  · exact slotCount_push ..
  · rfl

/-- The size of the table never depends on which slots are taken. -/
theorem slotCount_onMap (m : OrderedMap hash α) (op : Operation κ α) :
    (op.onMap m).2.slotCount = op.slotCountAfter m.size m.slotCount := by
  cases op with
  | set key value => exact (slotCount_set ..).trans (slotCount_makeRoom m)
  | findOrInsert key makeValue => exact (slotCount_findOrInsert ..).trans (slotCount_makeRoom m)
  | insert key => exact (slotCount_set ..).trans (slotCount_makeRoom m)
  | clear => simp [Operation.onMap, Operation.slotCountAfter, clear, slotCount, Slots.clear]

/-- All that the questions about a map answer is read off a list of entries. -/
structure Shows (m : OrderedMap hash α) (entries : List (κ × α)) : Prop where
  toList : m.toList = entries
  size : m.size = entries.length
  isEmpty : m.isEmpty = entries.isEmpty
  find? : ∀ key, m.find? key = (EntryList.place? entries key).map EntryId.mk
  get? : ∀ key, m.get? key = EntryList.get? entries key
  key? : ∀ id, m.key? id = entries[id.index]?.map Prod.fst
  value? : ∀ id, m.value? id = entries[id.index]?.map Prod.snd

namespace Represents

variable {m : OrderedMap hash α} {entries : List (κ × α)}

/-- A key is absent from both, or has one place in both. -/
theorem cases (h : m.Represents entries) (key : κ) :
    (key ∉ m.keys ∧ EntryList.place? entries key = none) ∨
      ∃ (i : Nat) (hi : i < m.entries.size), m.entries[i].key = key ∧
        EntryList.place? entries key = some i := by
  by_cases hkey : key ∈ m.keys
  · obtain ⟨i, hi, rfl⟩ := exists_getElem_of_mem_keys hkey
    have hi' : i < entries.length := by
      rw [← h.size_eq]
      exact hi
    have hplace := EntryList.place?_getElem h.nodup hi'
    rw [h.getElem_eq hi hi'] at hplace
    exact .inr ⟨i, hi, rfl, hplace⟩
  · exact .inl ⟨hkey, EntryList.place?_of_notMem (h.keys_eq ▸ hkey)⟩

theorem shows (h : m.Represents entries) : m.Shows entries where
  toList := h.toList_eq
  size := h.size_eq
  isEmpty := by
    rw [← h.toList_eq]
    simp [OrderedMap.isEmpty, OrderedMap.toList, Array.isEmpty_toList]
  find? key := by
    obtain ⟨hkey, hplace⟩ | ⟨i, hi, rfl, hplace⟩ := h.cases key
    · obtain ⟨steps, -, hprobe⟩ := h.wellFormed.probe_of_notMem hkey
      simp [OrderedMap.find?, hprobe, hplace]
    · simp [OrderedMap.find?, h.wellFormed.probe_of_getElem hi, hplace]
  get? key := by
    by_cases hkey : key ∈ m.keys
    · obtain ⟨i, hi, rfl⟩ := exists_getElem_of_mem_keys hkey
      have hi' : i < entries.length := by
        rw [← h.size_eq]
        exact hi
      have hget := EntryList.get?_getElem h.nodup hi'
      rw [h.getElem_eq hi hi'] at hget
      rw [h.wellFormed.get?_of_getElem hi, hget]
    · rw [h.wellFormed.get?_of_notMem hkey, EntryList.get?_of_notMem (h.keys_eq ▸ hkey)]
  key? id := by
    rw [← h.toList_eq]
    simp [OrderedMap.key?, OrderedMap.toList, Function.comp_def]
  value? id := by
    rw [← h.toList_eq]
    simp [OrderedMap.value?, OrderedMap.toList, Function.comp_def]

/-- Finding or inserting a key replies and leaves what it does on a list. -/
theorem findOrInsert (h : m.Represents entries) (key : κ) (makeValue : Unit → α)
    (hbits : (Operation.onList entries (.findOrInsert key makeValue)).2.length < 2 ^ 32) :
    (Operation.onMap m (.findOrInsert key makeValue)).1 =
        (Operation.onList entries (.findOrInsert key makeValue)).1 ∧
      (Operation.onMap m (.findOrInsert key makeValue)).2.Represents
        (Operation.onList entries (.findOrInsert key makeValue)).2 := by
  obtain ⟨hkey, hplace⟩ | ⟨i, hi, rfl, hplace⟩ := h.cases key
  · simp only [Operation.onList, hplace, List.length_append, List.length_singleton] at hbits ⊢
    obtain ⟨map, hmap, hwell, hlist⟩ :=
      h.wellFormed.findOrInsert_of_notMem hkey (h.size_eq ▸ hbits) makeValue
    simp only [Operation.onMap, Operation.onMap.reply, hmap, h.size_eq, true_and]
    exact ⟨hwell, by rw [hlist, h.toList_eq]⟩
  · simp only [Operation.onList, hplace, Operation.onMap, Operation.onMap.reply,
      h.wellFormed.findOrInsert_of_getElem hi, true_and]
    exact h.makeRoom

theorem set (h : m.Represents entries) (key : κ) (value : α)
    (hbits : (Operation.onList entries (.set key value)).2.length < 2 ^ 32) :
    (Operation.onMap m (.set key value)).1 = (Operation.onList entries (.set key value)).1 ∧
      (Operation.onMap m (.set key value)).2.Represents
        (Operation.onList entries (.set key value)).2 := by
  obtain ⟨hkey, hplace⟩ | ⟨i, hi, rfl, hplace⟩ := h.cases key
  · have hinsert := h.findOrInsert key fun _ => value
    simp only [Operation.onList, Operation.onMap, hplace] at hinsert hbits ⊢
    rw [h.wellFormed.set_of_notMem hkey]
    exact hinsert hbits
  · simp only [Operation.onList, hplace, Operation.onMap, Operation.onMap.reply,
      h.wellFormed.set_of_getElem hi, true_and]
    exact h.makeRoom.update i value

/-- The value of an entry of a set is always the same, so setting it changes nothing. -/
theorem onList_insert (entries : List (κ × PUnit)) (key : κ) :
    Operation.onList entries (.insert key) = Operation.onList entries (.set key ⟨⟩) := by
  have hsame : ∀ i, EntryList.replaceAt entries i ⟨⟩ = entries := by
    intro i
    exact List.modify_id i entries
  simp only [Operation.onList, hsame]

/-- One operation replies and leaves what it does on a list. -/
theorem step (h : m.Represents entries) (op : Operation κ α)
    (hbits : (op.onList entries).2.length < 2 ^ 32) :
    (op.onMap m).1 = (op.onList entries).1 ∧ (op.onMap m).2.Represents (op.onList entries).2 := by
  cases op with
  | set key value => exact h.set key value hbits
  | findOrInsert key makeValue => exact h.findOrInsert key makeValue hbits
  | insert key =>
      rw [onList_insert] at hbits ⊢
      exact h.set key ⟨⟩ hbits
  | clear => exact ⟨rfl, h.wellFormed.clear, rfl⟩

/-- Operations one after another reply and leave what they do on a list. -/
theorem run (h : m.Represents entries) (ops : List (Operation κ α))
    (hbits : ∀ before, before <+: ops →
      (Operation.runWith Operation.onList entries before).2.length < 2 ^ 32) :
    (Operation.runWith Operation.onMap m ops).1 =
        (Operation.runWith Operation.onList entries ops).1 ∧
      (Operation.runWith Operation.onMap m ops).2.Represents
        (Operation.runWith Operation.onList entries ops).2 := by
  induction ops generalizing m entries with
  | nil => exact ⟨rfl, h⟩
  | cons op ops ih =>
      obtain ⟨hreply, hnext⟩ := h.step op (hbits [op] (by simp))
      obtain ⟨hreplies, hlast⟩ := ih hnext fun before hbefore =>
        hbits (op :: before) (List.cons_prefix_cons.mpr ⟨rfl, hbefore⟩)
      simp only [Operation.runWith, hreply, hreplies, true_and]
      exact hlast

/-- Two maps of the same entries whose tables have the same size keep tables of the same size,
whatever their hash functions are. -/
theorem slotCount_run {other : κ → UInt32} {m' : OrderedMap other α} (h : m.Represents entries)
    (h' : m'.Represents entries) (hcount : m.slotCount = m'.slotCount)
    {ops : List (Operation κ α)}
    (hbits : ∀ before, before <+: ops →
      (Operation.runWith Operation.onList entries before).2.length < 2 ^ 32) :
    (Operation.runWith Operation.onMap m ops).2.slotCount =
      (Operation.runWith Operation.onMap m' ops).2.slotCount := by
  induction ops generalizing m m' entries with
  | nil => exact hcount
  | cons op ops ih =>
      have hnext := (h.step op (hbits [op] (by simp))).2
      have hnext' := (h'.step op (hbits [op] (by simp))).2
      apply ih hnext hnext'
      · rw [slotCount_onMap, slotCount_onMap, h.size_eq, h'.size_eq, hcount]
      · exact fun before hbefore =>
          hbits (op :: before) (List.cons_prefix_cons.mpr ⟨rfl, hbefore⟩)

end Represents

/-- The map after operations on the empty map, and their replies. -/
def runFromEmpty (hash : κ → UInt32) (ops : List (Operation κ α)) :
    List Operation.Reply × OrderedMap hash α :=
  Operation.runWith Operation.onMap empty ops

/-- Operations on the empty map reply and leave what they do on the empty list. An entry keeps its
key until the map is cleared, and the table has the same size for every hash function. -/
theorem runFromEmpty_refines_list (hash : κ → UInt32) (ops : List (Operation κ α))
    (hbits : ∀ before, before <+: ops →
      (Operation.runWith Operation.onList [] before).2.length < 2 ^ 32) :
    (runFromEmpty hash ops).1 = (Operation.runWith Operation.onList [] ops).1 ∧
      (runFromEmpty hash ops).2.Shows (Operation.runWith Operation.onList [] ops).2 ∧
      (∀ before after, ops = before ++ after → .clear ∉ after → ∀ id key,
        (runFromEmpty hash before).2.key? id = some key →
          (runFromEmpty hash ops).2.key? id = some key) ∧
      ∀ other : κ → UInt32,
        (runFromEmpty hash ops).2.slotCount = (runFromEmpty other ops).2.slotCount ∧
        (runFromEmpty hash ops).2.slotWidth = (runFromEmpty other ops).2.slotWidth := by
  obtain ⟨hreplies, hlast⟩ := (Represents.empty hash).run ops hbits
  refine ⟨hreplies, hlast.shows, ?_, fun other => ?_⟩
  · rintro before after rfl hclear id key hkey
    have hbefore := (Represents.empty hash).run before fun start hstart =>
      hbits start (hstart.trans (List.prefix_append before after))
    have hkeys := Operation.keys_runWith_onList
      (Operation.runWith Operation.onList [] before).2 hclear
    rw [runFromEmpty, hbefore.2.shows.key?, ← List.getElem?_map] at hkey
    rw [runFromEmpty, hlast.shows.key?, ← List.getElem?_map, Operation.runWith_append]
    obtain ⟨hid, rfl⟩ := List.getElem?_eq_some_iff.mp hkey
    exact List.prefix_iff_getElem?.mp hkeys _ hid
  · have hcount := (Represents.empty hash).slotCount_run (Represents.empty other) rfl hbits
    refine ⟨hcount, ?_⟩
    have hwidth : ∀ slots slots' : Slots, slots.count = slots'.count →
        slots.width = slots'.width := by
      intro slots slots' heq
      rw [Slots.width, Slots.width, heq]
    exact hwidth _ _ hcount

/-- A hash function that sends every key to the same slot. -/
def constantHash (_ : Nat) : UInt32 := 0

/-- Forty squares under their roots, which is more than the first two tables hold. -/
def fortySquares : List (Operation Nat Nat) := (List.range 40).map fun n => .set n (n * n)

/-- With every key in one slot, a map of forty squares finds them as any other does. -/
theorem runFromEmpty_fortySquares :
    ((runFromEmpty constantHash fortySquares).2.get? 7 = some 49) ∧
      (runFromEmpty constantHash fortySquares).2.slotCount = 64 := by
  have hbits : ∀ before, before <+: fortySquares →
      (Operation.runWith Operation.onList [] before).2.length < 2 ^ 32 := by
    intro before hbefore
    have hlength := Operation.length_runWith_onList_le [] before
    have hle : before.length ≤ 40 := by simpa [fortySquares] using hbefore.length_le
    simp only [List.length_nil] at hlength
    omega
  obtain ⟨-, hshows, -, hcount⟩ := runFromEmpty_refines_list constantHash fortySquares hbits
  refine ⟨?_, ?_⟩
  · rw [hshows.get?]
    decide +kernel
  · rw [(hcount UInt32.ofNat).1]
    decide +kernel

end OrderedMap

end FrontEnd
