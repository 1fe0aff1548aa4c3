import FrontEnd.OrderedMap.Slots

/-!
Maps that keep their entries in the order of insertion and number them from one. Keys are found
through a table of slots with linear probing, so an entry keeps its number while the table grows,
until the map is cleared. The answers do not depend on the hash function.
-/

namespace FrontEnd

/-- Names an entry of a map for as long as the map is not cleared. -/
structure EntryId where
  index : Nat
deriving DecidableEq, Inhabited

namespace EntryId

/-- Entries are numbered from one, which leaves zero for an empty slot. -/
def number (id : EntryId) : Nat := id.index + 1

def ofNumber? : Nat → Option EntryId
  | 0 => none
  | n + 1 => some ⟨n⟩

def debugText (id : EntryId) : String := "EntryId(" ++ toString id.number ++ ")"

end EntryId

structure Entry (κ α : Type) where
  hash : UInt32
  key : κ
  value : α

structure OrderedMap {κ : Type} (hash : κ → UInt32) (α : Type) where
  entries : Array (Entry κ α)
  slots : Slots

/-- Where the search for a key ends. -/
inductive Probe where
  | found (id : EntryId)
  /-- The key is absent, and this is the empty slot where it belongs. -/
  | absent (slot : Nat)
  /-- The key is absent, and there is no empty slot. -/
  | exhausted
deriving DecidableEq

namespace OrderedMap

variable {κ α : Type} {hash : κ → UInt32}

def initialSlots : Nat := 16

def empty : OrderedMap hash α := ⟨#[], Slots.empty initialSlots⟩

instance : Inhabited (OrderedMap hash α) := ⟨empty⟩

def size (m : OrderedMap hash α) : Nat := m.entries.size

def isEmpty (m : OrderedMap hash α) : Bool := m.entries.isEmpty

def slotCount (m : OrderedMap hash α) : Nat := m.slots.count

def slotWidth (m : OrderedMap hash α) : Nat := m.slots.width

def key? (m : OrderedMap hash α) (id : EntryId) : Option κ := m.entries[id.index]?.map (·.key)

def value? (m : OrderedMap hash α) (id : EntryId) : Option α := m.entries[id.index]?.map (·.value)

/-- The keys and values in the order of insertion. -/
def toList (m : OrderedMap hash α) : List (κ × α) := m.entries.toList.map fun e => (e.key, e.value)

/-- Forgets all entries and keeps the table's size. -/
def clear (m : OrderedMap hash α) : OrderedMap hash α := ⟨#[], m.slots.clear⟩

/-- A table is full with entries in three quarters of its slots. -/
def isFull (m : OrderedMap hash α) : Bool := m.slotCount / 4 * 3 ≤ m.size

/-- Places the entries from `index` on in the order of their numbers. -/
def placeFrom (entries : Array (Entry κ α)) (index : Nat) (slots : Slots) : Slots :=
  if h : index < entries.size then
    placeFrom entries (index + 1) (slots.place entries[index].hash (index + 1))
  else slots
termination_by entries.size - index

/-- Doubles the table. -/
def double (m : OrderedMap hash α) : OrderedMap hash α :=
  { m with slots := placeFrom m.entries 0 (Slots.empty (m.slotCount * 2)) }

def makeRoom (m : OrderedMap hash α) : OrderedMap hash α := if m.isFull then m.double else m

/-- Appends an entry under a key that the search did not find. -/
def push (m : OrderedMap hash α) (slot : Nat) (key : κ) (value : α) : OrderedMap hash α :=
  let number := m.size + 1
  ⟨m.entries.push ⟨hash key, key, value⟩, m.slots.set slot number⟩

variable [DecidableEq κ]

/-- Looks at up to `limit` slots from `slot` on for a key with the given hash. -/
def probeFrom (m : OrderedMap hash α) (h : UInt32) (key : κ) : (limit slot : Nat) → Probe
  | 0, _ => .exhausted
  | limit + 1, slot =>
    match EntryId.ofNumber? (m.slots.get slot) with
    | none => .absent slot
    | some id =>
      match m.entries[id.index]? with
      | none => .exhausted
      | some e =>
        if e.hash = h ∧ e.key = key then .found id
        else m.probeFrom h key limit (m.slots.next slot)

def probe (m : OrderedMap hash α) (key : κ) : Probe :=
  m.probeFrom (hash key) key m.slotCount (m.slots.home (hash key))

def find? (m : OrderedMap hash α) (key : κ) : Option EntryId :=
  match m.probe key with
  | .found id => some id
  | _ => none

def get? (m : OrderedMap hash α) (key : κ) : Option α := (m.find? key).bind m.value?

/-- The entry of a key after an insertion, and whether the insertion made it. -/
structure Insertion (hash : κ → UInt32) (α : Type) where
  id : EntryId
  isNew : Bool
  map : OrderedMap hash α

/-- Finds the entry of a key, or appends one with a value that is made only then. -/
def findOrInsert (m : OrderedMap hash α) (key : κ) (makeValue : Unit → α) : Insertion hash α :=
  let m := m.makeRoom
  match m.probe key with
  | .found id => ⟨id, false, m⟩
  | .absent slot => ⟨⟨m.size⟩, true, m.push slot key (makeValue ())⟩
  | .exhausted => ⟨⟨m.size⟩, false, m⟩

/-- Gives a key a value. A key that is already present keeps its entry. -/
def set (m : OrderedMap hash α) (key : κ) (value : α) : Insertion hash α :=
  let m := m.makeRoom
  match m.probe key with
  | .found id =>
    ⟨id, false, { m with entries := m.entries.modify id.index fun e => { e with value } }⟩
  | .absent slot => ⟨⟨m.size⟩, true, m.push slot key value⟩
  | .exhausted => ⟨⟨m.size⟩, false, m⟩

end OrderedMap

/-- A set is a map whose entries carry no value. -/
abbrev OrderedSet {κ : Type} (hash : κ → UInt32) : Type := OrderedMap hash PUnit

namespace OrderedSet

variable {κ : Type} {hash : κ → UInt32} [DecidableEq κ]

def insert (s : OrderedSet hash) (key : κ) : OrderedMap.Insertion hash PUnit :=
  OrderedMap.set s key ⟨⟩

end OrderedSet

end FrontEnd
