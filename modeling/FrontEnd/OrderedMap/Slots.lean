/-!
The slot table of an ordered map. A slot holds the number of an entry, or zero if it is empty, in
as many bytes as the size of the table asks for.
-/

namespace FrontEnd

structure Slots where
  cells : Array Nat
deriving DecidableEq

namespace Slots

def empty (count : Nat) : Slots := ⟨Array.replicate count 0⟩

def count (slots : Slots) : Nat := slots.cells.size

/-- The bytes of one slot: small tables have narrow slots. -/
def width (slots : Slots) : Nat :=
  if slots.count < 0xFF then 1 else if slots.count < 0xFFFF then 2 else 4

def get (slots : Slots) (slot : Nat) : Nat := slots.cells.getD slot 0

/-- A number that does not fit the width of a slot loses its high bits. -/
def set (slots : Slots) (slot number : Nat) : Slots :=
  ⟨slots.cells.setIfInBounds slot (number % Nat.pow 256 slots.width)⟩

def clear (slots : Slots) : Slots := empty slots.count

/-- The slot where the search for a hash begins. -/
def home (slots : Slots) (hash : UInt32) : Nat := hash.toNat % slots.count

/-- The slot after a slot; the first one comes after the last. -/
def next (slots : Slots) (slot : Nat) : Nat := (slot + 1) % slots.count

/-- Looks at up to `limit` slots from `slot` on for an empty one. -/
def findEmpty (slots : Slots) : (limit slot : Nat) → Option Nat
  | 0, _ => none
  | limit + 1, slot =>
    if slots.get slot = 0 then some slot else slots.findEmpty limit (slots.next slot)

/-- Puts a number into the first empty slot from the home of its hash on. -/
def place (slots : Slots) (hash : UInt32) (number : Nat) : Slots :=
  match slots.findEmpty slots.count (slots.home hash) with
  | some slot => slots.set slot number
  | none => slots

end Slots

end FrontEnd
