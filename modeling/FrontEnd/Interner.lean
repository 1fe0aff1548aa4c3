import FrontEnd.OrderedMap.Basic
import FrontEnd.Breach

/-!
The interner gives equal texts one name. Names are the entries of an ordered set of texts, so a
name keeps its text however many are added later.
-/

namespace FrontEnd

structure Interner (hash : String → UInt32) where
  texts : OrderedSet hash

namespace Interner

variable {hash : String → UInt32}

def empty : Interner hash := ⟨.empty⟩

instance : Inhabited (Interner hash) := ⟨empty⟩

def size (names : Interner hash) : Nat := names.texts.size

def isEmpty (names : Interner hash) : Bool := names.texts.isEmpty

/-- All texts in the order of their names. -/
def toList (names : Interner hash) : List String := names.texts.toList.map (·.1)

/-- The name of a text, made if the text was not met before. -/
def intern (names : Interner hash) (text : String) : Name × Interner hash :=
  let added := names.texts.findOrInsert text fun _ => ⟨⟩
  (⟨added.id.index⟩, ⟨added.map⟩)

def find? (names : Interner hash) (text : String) : Option Name :=
  (names.texts.find? text).map fun id => ⟨id.index⟩

def text? (names : Interner hash) (name : Name) : Option String := names.texts.key? ⟨name.index⟩

/-- The text of a name that this interner gave out. -/
def lookup (names : Interner hash) (name : Name) : Except Breach String :=
  match names.text? name with
  | some text => .ok text
  | none => .error (.foreignName name)

end Interner

end FrontEnd
