import FrontEnd.OrderedMap.Basic
import FrontEnd.Breach

/-!
Nested scopes, looked up from the innermost outwards. The tables of closed scopes are emptied and
kept for the next ones.
-/

namespace FrontEnd

structure Scopes (hash : Name → UInt32) (α : Type) where
  /-- The open scopes, innermost first. -/
  scopes : List (OrderedMap hash α)
  spare : List (OrderedMap hash α)

namespace Scopes

variable {hash : Name → UInt32} {α : Type}

def empty : Scopes hash α := ⟨[], []⟩

instance : Inhabited (Scopes hash α) := ⟨empty⟩

def depth (s : Scopes hash α) : Nat := s.scopes.length

def push (s : Scopes hash α) : Scopes hash α :=
  match s.spare with
  | [] => ⟨.empty :: s.scopes, []⟩
  | table :: spare => ⟨table :: s.scopes, spare⟩

def pop (s : Scopes hash α) : Except Breach (Scopes hash α) :=
  match s.scopes with
  | [] => .error .noScopeToPop
  | table :: scopes => .ok ⟨scopes, table.clear :: s.spare⟩

/-- Binds a name in the innermost scope. -/
def insert (s : Scopes hash α) (name : Name) (value : α) : Except Breach (Scopes hash α) :=
  match s.scopes with
  | [] => .error .noScopeToInsertInto
  | table :: scopes => .ok ⟨(table.set name value).map :: scopes, s.spare⟩

def lookup (s : Scopes hash α) (name : Name) : Option α :=
  s.scopes.findSome? fun table => table.get? name

end Scopes

end FrontEnd
