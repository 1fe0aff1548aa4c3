import FrontEnd.CompilationUnit.Basic

/-!
Types of a compilation unit. A type is a number of function types around a base type; equality is
structural, since equal function types may be added more than once.
-/

namespace FrontEnd.CompilationUnit

variable {hash : Hasher}

def sameType (u : CompilationUnit hash) (a b : TypeId) : Bool :=
  if a = b then true
  else
    match u.typeNode a, u.typeNode b with
    | .base x, .base y => x = y
    | .function x, .function y => if x.index < a.index then u.sameType x y else false
    | _, _ => false
termination_by a.index

/-- Compares types that a caller has. Those that are one and the same are not looked at. -/
def compareTypes (u : CompilationUnit hash) (a b : TypeId) : Except Breach Bool := do
  unless a = b do
    checkIndex a.index u.types.size
    checkIndex b.index u.types.size
  return u.sameType a b

/-- The number of function types around a base type, added to `depth`, and the base type. -/
def typeShape (u : CompilationUnit hash) (depth : Nat) (id : TypeId) : Nat × BaseType :=
  match u.typeNode id with
  | .base kind => (depth, kind)
  | .function result =>
    if result.index < id.index then u.typeShape (depth + 1) result else (depth, default)
termination_by id.index

/-- The spelling of a type in messages. -/
def spellType (u : CompilationUnit hash) (id : TypeId) : String :=
  let (depth, kind) := u.typeShape 0 id
  String.join (List.replicate depth "() -> ") ++ kind.name

end FrontEnd.CompilationUnit
