import FrontEnd.CompilationUnit.Types

/-!
The errors of type checking.
-/

namespace FrontEnd

inductive TypingError where
  | unknownName (name : Name) (pos : Position)
  | mismatch (expected actual : TypeId) (pos : Position)
  | strayReturn (pos : Position)
deriving DecidableEq, Inhabited

namespace TypingError

def pos : TypingError → Position
  | unknownName _ pos => pos
  | mismatch _ _ pos => pos
  | strayReturn pos => pos

/-- The text of an error without names and types. -/
def summary : TypingError → String
  | unknownName _ _ => "undeclared name"
  | mismatch _ _ _ => "type mismatch"
  | strayReturn _ => "return outside of function"

def message {hash : Hasher} (u : CompilationUnit hash) : TypingError → Except Breach String
  | unknownName name _ =>
    (u.names.lookup name).map fun text => "undeclared name `" ++ text ++ "`"
  | mismatch expected actual _ => do
    checkIndex expected.index u.types.size
    checkIndex actual.index u.types.size
    return "expected type `" ++ u.spellType expected ++ "`, found `" ++ u.spellType actual ++ "`"
  | strayReturn pos => .ok (strayReturn pos).summary

end TypingError

end FrontEnd
