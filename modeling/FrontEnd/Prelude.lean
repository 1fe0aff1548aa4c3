import FrontEnd.CompilationUnit.Basic

/-!
The prelude: the names that every program sees. The binder and the checker each have their own
declaration of a name.
-/

namespace FrontEnd

structure PreludeName where
  name : Name
  /-- What the binder resolves the name to. -/
  binding : DeclId
  /-- The constant that the checker evaluates the name to. -/
  constant : DeclId
deriving DecidableEq, Inhabited

structure Prelude where
  entries : List PreludeName
deriving DecidableEq, Inhabited

namespace Prelude

def empty : Prelude := ⟨[]⟩

/-- The prelude with the integer type as its only name. -/
def standard {hash : Hasher} (u : CompilationUnit hash) : Prelude × CompilationUnit hash :=
  let (name, u) := u.intern BaseType.int32.name
  let (binding, u) := u.addDeclaration ⟨name, .builtinInt⟩
  let (constant, u) := u.addDeclaration ⟨name, .constant BaseType.int32.exprId BaseType.type.typeId⟩
  (⟨[⟨name, binding, constant⟩]⟩, u)

end Prelude

end FrontEnd
