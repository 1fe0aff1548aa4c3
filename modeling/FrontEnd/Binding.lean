import FrontEnd.CompilationUnit.Basic
import FrontEnd.Prelude
import FrontEnd.Scopes

/-!
Binding gives every name in an item the declaration it refers to. An item sees its own name, which
hides all others.
-/

namespace FrontEnd

abbrev Bindings (hash : Hasher) : Type := Scopes hash.name DeclId

variable {hash : Hasher}

namespace Bindings

/-- Declares the names of a prelude in the innermost scope. -/
def declareAll (table : Bindings hash) : List PreludeName → Except Breach (Bindings hash)
  | [] => .ok table
  | entry :: rest =>
    match table.insert entry.name entry.binding with
    | .error breach => .error breach
    | .ok table => Bindings.declareAll table rest

/-- One scope with the names of a prelude. -/
def ofPrelude (prelude : Prelude) : Except Breach (Bindings hash) :=
  Bindings.declareAll (Scopes.empty.push) prelude.entries

end Bindings

inductive BindingError where
  | unbound (name : Name) (pos : Position)
deriving DecidableEq, Inhabited

namespace BindingError

def pos : BindingError → Position
  | unbound _ pos => pos

def summary : BindingError → String
  | unbound _ _ => "undefined identifier"

def message {hash : String → UInt32} (names : Interner hash) :
    BindingError → Except Breach String
  | unbound name _ =>
    (names.lookup name).map fun text => "undefined identifier `" ++ text ++ "`"

end BindingError

namespace CompilationUnit

/-- Makes the declaration that an item introduces. -/
def declareItem (u : CompilationUnit hash) (item : ItemId) :
    Except Breach (CompilationUnit hash) := do
  checkIndex item.index u.items.size
  match u.itemDeclaration? item with
  | some _ => throw (.alreadyGenerated item)
  | none =>
    let (decl, u) := u.addDeclaration ⟨(u.item item).name, .function item⟩
    let u ← u.recordItemDeclaration item decl
    checkIndex (u.item item).body.index u.exprs.size
    return u

/-- The expression inside all others of a chain. -/
def innermost (u : CompilationUnit hash) (id : ExprId) : ExprId := (id.descend u.child? []).2

/-- Resolves the name inside an expression, if there is one. -/
def resolveName (u : CompilationUnit hash) (table : Bindings hash) (id : ExprId) :
    Except Breach (Except BindingError Unit × CompilationUnit hash) := do
  checkIndex id.index u.exprs.size
  let leaf := u.innermost id
  match u.expr leaf with
  | ⟨.name name, pos⟩ =>
    match table.lookup name with
    | none => return (.error (.unbound name pos), u)
    | some decl => return (.ok (), ← u.record .referent leaf decl)
  | _ => return (.ok (), u)

/-- Resolves the names in the signature of an item and then those in its body. -/
def resolveParts (u : CompilationUnit hash) (table : Bindings hash) (item : FunctionItem) :
    Except Breach (Except BindingError Unit × CompilationUnit hash) :=
  match u.resolveName table item.signature with
  | .error breach => .error breach
  | .ok (.error e, u) => .ok (.error e, u)
  | .ok (.ok (), u) => u.resolveName table item.body

/-- What resolving an item answers, with the unit and the table that it leaves. -/
structure Resolution (hash : Hasher) where
  answer : Except BindingError Unit
  unit : CompilationUnit hash
  table : Bindings hash

/-- Resolves a declared item in a scope of its own that holds its name. -/
def resolve (u : CompilationUnit hash) (item : ItemId) (table : Bindings hash) :
    Except Breach (Resolution hash) := do
  checkIndex item.index u.items.size
  match u.itemDeclaration? item with
  | none => throw (.notGenerated item)
  | some decl =>
    let table ← table.push.insert (u.item item).name decl
    let (answer, u) ← u.resolveParts table (u.item item)
    let table ← table.pop
    return ⟨answer, u, table⟩

/-- Declares an item and resolves its names against a prelude. -/
def bind (u : CompilationUnit hash) (item : ItemId) (prelude : Prelude) :
    Except Breach (Except BindingError Unit × CompilationUnit hash) := do
  let u ← u.declareItem item
  let table ← Bindings.ofPrelude prelude
  let resolution ← u.resolve item table
  return (resolution.answer, resolution.unit)

end CompilationUnit

end FrontEnd
