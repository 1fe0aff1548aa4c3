import FrontEnd.Syntax.Node

/-!
Breaches: the ways to call an operation outside of what its callers promise. No source text
provokes one; a caller that builds programs by hand can.
-/

namespace FrontEnd

/-- What can be learnt about a node, each at most once. -/
inductive Fact where
  | referent
  | constantForm
  | type
  | denotedType
  | itemDeclaration
deriving DecidableEq

def Fact.text : Fact → String
  | referent => "referent"
  | constantForm => "const_eval"
  | type => "type"
  | denotedType => "as_type"
  | itemDeclaration => "item declaration"

inductive Breach where
  | alreadySet (fact : Fact)
  /-- Nothing stands at an index, as there are only so many things. -/
  | outOfRange (index size : Nat)
  | foreignName (name : Name)
  | noScopeToPop
  | noScopeToInsertInto
  | alreadyGenerated (item : ItemId)
  | notGenerated (item : ItemId)
  /-- The signature of a checked item denotes a base type and no function type. -/
  | signatureIsBaseType (kind : BaseType)
  /-- Constant forms set by hand lead from an expression back to itself. -/
  | endlessForms (expr : ExprId)
deriving DecidableEq

def Breach.message : Breach → String
  | alreadySet fact => fact.text ++ " already set"
  | outOfRange index size =>
    "index out of bounds: the len is " ++ toString size ++ " but the index is " ++ toString index
  | foreignName name => name.debugText ++ " was not interned here"
  | noScopeToPop => "pop on an empty scope stack"
  | noScopeToInsertInto => "insert into an empty scope stack"
  | alreadyGenerated item => "symbol generation ran twice on " ++ item.debugText
  | notGenerated item => "symbol resolution before generation on " ++ item.debugText
  | signatureIsBaseType kind => "function signature lifted to `" ++ kind.name ++ "`"
  | endlessForms expr => "constant forms of " ++ expr.debugText ++ " do not end"

/-- Only what is there is read or changed. -/
def checkIndex (index size : Nat) : Except Breach Unit :=
  if index < size then .ok () else .error (.outOfRange index size)

/-- What is learnt is learnt once. -/
def Fact.checkUnset {α : Type} (fact : Fact) (known : Option α) : Except Breach Unit :=
  match known with
  | some _ => .error (.alreadySet fact)
  | none => .ok ()

section Checks

variable {α β : Type} {index size : Nat} {fact : Fact} {known : Option α}
  {next : Unit → Except Breach β} {b : β}

theorem checkIndex_of_lt (h : index < size) : checkIndex index size = .ok () := if_pos h

theorem checkIndex_bind_of_lt (h : index < size) : (checkIndex index size >>= next) = next () := by
  rw [checkIndex_of_lt h]
  rfl

theorem checkIndex_bind_eq_ok_iff :
    (checkIndex index size >>= next) = .ok b ↔ index < size ∧ next () = .ok b := by
  by_cases h : index < size
  · simp [checkIndex_bind_of_lt h, h]
  · simp [checkIndex, h, Bind.bind, Except.bind]

theorem Fact.checkUnset_bind_eq_ok_iff :
    (fact.checkUnset known >>= next) = .ok b ↔ known = none ∧ next () = .ok b := by
  cases known <;> simp [checkUnset, Bind.bind, Except.bind]

end Checks

end FrontEnd
