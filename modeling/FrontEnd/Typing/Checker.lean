import FrontEnd.Typing.Error
import FrontEnd.Prelude
import FrontEnd.Scopes

/-!
Three questions about expressions: the constant form of one, the type that one denotes, and the
type of one. Answers are recorded in the compilation unit, that there is none included, so no
expression is asked about twice; errors are not recorded.
-/

namespace FrontEnd

/-- A constant in scope. -/
structure ConstantBinding where
  value : ExprId
  type : TypeId
deriving DecidableEq, Inhabited

structure Checker (hash : Hasher) where
  scopes : Scopes hash.name ConstantBinding
  /-- The return type of the function whose body is checked. -/
  returnType : Option TypeId

/-- The answer to a question, with the unit that it leaves. -/
structure Answer (hash : Hasher) (α : Type) where
  value : Except TypingError α
  unit : CompilationUnit hash

variable {hash : Hasher}

/-- Asks a next question about what was answered, unless that is an error. -/
def Answer.andThen {α β : Type} (answer : Answer hash α)
    (next : α → CompilationUnit hash → Except Breach (Answer hash β)) :
    Except Breach (Answer hash β) :=
  match answer.value with
  | .error e => .ok ⟨.error e, answer.unit⟩
  | .ok value => next value answer.unit

namespace Checker

/-- Declares the constants of a prelude in the innermost scope. -/
def declareAll (u : CompilationUnit hash) (scopes : Scopes hash.name ConstantBinding) :
    List PreludeName → Except Breach (Scopes hash.name ConstantBinding)
  | [] => .ok scopes
  | entry :: rest => do
    checkIndex entry.constant.index u.declarations.size
    match (u.decl entry.constant).meaning with
    | .constant value type =>
      let scopes ← scopes.insert entry.name ⟨value, type⟩
      declareAll u scopes rest
    | _ => declareAll u scopes rest

/-- A checker outside of all functions, which knows the constants of a prelude. -/
def ofPrelude (u : CompilationUnit hash) (prelude : Prelude) : Except Breach (Checker hash) :=
  (declareAll u Scopes.empty.push prelude.entries).map fun scopes => ⟨scopes, none⟩

def lookup (c : Checker hash) (name : Name) (pos : Position) : Except TypingError ConstantBinding :=
  match c.scopes.lookup name with
  | some binding => .ok binding
  | none => .error (.unknownName name pos)

/-! ### Constant forms -/

/-- The constant form of an expression that is not a function type expression. -/
def leafConstantForm (c : Checker hash) (id : ExprId) (node : ExprNode) :
    Except TypingError (Option ExprId) :=
  match node.expr with
  | .intLiteral _ | .baseType _ => .ok (some id)
  | .name name => (c.lookup name node.pos).map fun binding => some binding.value
  | .return_ _ | .functionType _ => .ok none

/-- Records the constant forms of function type expressions, each the result of the next one,
from that of the innermost result. -/
def recordConstantForms (u : CompilationUnit hash) (form : Option ExprId) :
    List ExprId → Except Breach (Option ExprId × CompilationUnit hash)
  | [] => .ok (form, u)
  | id :: rest =>
    let (form, u) :=
      match form with
      | none => (none, u)
      | some result =>
        let (id, u) := u.addExpr (.functionType result) (u.expr id).pos
        (some id, u)
    match u.record .constantForm id form with
    | .error breach => .error breach
    | .ok u => recordConstantForms u form rest

/-- A function type expression inside of which the constant form is still to be found. -/
def pendingResult? (u : CompilationUnit hash) (id : ExprId) : Option ExprId :=
  if (u.findingsOf id).constantForm.isSome then none else u.functionResult? id

/-- The constant form of an expression: names are replaced by their values. -/
def constantForm (c : Checker hash) (u : CompilationUnit hash) (id : ExprId) :
    Except Breach (Answer hash (Option ExprId)) := do
  checkIndex id.index u.exprs.size
  let (outer, inner) := id.descend (pendingResult? u) []
  match (u.findingsOf inner).constantForm with
  | some form =>
    let (form, u) ← recordConstantForms u form outer
    return ⟨.ok form, u⟩
  | none =>
    match c.leafConstantForm inner (u.expr inner) with
    | .error e => return ⟨.error e, u⟩
    | .ok form =>
      let u ← u.record .constantForm inner form
      let (form, u) ← recordConstantForms u form outer
      return ⟨.ok form, u⟩

/-! ### Denoted types -/

/-- The type denoted by an expression that is not a function type expression. A name denotes
none: only its constant form may. -/
def leafDenotedType : Expr → Option TypeId
  | .baseType kind => some kind.typeId
  | _ => none

/-- Records the types denoted by function type expressions, each the result of the next one, from
that of the innermost result. -/
def recordDenotedTypes (u : CompilationUnit hash) (type : Option TypeId) :
    List ExprId → Except Breach (Option TypeId × CompilationUnit hash)
  | [] => .ok (type, u)
  | id :: rest =>
    let (type, u) :=
      match type with
      | none => (none, u)
      | some result =>
        let (type, u) := u.addFunctionType result
        (some type, u)
    match u.record .denotedType id type with
    | .error breach => .error breach
    | .ok u => recordDenotedTypes u type rest

/-- The result of a function type expression whose denoted type is still to be found. -/
def pendingDenotation? (u : CompilationUnit hash) (id : ExprId) : Option ExprId :=
  if (u.findingsOf id).denotedType.isSome then none else u.functionResult? id

/-- The type that a constant form denotes. -/
def denotedType (u : CompilationUnit hash) (id : ExprId) :
    Except Breach (Option TypeId × CompilationUnit hash) := do
  checkIndex id.index u.exprs.size
  let (outer, inner) := id.descend (pendingDenotation? u) []
  match (u.findingsOf inner).denotedType with
  | some type => recordDenotedTypes u type outer
  | none =>
    let type := leafDenotedType (u.expr inner).expr
    let u ← u.record .denotedType inner type
    recordDenotedTypes u type outer

/-! ### Types of expressions -/

/-- The type of an expression that is not a return. -/
def leafType (c : Checker hash) (node : ExprNode) : Except TypingError TypeId :=
  match node.expr with
  | .intLiteral _ => .ok BaseType.int32.typeId
  | .name name => (c.lookup name node.pos).map (·.type)
  | .baseType _ | .functionType _ => .ok BaseType.type.typeId
  | .return_ _ => .ok BaseType.never.typeId

/-- The type of an expression that is not a return, recorded. -/
def typeOfValue (c : Checker hash) (u : CompilationUnit hash) (id : ExprId) :
    Except Breach (Answer hash TypeId) :=
  match (u.findingsOf id).type with
  | some type => .ok ⟨.ok type, u⟩
  | none =>
    match c.leafType (u.expr id) with
    | .error e => .ok ⟨.error e, u⟩
    | .ok type => (u.record .type id type).map fun u => ⟨.ok type, u⟩

/-- Records the type of returns, each the value of the next one, if the value of the first has the
expected type. -/
def typeReturns (u : CompilationUnit hash) (expected : TypeId) (value : ExprId) (actual : TypeId) :
    List ExprId → Except Breach (Answer hash TypeId)
  | [] => .ok ⟨.ok actual, u⟩
  | id :: rest => do
    if ← u.compareTypes expected actual then
      let u ← u.record .type id BaseType.never.typeId
      typeReturns u expected id BaseType.never.typeId rest
    else return ⟨.error (.mismatch expected actual (u.expr value).pos), u⟩

/-- The value of a return whose type is still to be found. -/
def pendingValue? (u : CompilationUnit hash) (id : ExprId) : Option ExprId :=
  if (u.findingsOf id).type.isSome then none else u.returnedValue? id

/-- The type of an expression. A return may only stand in a function, and its value has the return
type of that function. -/
def typeOf (c : Checker hash) (u : CompilationUnit hash) (id : ExprId) :
    Except Breach (Answer hash TypeId) := do
  checkIndex id.index u.exprs.size
  match id.descend (pendingValue? u) [] with
  | ([], value) => c.typeOfValue u value
  | (returns, value) =>
    match c.returnType with
    | none => return ⟨.error (.strayReturn (u.expr id).pos), u⟩
    | some expected =>
      (← c.typeOfValue u value).andThen fun actual u => typeReturns u expected value actual returns

/-! ### Items -/

/-- The error of a signature that denotes no type: it lies with the result. -/
def denotationError (c : Checker hash) (u : CompilationUnit hash) (signature : ExprId) :
    Except Breach (Answer hash TypeId) := do
  let target := (u.functionResult? signature).getD signature
  (← c.typeOf u target).andThen fun actual u =>
    .ok ⟨.error (.mismatch BaseType.type.typeId actual (u.expr target).pos), u⟩

/-- The return type of the function type that an evaluated signature denotes. -/
def denotedReturnType (c : Checker hash) (u : CompilationUnit hash) (signature : ExprId) :
    Except Breach (Answer hash TypeId) := do
  let (type?, u) ← denotedType u signature
  match type? with
  | none => c.denotationError u signature
  | some type =>
    checkIndex type.index u.types.size
    match u.typeNode type with
    | .function result => return ⟨.ok result, u⟩
    | .base kind => throw (.signatureIsBaseType kind)

/-- The return type of a function, by its signature. -/
def returnTypeOf (c : Checker hash) (u : CompilationUnit hash) (signature : ExprId) :
    Except Breach (Answer hash TypeId) := do
  (← c.constantForm u signature).andThen fun form u => do
    let evaluated := form.getD signature
    (← c.typeOf u evaluated).andThen fun type u => do
      if ← u.compareTypes type BaseType.type.typeId then c.denotedReturnType u evaluated
      else return ⟨.error (.mismatch BaseType.type.typeId type (u.expr signature).pos), u⟩

/-- Checks the body of a function against its return type, in a scope of its own. The answer comes
with the checker that is left. -/
def checkBody (c : Checker hash) (u : CompilationUnit hash) (returnType : TypeId) (body : ExprId) :
    Except Breach (Answer hash Unit × Checker hash) := do
  let inside : Checker hash := ⟨c.scopes.push, some returnType⟩
  let answer ← inside.typeOf u body
  let scopes ← inside.scopes.pop
  return (⟨answer.value.map fun _ => (), answer.unit⟩, ⟨scopes, c.returnType⟩)

def check (c : Checker hash) (u : CompilationUnit hash) (item : ItemId) :
    Except Breach (Answer hash Unit × Checker hash) := do
  checkIndex item.index u.items.size
  let function := u.item item
  let answer ← c.returnTypeOf u function.signature
  match answer.value with
  | .error e => return (⟨.error e, answer.unit⟩, c)
  | .ok returnType => c.checkBody answer.unit returnType function.body

end Checker

namespace CompilationUnit

/-- Checks an item with the constants of a prelude in scope. -/
def check (u : CompilationUnit hash) (item : ItemId) (prelude : Prelude) :
    Except Breach (Answer hash Unit) := do
  let checker ← Checker.ofPrelude u prelude
  let (answer, _) ← checker.check u item
  return answer

end CompilationUnit

end FrontEnd
