import FrontEnd.Name
import FrontEnd.Position
import FrontEnd.IntegerValue

/-!
The nodes of a program: expressions, types, declarations and function items. Nodes refer to each
other by index and never change; what is learnt about a node later is kept beside it.
-/

namespace FrontEnd

structure ExprId where
  index : Nat
deriving DecidableEq, Inhabited

structure TypeId where
  index : Nat
deriving DecidableEq, Inhabited

structure DeclId where
  index : Nat
deriving DecidableEq, Inhabited

structure ItemId where
  index : Nat
deriving DecidableEq, Inhabited

def ExprId.debugText (id : ExprId) : String := "ExprId(" ++ toString id.index ++ ")"

def ItemId.debugText (id : ItemId) : String := "ItemId(" ++ toString id.index ++ ")"

/-- The types without arguments. -/
inductive BaseType where
  /-- The type of an expression that does not give its value to its surroundings. -/
  | never
  | void
  | int32
  /-- The type of types. -/
  | type
deriving DecidableEq, Inhabited

namespace BaseType

def all : List BaseType := [never, void, int32, type]

def name : BaseType → String
  | never => "Never"
  | void => "Void"
  | int32 => "Int32"
  | type => "Type"

/-- The place of a base type among all of them. -/
def slot : BaseType → Nat
  | never => 0
  | void => 1
  | int32 => 2
  | type => 3

end BaseType

/-- An expression has at most one child, so the expressions below one form a chain. -/
inductive Expr where
  | intLiteral (value : IntegerValue Name)
  | return_ (value : ExprId)
  | name (name : Name)
  | baseType (kind : BaseType)
  /-- A function type without parameters, in expression position. -/
  | functionType (result : ExprId)
deriving DecidableEq, Inhabited

structure ExprNode where
  expr : Expr
  pos : Position
deriving DecidableEq, Inhabited

/-- A type that is a value of its own, apart from the expression that denotes it. -/
inductive TypeNode where
  | base (kind : BaseType)
  | function (result : TypeId)
deriving DecidableEq, Inhabited

/-- A function with its signature, which is a function type expression, and its body. -/
structure FunctionItem where
  name : Name
  signature : ExprId
  body : ExprId
  pos : Position
deriving DecidableEq, Inhabited

def FunctionItem.debugText (item : FunctionItem) : String :=
  "Function(FunctionItem \x7b name: " ++ item.name.debugText ++
    ", ty: " ++ item.signature.debugText ++ ", body: " ++ item.body.debugText ++
    ", pos: " ++ item.pos.debugText ++ " \x7d)"

inductive Meaning where
  /-- The name of the builtin integer type. -/
  | builtinInt
  /-- A constant with its value and the type of that value. -/
  | constant (value : ExprId) (type : TypeId)
  | function (item : ItemId)
deriving DecidableEq, Inhabited

/-- A place that binds a name. -/
structure Declaration where
  name : Name
  meaning : Meaning
deriving DecidableEq, Inhabited

end FrontEnd
