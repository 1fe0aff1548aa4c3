import FrontEnd.CompilationUnit.Types
import FrontEnd.Text.Quoted

/-!
The listing of an item: nested constructors, one field a line where a node has a child, and leaves
on one line. An expression is shown in its constant form if that is known, with its type.
Indentation grows by two spaces a level, up to the thirty-second.
-/

namespace FrontEnd

variable {hash : Hasher}

namespace Listing

/-- The deepest level whose indentation grows. -/
def maxLevel : Nat := 32

def indent (level : Nat) : String :=
  String.ofList (List.replicate (2 * min level maxLevel) ' ')

/-- A node with a child, which spreads over lines around it. -/
structure Frame where
  level : Nat
  label : String
  field : String
  type? : Option String
deriving DecidableEq

/-- What stands before the child of a frame. -/
def Frame.opening (frame : Frame) : String :=
  frame.label ++ "(\n" ++ indent (frame.level + 1) ++ frame.field ++ " = "

/-- What stands after the child of a frame: its type, if that is known, and the end. -/
def Frame.closing (frame : Frame) : String :=
  let typeLine :=
    match frame.type? with
    | some type => indent (frame.level + 1) ++ "type = " ++ type ++ ",\n"
    | none => ""
  ",\n" ++ typeLine ++ indent frame.level ++ ")"

/-- A node without a child, with those of its fields that are present. -/
def leaf (label : String) (fields : List (String × String)) : String :=
  label ++ "(" ++ String.intercalate ", " (fields.map fun f => f.1 ++ " = " ++ f.2) ++ ")"

end Listing

namespace CompilationUnit

open Listing

/-- A type as nested constructors, on one line. -/
def typeListing (u : CompilationUnit hash) (id : TypeId) : String :=
  let (depth, kind) := u.typeShape 0 id
  String.join (List.replicate depth "FunctionType(return_type = ") ++ kind.name ++ "()" ++
    String.ofList (List.replicate depth ')')

/-- The form in which an expression is shown. -/
def shownForm (u : CompilationUnit hash) (id : ExprId) : ExprId :=
  match (u.findingsOf id).constantForm with
  | some (some form) => form
  | _ => id

/-- The type of the shown form or else of the expression itself, where one is known. -/
def shownType? (u : CompilationUnit hash) (id : ExprId) : Option TypeId :=
  (u.findingsOf (u.shownForm id)).type.or (u.findingsOf id).type

/-- The listing of the type that an expression is shown with. -/
def shownTypeListing? (u : CompilationUnit hash) (id : ExprId) : Except Breach (Option String) :=
  match u.shownType? id with
  | none => .ok none
  | some type => do
    checkIndex type.index u.types.size
    return some (u.typeListing type)

/-- An expression on its own, apart from what is inside it. -/
inductive ShownNode where
  | leaf (text : String)
  | node (frame : Frame) (child : ExprId)
deriving DecidableEq

def shownNode (u : CompilationUnit hash) (level : Nat) (id : ExprId) : Except Breach ShownNode := do
  checkIndex id.index u.exprs.size
  checkIndex (u.shownForm id).index u.exprs.size
  let type? ← u.shownTypeListing? id
  let typeField := (type?.map fun type => ("type", type)).toList
  match (u.expr (u.shownForm id)).expr with
  | .return_ value => return .node ⟨level, "ReturnExpr", "value", type?⟩ value
  | .functionType result => return .node ⟨level, "FunctionTypeExpr", "return_type", type?⟩ result
  | .intLiteral value => return .leaf (leaf "IntLiteralExpr" (("value", value.text) :: typeField))
  | .name name =>
    let text ← u.names.lookup name
    return .leaf (leaf "NameExpr" (("name", Text.quote text) :: typeField))
  | .baseType kind => return .leaf (leaf (kind.name ++ "Expr") typeField)

/-- The frames from an expression inwards, innermost first after those of `outer`, and the leaf
inside them. Constant forms that lead in a circle are found out by a chain of more than `limit`
expressions. -/
def shownChain (u : CompilationUnit hash) (outer : List Frame) :
    (limit level : Nat) → ExprId → Except Breach (List Frame × String)
  | 0, _, id => .error (.endlessForms id)
  | limit + 1, level, id =>
    match u.shownNode level id with
    | .error breach => .error breach
    | .ok (.leaf text) => .ok (outer, text)
    | .ok (.node frame child) => u.shownChain (frame :: outer) limit (level + 1) child

def exprListing (u : CompilationUnit hash) (level : Nat) (id : ExprId) : Except Breach String :=
  (u.shownChain [] u.exprs.size level id).map fun (frames, leaf) =>
    String.join (frames.reverse.map Frame.opening) ++ leaf ++
      String.join (frames.map Frame.closing)

def itemListing (u : CompilationUnit hash) (id : ItemId) : Except Breach String := do
  checkIndex id.index u.items.size
  let item := u.item id
  let name ← u.names.lookup item.name
  let signature ← u.exprListing 1 item.signature
  let body ← u.exprListing 1 item.body
  return "FunctionItem(\n" ++ indent 1 ++ "name = " ++ Text.quote name ++ ",\n" ++
    indent 1 ++ "type = " ++ signature ++ ",\n" ++ indent 1 ++ "body = " ++ body ++ ",\n)\n"

end CompilationUnit

end FrontEnd
