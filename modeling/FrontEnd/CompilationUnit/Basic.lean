import FrontEnd.Interner
import FrontEnd.Source.Padded

/-!
A compilation unit owns the names, sources and nodes of one run. It only grows: nodes never
change, and what later phases learn about a node is recorded beside it, each fact once.
-/

namespace FrontEnd

structure SourceId where
  index : Nat
deriving DecidableEq, Inhabited

structure Source where
  path : Name
  content : PaddedSource
deriving DecidableEq, Inhabited

/-- What is known about an expression. -/
structure Findings where
  referent : Option DeclId := none
  /-- The value `some none` records that the expression has no constant form. -/
  constantForm : Option (Option ExprId) := none
  type : Option TypeId := none
  /-- The value `some none` records that the expression denotes no type. -/
  denotedType : Option (Option TypeId) := none
deriving DecidableEq, Inhabited

/-- A place among the findings about an expression. -/
inductive Slot where
  | referent
  | constantForm
  | type
  | denotedType
deriving DecidableEq

/-- What a slot has room for. -/
abbrev Slot.Value : Slot → Type
  | referent => DeclId
  | constantForm => Option ExprId
  | type => TypeId
  | denotedType => Option TypeId

def Slot.fact : Slot → Fact
  | referent => .referent
  | constantForm => .constantForm
  | type => .type
  | denotedType => .denotedType

namespace Findings

/-- What is in a slot. -/
def get (found : Findings) : (slot : Slot) → Option slot.Value
  | .referent => found.referent
  | .constantForm => found.constantForm
  | .type => found.type
  | .denotedType => found.denotedType

/-- Puts a value in a slot. -/
def put (found : Findings) : (slot : Slot) → slot.Value → Findings
  | .referent, decl => { found with referent := some decl }
  | .constantForm, form => { found with constantForm := some form }
  | .type, type => { found with type := some type }
  | .denotedType, type => { found with denotedType := some type }

end Findings

structure CompilationUnit (hash : Hasher) where
  names : Interner hash.text
  sources : Array Source
  items : Array FunctionItem
  itemDeclarations : Array (Option DeclId)
  exprs : Array ExprNode
  findings : Array Findings
  types : Array TypeNode
  declarations : Array Declaration

/-- The one type of a kind of base type. -/
def BaseType.typeId (kind : BaseType) : TypeId := ⟨kind.slot⟩

/-- The expression that stands for a base type where no source spells one. -/
def BaseType.exprId (kind : BaseType) : ExprId := ⟨kind.slot⟩

namespace CompilationUnit

variable {hash : Hasher}

/-- A unit that knows the base types. -/
def new (hash : Hasher) : CompilationUnit hash where
  names := .empty
  sources := #[]
  items := #[]
  itemDeclarations := #[]
  exprs := (BaseType.all.map fun kind => ⟨.baseType kind, .nowhere⟩).toArray
  findings := (BaseType.all.map fun _ => {}).toArray
  types := (BaseType.all.map .base).toArray
  declarations := #[]

instance : Inhabited (CompilationUnit hash) := ⟨new hash⟩

/-! ### Names and sources -/

def intern (u : CompilationUnit hash) (text : String) : Name × CompilationUnit hash :=
  let (name, names) := u.names.intern text
  (name, { u with names })

/-- How a path is shown: a dash stands for standard input. -/
def shownPath (path : String) : String := if path = "-" then "<stdin>" else path

def addSource (u : CompilationUnit hash) (path : String) (bytes : List UInt8) :
    SourceId × CompilationUnit hash :=
  let (path, u) := u.intern (shownPath path)
  (⟨u.sources.size⟩, { u with sources := u.sources.push ⟨path, ⟨bytes⟩⟩ })

def source (u : CompilationUnit hash) (id : SourceId) : Source := u.sources.getD id.index default

/-- How the path of a source is shown. -/
def sourcePath (u : CompilationUnit hash) (id : SourceId) : Except Breach String := do
  checkIndex id.index u.sources.size
  u.names.lookup (u.source id).path

/-! ### Nodes

What is said of a node that is not there says nothing: whoever is handed an index checks it. -/

def item (u : CompilationUnit hash) (id : ItemId) : FunctionItem := u.items.getD id.index default

def expr (u : CompilationUnit hash) (id : ExprId) : ExprNode := u.exprs.getD id.index default

def typeNode (u : CompilationUnit hash) (id : TypeId) : TypeNode := u.types.getD id.index default

def decl (u : CompilationUnit hash) (id : DeclId) : Declaration :=
  u.declarations.getD id.index default

def addItem (u : CompilationUnit hash) (item : FunctionItem) : ItemId × CompilationUnit hash :=
  (⟨u.items.size⟩,
    { u with
      items := u.items.push item
      itemDeclarations := u.itemDeclarations.push none })

/-- Nothing is known about a new expression. -/
def addExpr (u : CompilationUnit hash) (expr : Expr) (pos : Position) :
    ExprId × CompilationUnit hash :=
  (⟨u.exprs.size⟩,
    { u with
      exprs := u.exprs.push ⟨expr, pos⟩
      findings := u.findings.push {} })

def addFunctionType (u : CompilationUnit hash) (result : TypeId) : TypeId × CompilationUnit hash :=
  (⟨u.types.size⟩, { u with types := u.types.push (.function result) })

def addDeclaration (u : CompilationUnit hash) (decl : Declaration) :
    DeclId × CompilationUnit hash :=
  (⟨u.declarations.size⟩, { u with declarations := u.declarations.push decl })

/-! ### Findings -/

def itemDeclaration? (u : CompilationUnit hash) (id : ItemId) : Option DeclId :=
  u.itemDeclarations.getD id.index none

def findingsOf (u : CompilationUnit hash) (id : ExprId) : Findings :=
  u.findings.getD id.index default

def modifyFindings (u : CompilationUnit hash) (id : ExprId) (f : Findings → Findings) :
    CompilationUnit hash :=
  { u with findings := u.findings.modify id.index f }

def recordItemDeclaration (u : CompilationUnit hash) (id : ItemId) (decl : DeclId) :
    Except Breach (CompilationUnit hash) := do
  checkIndex id.index u.itemDeclarations.size
  Fact.itemDeclaration.checkUnset (u.itemDeclaration? id)
  return { u with itemDeclarations := u.itemDeclarations.setIfInBounds id.index (some decl) }

/-- Records a finding about an expression in a slot that is still empty. -/
def record (u : CompilationUnit hash) (slot : Slot) (id : ExprId) (value : slot.Value) :
    Except Breach (CompilationUnit hash) := do
  checkIndex id.index u.findings.size
  slot.fact.checkUnset ((u.findingsOf id).get slot)
  return u.modifyFindings id fun found => found.put slot value

/-! ### Chains of expressions -/

/-- The expression inside a function type expression: its result. -/
def functionResult? (u : CompilationUnit hash) (id : ExprId) : Option ExprId :=
  match (u.expr id).expr with
  | .functionType result => some result
  | _ => none

/-- The expression inside a return: its value. -/
def returnedValue? (u : CompilationUnit hash) (id : ExprId) : Option ExprId :=
  match (u.expr id).expr with
  | .return_ value => some value
  | _ => none

/-- The only expression inside an expression. -/
def child? (u : CompilationUnit hash) (id : ExprId) : Option ExprId :=
  match (u.expr id).expr with
  | .functionType result => some result
  | .return_ value => some value
  | _ => none

end CompilationUnit

/-- Goes from an expression inwards as long as `inner?` leads to an older one. The answer is the
expressions left behind, innermost first after those of `outer`, and the one where it stopped. -/
def ExprId.descend (inner? : ExprId → Option ExprId) (outer : List ExprId) (id : ExprId) :
    List ExprId × ExprId :=
  match inner? id with
  | none => (outer, id)
  | some inner => if inner.index < id.index then inner.descend inner? (id :: outer) else (outer, id)
termination_by id.index

end FrontEnd
