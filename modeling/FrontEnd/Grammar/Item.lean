import FrontEnd.Grammar.Parts
import FrontEnd.CompilationUnit.Basic

/-!
Parsing builds the nodes of one item in a compilation unit, children before parents. An error
keeps the nodes of the parts read before it.
-/

namespace FrontEnd.CompilationUnit

variable {hash : Hasher}

/-- Puts function type expressions around an expression, the first position innermost. -/
def wrapInFunctionTypes (u : CompilationUnit hash) (id : ExprId) :
    List Position → ExprId × CompilationUnit hash
  | [] => (id, u)
  | pos :: rest =>
    let (id, u) := u.addExpr (.functionType id) pos
    u.wrapInFunctionTypes id rest

def addTypeSyntax (u : CompilationUnit hash) (type : TypeSyntax) : ExprId × CompilationUnit hash :=
  let (base, u) := u.addExpr (.name type.base) type.basePos
  u.wrapInFunctionTypes base type.opens

def addValueSyntax (u : CompilationUnit hash) : ValueSyntax → ExprId × CompilationUnit hash
  | .literal value pos => u.addExpr (.intLiteral value) pos
  | .type type => u.addTypeSyntax type

/-- The signature of an item is a function type expression. -/
def addSignature (u : CompilationUnit hash) (header : HeaderSyntax) :
    ExprId × CompilationUnit hash :=
  let (result, u) := u.addTypeSyntax header.result
  u.addExpr (.functionType result) header.params

def addStatement (u : CompilationUnit hash) (statement : StatementSyntax) :
    ExprId × CompilationUnit hash :=
  let (value, u) := u.addValueSyntax statement.value
  u.addExpr (.return_ value) statement.pos

/-- Parses what is next in a stream as one item and the end of the file. -/
def parseStream (u : CompilationUnit hash) (s : TokenStream) :
    Except SyntaxError ItemId × CompilationUnit hash :=
  match HeaderSyntax.read s with
  | .error e => (.error e, u)
  | .ok (header, s) =>
    let (signature, u) := u.addSignature header
    match StatementSyntax.read s with
    | .error e => (.error e, u)
    | .ok (statement, s) =>
      let (body, u) := u.addStatement statement
      match readClose s with
      | .error e => (.error e, u)
      | .ok _ =>
        let (item, u) := u.addItem ⟨header.name, signature, body, header.pos⟩
        (.ok item, u)

def parse (u : CompilationUnit hash) (tokens : List Token) :
    Except SyntaxError ItemId × CompilationUnit hash :=
  match TokenStream.ofTokens tokens with
  | .error e => (.error e, u)
  | .ok s => u.parseStream s

end FrontEnd.CompilationUnit
