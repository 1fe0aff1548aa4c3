import FrontEnd.Grammar.Stream

/-!
The parts of an item, read from tokens:

    item      := header statement close
    header    := def IDENT ( ) -> type
    statement := { return value ;?
    close     := } EOF
    value     := INT | type
    type      := IDENT | ( ) -> type
-/

namespace FrontEnd

/-- A type as it is spelled: the parentheses that open function types, innermost first, around a
name. -/
structure TypeSyntax where
  opens : List Position
  base : Name
  basePos : Position
deriving DecidableEq, Inhabited

inductive ValueSyntax where
  | literal (value : IntegerValue Name) (pos : Position)
  | type (type : TypeSyntax)
deriving DecidableEq, Inhabited

structure HeaderSyntax where
  pos : Position
  name : Name
  /-- Where the parameter list opens. -/
  params : Position
  result : TypeSyntax
deriving DecidableEq, Inhabited

structure StatementSyntax where
  pos : Position
  value : ValueSyntax
deriving DecidableEq, Inhabited

namespace Token

def ident (token : Token) : Except SyntaxError Name :=
  match token.value with
  | .ident name => .ok name
  | _ => .error (.missingValue token.kind token.pos)

def int (token : Token) : Except SyntaxError (IntegerValue Name) :=
  match token.value with
  | .int value => .ok value
  | _ => .error (.missingValue token.kind token.pos)

end Token

/-- Reads a type inside of the function types that `opens` opens. The construct is what its first
token is expected to start. -/
def TypeSyntax.readInside (opens : List Position) (construct : Construct) (s : TokenStream) :
    Except SyntaxError (TypeSyntax × TokenStream) :=
  if s.current.kind = .identifier then
    s.current.ident.map fun name => (⟨opens, name, s.current.pos⟩, s.advance)
  else if hopen : s.current.kind = .symbol .leftParen then
    let close := s.advance
    if hclose : close.current.kind = .symbol .rightParen then
      let arrow := close.advance
      if arrow.isAt (.symbol .arrow) then
        have hmoved : s.advance.rest.length < s.rest.length :=
          TokenStream.advance_rest_lt (by rw [hopen, hclose]; decide)
        have hclosed := TokenStream.advance_rest_le s.advance
        have hdone := TokenStream.advance_rest_le s.advance.advance
        TypeSyntax.readInside (s.current.pos :: opens) .type arrow.advance
      else .error (arrow.unexpected .returnType)
    else .error (close.unexpected .parameterList)
  else .error (s.unexpected construct)
termination_by s.rest.length

def TypeSyntax.read (construct : Construct) (s : TokenStream) :
    Except SyntaxError (TypeSyntax × TokenStream) :=
  TypeSyntax.readInside [] construct s

def ValueSyntax.read (s : TokenStream) : Except SyntaxError (ValueSyntax × TokenStream) :=
  if s.isAt .intLiteral then
    s.current.int.map fun value => (.literal value s.current.pos, s.advance)
  else (TypeSyntax.read .expression s).map fun read => (.type read.1, read.2)

def HeaderSyntax.read (s : TokenStream) : Except SyntaxError (HeaderSyntax × TokenStream) := do
  let (start, s) ← s.expect (.keyword .def_) .item
  let (word, s) ← s.expect .identifier .item
  let name ← word.ident
  let (params, s) ← s.expect (.symbol .leftParen) .parameterList
  let (_, s) ← s.expect (.symbol .rightParen) .parameterList
  let (_, s) ← s.expect (.symbol .arrow) .returnType
  let (result, s) ← TypeSyntax.read .type s
  return (⟨start.pos, name, params.pos, result⟩, s)

def StatementSyntax.read (s : TokenStream) :
    Except SyntaxError (StatementSyntax × TokenStream) := do
  let (_, s) ← s.expect (.symbol .leftBrace) .item
  let (start, s) ← s.expect (.keyword .return_) .statement
  let (value, s) ← ValueSyntax.read s
  let (_, s) := s.skipIf (.symbol .semicolon)
  return (⟨start.pos, value⟩, s)

/-- Reads the end of an item, after which no token may come. -/
def readClose (s : TokenStream) : Except SyntaxError TokenStream := do
  let (_, s) ← s.expect (.symbol .rightBrace) .statement
  let (_, s) ← s.expect .endOfFile .item
  return s

end FrontEnd
