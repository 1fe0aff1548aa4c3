import FrontEnd.Token.Kind
import FrontEnd.Position

/-!
The errors of reading tokens as an item: a token that does not fit, or a stream of tokens that no
source gives.
-/

namespace FrontEnd

/-- What was expected where a token does not fit. -/
inductive Construct where
  | item
  | statement
  | expression
  | type
  | parameterList
  | returnType
deriving DecidableEq, Inhabited

namespace Construct

def all : List Construct := [item, statement, expression, type, parameterList, returnType]

def description : Construct → String
  | item => "item"
  | statement => "statement"
  | expression => "expression"
  | type => "type"
  | parameterList => "parameter list"
  | returnType => "return type"

end Construct

structure UnexpectedToken where
  expected : Construct
  found : TokenKind
  pos : Position
deriving DecidableEq, Inhabited

inductive SyntaxError where
  | unexpected (token : UnexpectedToken)
  /-- The stream itself is at fault. -/
  | malformedStream (text : String)
deriving DecidableEq, Inhabited

namespace SyntaxError

def emptyStream : SyntaxError := malformedStream "empty token stream"

def unterminatedStream : SyntaxError :=
  malformedStream "token stream is not terminated by end of file"

/-- A token whose kind asks for a value that it does not have. -/
def missingValue (kind : TokenKind) (pos : Position) : SyntaxError :=
  malformedStream (kind.name ++ " token at " ++ pos.text ++ " carries no value")

def message : SyntaxError → String
  | unexpected token =>
    "expected " ++ token.expected.description ++ ", found " ++ token.found.description
  | malformedStream text => "grammar error: " ++ text

end SyntaxError

end FrontEnd
