import FrontEnd.Token.Basic
import FrontEnd.Text.Quoted

/-!
The listing of tokens: a line for each, with its position, its kind and its value. The digits of
an oversized literal are not shown.
-/

namespace FrontEnd.Token

variable {hash : String → UInt32}

def valueText (names : Interner hash) : Payload Name → Except Breach String
  | .none => .ok ""
  | .int value => .ok (" " ++ value.text)
  | .ident name => (names.lookup name).map fun text => " " ++ Text.quote text

def line (names : Interner hash) (token : Token) : Except Breach String :=
  (valueText names token.value).map fun value =>
    token.pos.text ++ " " ++ token.kind.name ++ value ++ "\n"

/-- The lines of tokens, after what is already written. -/
def linesOnto (names : Interner hash) (out : String) : List Token → Except Breach String
  | [] => .ok out
  | token :: rest =>
    match token.line names with
    | .error breach => .error breach
    | .ok line => linesOnto names (out ++ line) rest

def listing (names : Interner hash) (tokens : List Token) : Except Breach String :=
  linesOnto names "" tokens

end FrontEnd.Token
