import FrontEnd.Diagnostic.Basic
import FrontEnd.Lexical.Error
import FrontEnd.Grammar.Error
import FrontEnd.Binding
import FrontEnd.Typing.Error

/-!
The diagnostics of the errors of each phase. Names and types are spelled by the unit they belong
to; the source is left to whoever knows it.
-/

namespace FrontEnd

def LexicalError.diagnostic (e : LexicalError) : Diagnostic :=
  (Diagnostic.error .tokenize e.message).atPosition e.pos

/-- A malformed stream has no position. -/
def SyntaxError.pos : SyntaxError → Position
  | unexpected token => token.pos
  | malformedStream _ => .nowhere

def SyntaxError.diagnostic (e : SyntaxError) : Diagnostic :=
  (Diagnostic.error .parse e.message).atPosition e.pos

def BindingError.diagnostic {hash : String → UInt32} (names : Interner hash) (e : BindingError) :
    Except Breach Diagnostic :=
  (e.message names).map fun message => (Diagnostic.error .typecheck message).atPosition e.pos

def TypingError.diagnostic {hash : Hasher} (u : CompilationUnit hash) (e : TypingError) :
    Except Breach Diagnostic :=
  (e.message u).map fun message => (Diagnostic.error .typecheck message).atPosition e.pos

end FrontEnd
