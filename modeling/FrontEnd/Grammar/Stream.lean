import FrontEnd.Token.Basic
import FrontEnd.Grammar.Error

/-!
Streams of tokens that end with the end of the file. There is always a current token, since the
last one is never left.
-/

namespace FrontEnd

structure TokenStream where
  current : Token
  rest : List Token
deriving DecidableEq, Inhabited

namespace TokenStream

/-- Only the last token is looked at. -/
def ofTokens (tokens : List Token) : Except SyntaxError TokenStream :=
  match tokens with
  | [] => .error .emptyStream
  | token :: rest =>
    if (rest.getLastD token).kind = .endOfFile then .ok ⟨token, rest⟩
    else .error .unterminatedStream

def advance (s : TokenStream) : TokenStream :=
  match s.rest with
  | [] => s
  | token :: rest => ⟨token, rest⟩

def isAt (s : TokenStream) (kind : TokenKind) : Bool := s.current.kind = kind

/-- Moves over a token of a kind, if the current one is, and says whether it is. -/
def skipIf (s : TokenStream) (kind : TokenKind) : Bool × TokenStream :=
  if s.isAt kind then (true, s.advance) else (false, s)

/-- The current token stands where a construct was expected. -/
def unexpected (s : TokenStream) (construct : Construct) : SyntaxError :=
  .unexpected ⟨construct, s.current.kind, s.current.pos⟩

/-- Moves over a token of a kind, which a construct asks for. -/
def expect (s : TokenStream) (kind : TokenKind) (construct : Construct) :
    Except SyntaxError (Token × TokenStream) :=
  if s.isAt kind then .ok (s.current, s.advance) else .error (s.unexpected construct)

theorem advance_rest_le (s : TokenStream) : s.advance.rest.length ≤ s.rest.length := by
  unfold advance
  split <;> simp_all

/-- A stream that stays shows the token of before. -/
theorem advance_rest_lt {s : TokenStream} (h : s.advance.current.kind ≠ s.current.kind) :
    s.advance.rest.length < s.rest.length := by
  unfold advance at h ⊢
  split <;> simp_all

end TokenStream

end FrontEnd
