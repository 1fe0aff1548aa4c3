import FrontEnd.Position

/-!
The causes for which reading a source into tokens fails.
-/

namespace FrontEnd

inductive LexicalFault where
  | badEncoding
  /-- A well-formed character that starts no token, or a zero inside a comment. -/
  | unexpectedCharacter (codePoint : Nat)
  | tooManyLines
  | tooManyCharactersInLine
  | tooManyCharactersInFile
  | unclosedBlockComment
  | leadingZero
  | badIntLiteral
deriving DecidableEq, Inhabited

/-- Upper-case hexadecimal, of four digits at least. -/
def codePointText (codePoint : Nat) : String :=
  let digits := (Nat.toDigits 16 codePoint).map Char.toUpper
  "U+" ++ String.ofList (List.replicate (4 - digits.length) '0' ++ digits)

def LexicalFault.message : LexicalFault → String
  | badEncoding => "invalid UTF-8 encoding"
  | unexpectedCharacter codePoint => "unexpected character " ++ codePointText codePoint
  | tooManyLines => "too many lines in source file"
  | tooManyCharactersInLine => "too many characters in line"
  | tooManyCharactersInFile => "too many characters in file"
  | unclosedBlockComment => "unclosed block comment"
  | leadingZero => "decimal literal cannot have leading zero"
  | badIntLiteral => "invalid integer literal"

/-- The place that an error is reported at. -/
inductive Anchor where
  /-- Where the piece of the source starts. -/
  | pieceStart
  /-- Where reading stopped. -/
  | readEnd
deriving DecidableEq

/-- What keeps a piece of a source from being read to its end, and how many of its bytes are read
until that shows. -/
structure ReadFault where
  read : Nat
  kind : LexicalFault
  anchor : Anchor
deriving DecidableEq

structure LexicalError where
  kind : LexicalFault
  pos : Position
deriving DecidableEq, Inhabited

def LexicalError.message (e : LexicalError) : String := e.kind.message

end FrontEnd
