import FrontEnd.Text.Utf8
import FrontEnd.Lexical.Error

/-!
Comments. The text of a comment is well-formed and holds no zero byte; a line comment reaches to
the end of its line, and block comments nest.
-/

namespace FrontEnd.Comment

/-- The number of bytes of the first character, which may stand in a comment. -/
def characterWidth (bytes : List UInt8) : Except LexicalFault Nat :=
  match Utf8.decode bytes with
  | none => .error .badEncoding
  | some (codePoint, n) => if codePoint = 0 then .error (.unexpectedCharacter 0) else .ok n

def isLineEnd (byte : UInt8) : Bool := byte = 0x0A || byte = 0x0D

/-- The number of bytes of a comment up to the end of the line, some of them already read. -/
def lineEnd (read : Nat) : List UInt8 → Except ReadFault Nat
  | [] => .ok read
  | byte :: rest =>
    if isLineEnd byte then .ok read
    else
      match characterWidth (byte :: rest) with
      | .error kind => .error ⟨read, kind, .readEnd⟩
      | .ok n => lineEnd (read + n) (rest.drop (n - 1))
termination_by bytes => bytes.length

/-- The number of bytes of a block comment, some of them already read, from inside of a comment
that `enclosing` others are around. -/
def blockEnd (enclosing read : Nat) : List UInt8 → Except ReadFault Nat
  | [] => .error ⟨read, .unclosedBlockComment, .readEnd⟩
  | 0x2F :: 0x2A :: rest => blockEnd (enclosing + 1) (read + 2) rest
  | 0x2A :: 0x2F :: rest =>
    match enclosing with
    | 0 => .ok (read + 2)
    | enclosing + 1 => blockEnd enclosing (read + 2) rest
  | byte :: rest =>
    match characterWidth (byte :: rest) with
    | .error kind => .error ⟨read, kind, .readEnd⟩
    | .ok n => blockEnd enclosing (read + n) (rest.drop (n - 1))
termination_by bytes => bytes.length

end FrontEnd.Comment
