import FrontEnd.Token.Basic
import FrontEnd.Lexical.Number
import FrontEnd.Lexical.Comment

/-!
The pieces of a source: blanks, line ends and comments, which mean nothing, and lexemes, each the
longest at its place. What the pieces are does not depend on limits or tab stops.
-/

namespace FrontEnd

def isWordStart (byte : UInt8) : Bool :=
  (0x61 ≤ byte && byte ≤ 0x7A) || (0x41 ≤ byte && byte ≤ 0x5A) || byte = 0x5F

def isWordByte (byte : UInt8) : Bool := isWordStart byte || Number.isDigit byte

namespace Symbol

def bytes (s : Symbol) : List UInt8 := s.spelling.toList.map fun c => c.toNat.toUInt8

/-- The symbols with their bytes, long ones first. -/
def longestFirst : List (Symbol × List UInt8) :=
  let ofLength (n : Nat) := (all.map fun s => (s, s.bytes)).filter fun entry => entry.2.length = n
  ofLength 3 ++ ofLength 2 ++ ofLength 1

/-- The longest symbol that a source starts with. -/
def longest? (source : List UInt8) : Option (Symbol × List UInt8) :=
  longestFirst.find? fun entry => entry.2.isPrefixOf source

end Symbol

/-- How many bytes a piece takes, and the lexeme that it is, if it is one. -/
structure PieceEnd where
  length : Nat
  lexeme? : Option Lexeme
deriving DecidableEq

/-- A blank, a line end or a comment. -/
def PieceEnd.blank (length : Nat) : PieceEnd := ⟨length, none⟩

/-- The end of the piece that starts with a byte. -/
def PieceEnd.find (byte : UInt8) (rest : List UInt8) : Except ReadFault PieceEnd :=
  if byte = 0x20 ∨ byte = 0x09 ∨ byte = 0x0A then .ok (.blank 1)
  else if byte = 0x0D then .ok (.blank (if rest.head? = some 0x0A then 2 else 1))
  else if byte = 0x2F ∧ rest.head? = some 0x2F then
    (Comment.lineEnd 2 rest.tail).map .blank
  else if byte = 0x2F ∧ rest.head? = some 0x2A then
    (Comment.blockEnd 0 2 rest.tail).map .blank
  else if isWordStart byte then
    let word := byte :: rest.takeWhile isWordByte
    .ok ⟨word.length, some (.ofWord (Number.asciiText word))⟩
  else if Number.isDigit byte then
    let word := byte :: rest.takeWhile isWordByte
    (Number.read word).map fun value => ⟨word.length, some (.ofInt value)⟩
  else
    match Symbol.longest? (byte :: rest) with
    | some (s, bytes) => .ok ⟨bytes.length, some (.ofSymbol s)⟩
    | none =>
      match Utf8.decode (byte :: rest) with
      | some (codePoint, _) => .error ⟨0, .unexpectedCharacter codePoint, .readEnd⟩
      | none => .error ⟨0, .badEncoding, .readEnd⟩

/-- Some bytes of a source and the lexeme that they are, if they are one. -/
structure Piece where
  text : List UInt8
  lexeme? : Option Lexeme
deriving DecidableEq

/-- A source cut into pieces, up to its end or to a fault in what remains. -/
structure Pieces where
  pieces : List Piece
  remaining : List UInt8
  fault? : Option ReadFault
deriving DecidableEq

namespace Pieces

/-- Cuts a source, after the pieces of `done`, which come last first. -/
def cutOnto (done : List Piece) : List UInt8 → Pieces
  | [] => ⟨done.reverse, [], none⟩
  | byte :: rest =>
    match PieceEnd.find byte rest with
    | .ok ⟨length, lexeme?⟩ =>
      cutOnto (⟨byte :: rest.take (length - 1), lexeme?⟩ :: done) (rest.drop (length - 1))
    | .error fault => ⟨done.reverse, byte :: rest, some fault⟩
termination_by source => source.length

def ofSource (source : List UInt8) : Pieces := cutOnto [] source

end Pieces

end FrontEnd
