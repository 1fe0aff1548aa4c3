import FrontEnd.Lexical.Piece
import Mathlib.Data.Nat.Digits.Defs

/-! # The lexical grammar

What a source may consist of, without a reader: blanks, line ends, comments and lexemes. What a
piece is may depend on the bytes that follow it, so every piece is described together with them. -/

namespace FrontEnd.LexicalGrammar

open String (utf8EncodeChar)

/-! ## Comments -/

def encode (text : List Char) : List UInt8 := text.flatMap utf8EncodeChar

/-- A pair of bytes that opens a block comment. -/
def opening : List UInt8 := [0x2F, 0x2A]

/-- A pair of bytes that closes a block comment. -/
def closing : List UInt8 := [0x2A, 0x2F]

/-- A pair of bytes that starts a line comment. -/
def lineMark : List UInt8 := [0x2F, 0x2F]

/-- The rest of a block comment inside of others, to the end of the outermost one. Openings and
closings are taken as they come, and a character is read only where neither stands. -/
inductive InBlock : (enclosing : Nat) → List UInt8 → Prop where
  | close : InBlock 0 closing
  | leave {enclosing rest} : InBlock enclosing rest → InBlock (enclosing + 1) (closing ++ rest)
  | enter {enclosing rest} : InBlock (enclosing + 1) rest → InBlock enclosing (opening ++ rest)
  | character {enclosing rest} (char : Char) (hzero : char ≠ '\x00')
      (hopening : ¬ opening <+: utf8EncodeChar char ++ rest)
      (hclosing : ¬ closing <+: utf8EncodeChar char ++ rest) :
      InBlock enclosing rest → InBlock enclosing (utf8EncodeChar char ++ rest)

/-- A line ends before a line feed or a carriage return, and at the end of the source. -/
def LineEnds (after : List UInt8) : Prop := ∀ byte ∈ after.head?, byte = 0x0A ∨ byte = 0x0D

/-! ## Blanks, line ends and comments -/

/-- A text that means nothing, before some other bytes. -/
inductive IsTrivia : (text after : List UInt8) → Prop where
  | space (after) : IsTrivia [0x20] after
  | tab (after) : IsTrivia [0x09] after
  | lineFeed (after) : IsTrivia [0x0A] after
  | carriageReturn (after) : IsTrivia [0x0D] after
  | wideBreak (after) : IsTrivia [0x0D, 0x0A] after
  | lineComment {after} (text : List Char)
      (htext : ∀ char ∈ text, char ≠ '\x00' ∧ char ≠ '\n' ∧ char ≠ '\r')
      (hend : LineEnds after) : IsTrivia (lineMark ++ encode text) after
  | blockComment {body} (after) : InBlock 0 body → IsTrivia (opening ++ body) after

/-! ## Words -/

def asChar (byte : UInt8) : Char := Char.ofNat byte.toNat

def IsWordHead (byte : UInt8) : Prop := (asChar byte).isAlpha = true ∨ byte = 0x5F

def InWord (byte : UInt8) : Prop := (asChar byte).isAlphanum = true ∨ byte = 0x5F

/-- A run of word bytes that cannot be made longer. -/
def IsRun (text after : List UInt8) : Prop :=
  (∀ byte ∈ text, InWord byte) ∧ ∀ byte ∈ after.head?, ¬ InWord byte

def asText (bytes : List UInt8) : String := String.ofList (bytes.map asChar)

/-! ## Integer literals -/

/-- A byte stands for a number below a radix of at most sixteen. -/
inductive IsDigit (radix : Nat) : UInt8 → Nat → Prop where
  | decimal (value : Nat) : value < radix → value < 10 →
      IsDigit radix (UInt8.ofNat (0x30 + value)) value
  | lower (value : Nat) : 10 + value < radix → value < 6 →
      IsDigit radix (UInt8.ofNat (0x61 + value)) (10 + value)
  | upper (value : Nat) : 10 + value < radix → value < 6 →
      IsDigit radix (UInt8.ofNat (0x41 + value)) (10 + value)

/-- Digits with single underscores between some of them: the bytes, the digits alone and their
values. -/
inductive IsDigits (radix : Nat) : List UInt8 → List UInt8 → List Nat → Prop where
  | last {byte value} : IsDigit radix byte value → IsDigits radix [byte] [byte] [value]
  | next {byte value bytes digits values} : IsDigit radix byte value →
      IsDigits radix bytes digits values →
      IsDigits radix (byte :: bytes) (byte :: digits) (value :: values)
  | separated {byte value bytes digits values} : IsDigit radix byte value →
      IsDigits radix bytes digits values →
      IsDigits radix (byte :: 0x5F :: bytes) (byte :: digits) (value :: values)

/-- The value of digits, the first of which weighs most. A value of more than 62 bits stays as it
is spelled. -/
def literalValue (radix : Nat) (digits : List UInt8) (values : List Nat) :
    IntegerValue String :=
  let value := Nat.ofDigits radix values.reverse
  if value < 2 ^ 62 then .small value else .oversized (asText digits) radix

/-- A word is an integer literal of a value. -/
inductive IsLiteral : List UInt8 → IntegerValue String → Prop where
  | zero : IsLiteral [0x30] (.small 0)
  | decimal {word digits values} : IsDigits 10 word digits values → word.head? ≠ some 0x30 →
      IsLiteral word (literalValue 10 digits values)
  | hexadecimal {mark word digits values} : mark = 0x78 ∨ mark = 0x58 →
      IsDigits 16 word digits values →
      IsLiteral (0x30 :: mark :: word) (literalValue 16 digits values)
  | binary {mark word digits values} : mark = 0x62 ∨ mark = 0x42 →
      IsDigits 2 word digits values →
      IsLiteral (0x30 :: mark :: word) (literalValue 2 digits values)

/-! ## Lexemes -/

/-- A text that is a lexeme before some other bytes, and could not be a longer one. -/
inductive IsLexeme : (text after : List UInt8) → Lexeme → Prop where
  | keyword {text after head tail} (k : Keyword) : text = head :: tail → IsWordHead head →
      IsRun text after → asText text = k.spelling → IsLexeme text after ⟨.keyword k, .none⟩
  | identifier {text after head tail} : text = head :: tail → IsWordHead head →
      IsRun text after → (∀ k : Keyword, asText text ≠ k.spelling) →
      IsLexeme text after ⟨.identifier, .ident (asText text)⟩
  | literal {text after value} : IsRun text after → IsLiteral text value →
      IsLexeme text after ⟨.intLiteral, .int value⟩
  | symbol {text after} (s : Symbol) : asText text = s.spelling →
      ¬ lineMark <+: text ++ after → ¬ opening <+: text ++ after →
      (∀ other longer, asText longer = Symbol.spelling other → longer <+: text ++ after →
        longer.length ≤ text.length) →
      IsLexeme text after ⟨.symbol s, .none⟩

/-- A source is made of pieces one after the other, with the lexemes among them. -/
inductive Decomposes : List UInt8 → List Lexeme → Prop where
  | nil : Decomposes [] []
  | trivia {text after lexemes} : IsTrivia text after → Decomposes after lexemes →
      Decomposes (text ++ after) lexemes
  | lexeme {text after lexeme lexemes} : IsLexeme text after lexeme →
      Decomposes after lexemes → Decomposes (text ++ after) (lexeme :: lexemes)

end FrontEnd.LexicalGrammar
