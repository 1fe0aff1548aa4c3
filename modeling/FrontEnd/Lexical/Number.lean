import FrontEnd.IntegerValue
import FrontEnd.Lexical.Error

/-!
Integer literals, as words that begin with a digit: decimal without a leading zero, hexadecimal
after `0x` and binary after `0b`, with single underscores between digits.
-/

namespace FrontEnd.Number

def isDigit (byte : UInt8) : Bool := 0x30 ≤ byte && byte ≤ 0x39

/-- The value of a byte as a digit of a radix of at most sixteen. -/
def digit? (radix : Nat) (byte : UInt8) : Option Nat :=
  let value :=
    if isDigit byte then byte.toNat - 0x30
    else if 0x61 ≤ byte && byte ≤ 0x66 then byte.toNat - 0x61 + 10
    else if 0x41 ≤ byte && byte ≤ 0x46 then byte.toNat - 0x41 + 10
    else radix
  if value < radix then some value else none

/-- The digits of a word without their separators. A separator and the end may only follow a
digit. The answer to a word that breaks this rule is the number of bytes before the offending
place. -/
def digitsFrom (radix : Nat) (afterDigit : Bool) (read : Nat) (digits : List UInt8) :
    List UInt8 → Except Nat (List UInt8)
  | [] => if afterDigit then .ok digits.reverse else .error read
  | byte :: rest =>
    if byte = 0x5F then
      if afterDigit then digitsFrom radix false (read + 1) digits rest else .error read
    else if (digit? radix byte).isSome then
      digitsFrom radix true (read + 1) (byte :: digits) rest
    else .error read

/-- The value of digits, as long as it is small. -/
def smallValue? (radix : Nat) (digits : List UInt8) : Option Nat :=
  digits.foldl
    (fun value? byte =>
      value?.bind fun value =>
        let value := value * radix + (digit? radix byte).getD 0
        if value ≤ IntegerValue.smallMax then some value else none)
    (some 0)

/-- The text of ASCII bytes. -/
def asciiText (bytes : List UInt8) : String := String.ofList (bytes.map fun b => Char.ofNat b.toNat)

def valueOfDigits (radix : Nat) (digits : List UInt8) : IntegerValue String :=
  match smallValue? radix digits with
  | some value => .small value
  | none => .oversized (asciiText digits) radix

/-- The digits of a word from `skip` bytes on. -/
def readDigits (radix skip : Nat) (bytes : List UInt8) : Except ReadFault (IntegerValue String) :=
  match digitsFrom radix false skip [] bytes with
  | .ok digits => .ok (valueOfDigits radix digits)
  | .error read => .error ⟨read, .badIntLiteral, .pieceStart⟩

/-- Reads a word that begins with a digit. -/
def read : List UInt8 → Except ReadFault (IntegerValue String)
  | [0x30] => .ok (.small 0)
  | 0x30 :: mark :: digits =>
    if mark = 0x78 ∨ mark = 0x58 then readDigits 16 2 digits
    else if mark = 0x62 ∨ mark = 0x42 then readDigits 2 2 digits
    else .error ⟨0, .leadingZero, .pieceStart⟩
  | word => readDigits 10 0 word

end FrontEnd.Number
