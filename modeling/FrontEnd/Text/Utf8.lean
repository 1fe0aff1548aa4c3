/-!
Strict decoding of one UTF-8 character. Stray continuation bytes, truncated and overlong
sequences, surrogates and values beyond U+10FFFF are refused.
-/

namespace FrontEnd.Utf8

/-- The number of bytes of a character, by its first byte; zero if no character starts with it. -/
def width (lead : UInt8) : Nat :=
  if lead < 0x80 then 1
  else if lead < 0xC0 then 0
  else if lead < 0xE0 then 2
  else if lead < 0xF0 then 3
  else if lead < 0xF8 then 4
  else 0

def isContinuation (byte : UInt8) : Bool := 0x80 ≤ byte && byte < 0xC0

/-- The smallest code point that needs so many bytes. -/
def leastOfWidth : Nat → Nat
  | 2 => 0x80
  | 3 => 0x800
  | 4 => 0x10000
  | _ => 0

/-- The code point spelled by a lead byte of a sequence of `width` bytes and what follows it: each
following byte adds six bits. -/
def codePoint (width : Nat) (lead : UInt8) (following : List UInt8) : Nat :=
  let first := lead.toNat % Nat.pow 2 (7 - width)
  following.foldl (fun code byte => code * 64 + byte.toNat % 64) first

/-- The character at the start of `bytes`: its code point and the number of bytes it takes. -/
def decode : List UInt8 → Option (Nat × Nat)
  | [] => none
  | lead :: rest =>
    if lead < 0x80 then some (lead.toNat, 1)
    else
      let n := width lead
      let following := rest.take (n - 1)
      let code := codePoint n lead following
      if 0 < n ∧ following.length + 1 = n ∧ following.all isContinuation ∧
          leastOfWidth n ≤ code ∧ code.isValidChar then some (code, n)
      else none

end FrontEnd.Utf8
