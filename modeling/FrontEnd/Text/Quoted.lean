import FrontEnd.Text.Extenders
import FrontEnd.Text.Unprinted

/-!
Quoted text: double quotes around, quotes and backslashes escaped, and an escape for every
character that cannot be seen on its own, so that quoted text stays on one line and shows all of
its characters.
-/

namespace FrontEnd.Text

/-- A character with a printed form that does not merge with the one before it. -/
def standsAlone (c : Char) : Bool :=
  if c.toNat < 0x80 then 0x20 ≤ c.toNat && c.toNat < 0x7F
  else !unprinted.contains c && !extenders.contains c

/-- A character as it stands between quotes. A single quote needs no escape there. -/
def escape (c : Char) : List Char :=
  if c = '"' then ['\\', '"']
  else if c = '\\' then ['\\', '\\']
  else if c = '\t' then ['\\', 't']
  else if c = '\n' then ['\\', 'n']
  else if c = '\r' then ['\\', 'r']
  else if c.toNat = 0 then ['\\', '0']
  else if standsAlone c then [c]
  else ['\\', 'u', '\x7b'] ++ Nat.toDigits 16 c.toNat ++ ['\x7d']

def quote (text : String) : String :=
  String.ofList ('"' :: (text.toList.flatMap escape ++ ['"']))

end FrontEnd.Text
