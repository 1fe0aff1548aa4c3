/-!
Names are handles to interned text. Two names of one interner are equal exactly when their texts
are, so later phases compare names and never the text.
-/

namespace FrontEnd

structure Name where
  index : Nat
deriving DecidableEq, Inhabited

namespace Name

/-- Names are numbered from one in the order in which their texts were first met. -/
def number (name : Name) : Nat := name.index + 1

def debugText (name : Name) : String := "Name(" ++ toString name.number ++ ")"

end Name

/-- The hash functions of the maps in which texts and names are looked up. -/
structure Hasher where
  text : String → UInt32
  name : Name → UInt32

end FrontEnd
