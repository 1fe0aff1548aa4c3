/-!
Values of integer literals. A value that fits is kept as a number, and a larger one is kept as its
digits and never evaluated.
-/

namespace FrontEnd

/-- The value of an integer literal, over what stands for text: the text itself while a source is
read, and a name once it is interned. -/
inductive IntegerValue (ν : Type) where
  | small (value : Nat)
  | oversized (digits : ν) (radix : Nat)
deriving DecidableEq, Inhabited

namespace IntegerValue

/-- The largest value that is kept as a number: it has 62 bits. -/
def smallMax : Nat := 0x3FFFFFFFFFFFFFFF

def small? {ν : Type} : IntegerValue ν → Option Nat
  | small value => some value
  | oversized _ _ => none

/-- An oversized value is opaque: its digits are not shown. -/
def text {ν : Type} : IntegerValue ν → String
  | small value => toString value
  | oversized _ _ => "<bigint>"

end IntegerValue

end FrontEnd
