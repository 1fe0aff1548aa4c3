import FrontEnd.Source.Padded

/-!
A reader that moves forward over a padded source. A zero byte before the end of the content is
part of the source; `isAtEnd` tells it from the padding.
-/

namespace FrontEnd

structure ByteReader where
  padded : Array UInt8
  size : Nat
  pos : Nat
deriving DecidableEq

namespace ByteReader

/-- A reader at the first byte of a source. -/
def ofSource (source : PaddedSource) : ByteReader := ⟨source.paddedBytes.toArray, source.size, 0⟩

/-- The byte some places ahead of the reader. -/
def ahead (r : ByteReader) (distance : Nat) : UInt8 := r.padded.getD (r.pos + distance) 0

def current (r : ByteReader) : UInt8 := r.ahead 0

def advance (r : ByteReader) (count : Nat) : ByteReader := { r with pos := r.pos + count }

def isAtEnd (r : ByteReader) : Bool := r.size ≤ r.pos

/-- The content from the reader on. -/
def rest (r : ByteReader) : List UInt8 := (r.padded.extract r.pos r.size).toList

/-- The bytes between an earlier place and the reader. -/
def since (r : ByteReader) (start : Nat) : List UInt8 := (r.padded.extract start r.pos).toList

/-- The number of bytes before the next line break or the end of the content. -/
def bytesToLineEnd (r : ByteReader) : Nat :=
  (r.rest.takeWhile fun byte => byte != 0x0A && byte != 0x0D).length

end ByteReader

end FrontEnd
