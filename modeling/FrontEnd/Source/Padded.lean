/-!
Padded sources: the bytes of a file, followed by zeros that let a reader look a few bytes ahead
without regard to the end.
-/

namespace FrontEnd

structure PaddedSource where
  bytes : List UInt8
deriving DecidableEq, Inhabited

namespace PaddedSource

/-- The zeros that follow the bytes at least: the end mark and room to look ahead. -/
def endPadding : Nat := 4

/-- The length of a padded source is a multiple of this. -/
def blockSize : Nat := 64

def size (source : PaddedSource) : Nat := source.bytes.length

def isEmpty (source : PaddedSource) : Bool := source.bytes.isEmpty

def paddedSize (source : PaddedSource) : Nat :=
  (source.size + endPadding + blockSize - 1) / blockSize * blockSize

/-- The bytes of the file and the zeros after them. -/
def paddedBytes (source : PaddedSource) : List UInt8 :=
  source.bytes ++ List.replicate (source.paddedSize - source.size) 0

def debugText (source : PaddedSource) : String :=
  "SourceBuffer \x7b len: " ++ toString source.size ++ " \x7d"

end PaddedSource

end FrontEnd
