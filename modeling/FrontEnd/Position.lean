/-!
Positions in a source file, as a line and a column counted from one. Line zero stands for no
position.
-/

namespace FrontEnd

structure Position where
  line : Nat
  column : Nat
deriving DecidableEq, Inhabited

namespace Position

/-- No position, for what is tied to no place in a file. -/
def nowhere : Position := ⟨0, 0⟩

/-- The first character of a file. -/
def start : Position := ⟨1, 1⟩

def isNowhere (pos : Position) : Bool := pos.line == 0

/-- Positions are ordered by line and, within a line, by column. -/
def compare (a b : Position) : Ordering :=
  (Ord.compare a.line b.line).then (Ord.compare a.column b.column)

instance : Ord Position := ⟨compare⟩

def text (pos : Position) : String := toString pos.line ++ ":" ++ toString pos.column

def debugText (pos : Position) : String :=
  "SourcePos \x7b line: " ++ toString pos.line ++ ", column: " ++ toString pos.column ++ " \x7d"

end Position

end FrontEnd
