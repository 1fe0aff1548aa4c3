import FrontEnd.Text.Utf8
import FrontEnd.Lexical.Error

/-!
The layout of a source: the position of each character, and the limits on lines and characters.
A layout moves over bytes one character at a time, and stops at the first character beyond a
limit. All counters stay at the largest 32-bit number once they have reached it.
-/

namespace FrontEnd

structure LayoutLimits where
  maxLines : Nat := 1000000
  /-- Characters of a line, without its end. -/
  maxLineChars : Nat := 4096
  /-- Characters of a file, with line ends and a byte-order mark. -/
  maxFileChars : Nat := 0x1000000
deriving DecidableEq, Inhabited

structure LayoutConfig where
  /-- The distance of tab stops; zero counts as one. -/
  tabStop : Nat := 8
  limits : LayoutLimits := {}
deriving DecidableEq, Inhabited

/-- The largest count. -/
def countMax : Nat := 0xFFFFFFFF

/-- Addition of counts. -/
def addCount (a b : Nat) : Nat := min (a + b) countMax

/-- The place of the next character, and how many characters were met before it. -/
structure Layout where
  pos : Position
  lineChars : Nat
  fileChars : Nat
deriving DecidableEq, Inhabited

namespace Layout

def start : Layout := ⟨.start, 0, 0⟩

/-- Counts a character of the file. -/
def countInFile (config : LayoutConfig) (l : Layout) : Except LexicalError Layout :=
  let count := addCount l.fileChars 1
  if config.limits.maxFileChars < count then .error ⟨.tooManyCharactersInFile, l.pos⟩
  else .ok { l with fileChars := count }

/-- Counts a character of the line, and then of the file. -/
def countInLine (config : LayoutConfig) (l : Layout) : Except LexicalError Layout :=
  let count := addCount l.lineChars 1
  if config.limits.maxLineChars < count then .error ⟨.tooManyCharactersInLine, l.pos⟩
  else countInFile config { l with lineChars := count }

/-- Moves to the right over one character. -/
def visible (config : LayoutConfig) (columns : Nat) (l : Layout) : Except LexicalError Layout :=
  match l.countInLine config with
  | .error e => .error e
  | .ok l => .ok { l with pos := { l.pos with column := addCount l.pos.column columns } }

/-- The columns that a tab takes at a column. -/
def tabColumns (config : LayoutConfig) (column : Nat) : Nat :=
  let stop := max config.tabStop 1
  stop - column % stop

def tab (config : LayoutConfig) (l : Layout) : Except LexicalError Layout :=
  l.visible config (tabColumns config l.pos.column)

/-- Moves to the next line, once the characters of the line end are counted. -/
def nextLine (config : LayoutConfig) (l : Layout) : Except LexicalError Layout :=
  let line := addCount l.pos.line 1
  if config.limits.maxLines < line then .error ⟨.tooManyLines, l.pos⟩
  else .ok ⟨⟨line, 1⟩, 0, l.fileChars⟩

/-- A line end of one character. -/
def lineBreak (config : LayoutConfig) (l : Layout) : Except LexicalError Layout :=
  match l.countInFile config with
  | .error e => .error e
  | .ok l => l.nextLine config

/-- A line end of two characters. -/
def wideLineBreak (config : LayoutConfig) (l : Layout) : Except LexicalError Layout :=
  match l.countInFile config with
  | .error e => .error e
  | .ok l => l.lineBreak config

/-- Moves over the characters of a well-formed text. A carriage return and a line feed after it
are one line end, and the bytes that continue a character move nothing. -/
def across (config : LayoutConfig) (l : Layout) : List UInt8 → Except LexicalError Layout
  | [] => .ok l
  | 0x0D :: 0x0A :: rest =>
    match l.wideLineBreak config with
    | .error e => .error e
    | .ok l => l.across config rest
  | byte :: rest =>
    let moved :=
      if byte = 0x0A ∨ byte = 0x0D then l.lineBreak config
      else if byte = 0x09 then l.tab config
      else if Utf8.isContinuation byte then .ok l
      else l.visible config 1
    match moved with
    | .error e => .error e
    | .ok l => l.across config rest

end Layout

end FrontEnd
