import FrontEnd.Source.Reader
import FrontEnd.Lexical.Tokens

/-! # A scanner over a padded source

The tokens of a source, read by a reader that moves over the padded bytes. Whatever such a reader
takes for granted is checked here, and a check that fails is a slip, not an error of the source:
bytes are only looked at inside of the padded source and are zero behind the content, no move goes
behind the end of the content or of a line, and no loop goes on without a move. -/

namespace FrontEnd

variable {hash : String → UInt32}

/-- What a scanner takes for granted, where it does not hold. -/
inductive Slip where
  /-- There is too little room behind the content. -/
  | unpadded
  /-- A byte outside of the padded source is looked at. -/
  | outside
  /-- A byte behind the content is not zero. -/
  | unmarkedEnd
  /-- A part of the source ends before it starts, or outside of the padded source. -/
  | badRange
  | pastEnd
  | pastLineEnd
  | stoodStill
deriving DecidableEq

/-- Why scanning ends early. -/
inductive Halt where
  | error (e : LexicalError)
  | slip (slip : Slip)
deriving DecidableEq

/-- A reader, and the layout of what it has moved over. -/
structure Scanner where
  reader : ByteReader
  layout : Layout
deriving DecidableEq

/-- What one round of a loop comes to. -/
inductive Progress (α β : Type) where
  | next (s : Scanner) (state : α)
  | stop (s : Scanner) (result : β)

namespace Scanner

/-! ## Looks and moves -/

def ofSource (source : PaddedSource) : Except Halt Scanner :=
  let reader := ByteReader.ofSource source
  if reader.padded.size < reader.size + PaddedSource.endPadding then .error (.slip .unpadded)
  else .ok ⟨reader, .start⟩

/-- How many bytes are left to move over. -/
def left (s : Scanner) : Nat := s.reader.size - s.reader.pos

/-- The byte some places ahead. -/
def look (s : Scanner) (distance : Nat) : Except Halt UInt8 :=
  if s.reader.padded.size ≤ s.reader.pos + distance then .error (.slip .outside)
  else if s.reader.size ≤ s.reader.pos + distance ∧ s.reader.ahead distance ≠ 0 then
    .error (.slip .unmarkedEnd)
  else .ok (s.reader.ahead distance)

/-- The content from the reader on. -/
def rest (s : Scanner) : Except Halt (List UInt8) :=
  if s.reader.pos ≤ s.reader.size ∧ s.reader.size ≤ s.reader.padded.size then .ok s.reader.rest
  else .error (.slip .badRange)

/-- The bytes between an earlier place and the reader. -/
def since (s : Scanner) (start : Nat) : Except Halt (List UInt8) :=
  if start ≤ s.reader.pos ∧ s.reader.pos ≤ s.reader.padded.size then .ok (s.reader.since start)
  else .error (.slip .badRange)

def advance (s : Scanner) (count : Nat) : Except Halt Scanner :=
  if s.reader.size < s.reader.pos + count then .error (.slip .pastEnd)
  else .ok { s with reader := s.reader.advance count }

/-- Changes the layout. -/
def lay (s : Scanner) (move : Layout → Except LexicalError Layout) : Except Halt Scanner :=
  match move s.layout with
  | .error e => .error (.error e)
  | .ok l => .ok { s with layout := l }

def fail {α : Type} (s : Scanner) (kind : LexicalFault) : Except Halt α :=
  .error (.error ⟨kind, s.layout.pos⟩)

/-- Repeats a round until it stops. A round that goes on has moved. -/
def loop {α β : Type} (round : Scanner → α → Except Halt (Progress α β)) (s : Scanner)
    (state : α) : Except Halt (Scanner × β) :=
  match round s state with
  | .error halt => .error halt
  | .ok (.stop t result) => .ok (t, result)
  | .ok (.next t state) =>
    if t.left < s.left then loop round t state else .error (.slip .stoodStill)
termination_by s.left

/-! ## Characters -/

variable (config : LayoutConfig)

/-- Moves over one byte that is a character. -/
def bump (s : Scanner) : Except Halt Scanner := do
  (← s.advance 1).lay (·.visible config 1)

def bumps (s : Scanner) : Nat → Except Halt Scanner
  | 0 => return s
  | n + 1 => do bumps (← s.bump config) n

def tab (s : Scanner) : Except Halt Scanner := do
  (← s.advance 1).lay (·.tab config)

def skipLineFeed (s : Scanner) : Except Halt Scanner := do
  if (← s.look 0) = 0x0A then (← s.advance 1).lay (·.countInFile config) else return s

/-- Moves over a line end of one or two characters. -/
def lineBreak (s : Scanner) : Except Halt Scanner := do
  let first ← s.look 0
  let s ← (← s.advance 1).lay (·.countInFile config)
  let s ← if first = 0x0D then s.skipLineFeed config else pure s
  s.lay (·.nextLine config)

def skipMark (s : Scanner) : Except Halt Scanner := do
  if Reading.byteOrderMark.isPrefixOf (← s.rest) then
    (← s.advance Reading.byteOrderMark.length).lay (·.countInFile config)
  else return s

/-- The character at the reader. -/
def decode (s : Scanner) : Except Halt (Nat × Nat) := do
  match Utf8.decode (← s.rest) with
  | some decoded => return decoded
  | none => s.fail .badEncoding

/-! ## Comments -/

/-- Moves over a character of a comment. -/
def commentCharacter (s : Scanner) : Except Halt Scanner := do
  let byte ← s.look 0
  if byte = 0x09 then s.tab config
  else if byte = 0x0A ∨ byte = 0x0D then s.lineBreak config
  else if byte = 0 then s.fail (.unexpectedCharacter 0)
  else if byte < 0x80 then s.bump config
  else
    let (_, width) ← s.decode
    (← s.advance width).lay (·.visible config 1)

def lineCommentRound (stop : Nat) (s : Scanner) (_ : Unit) : Except Halt (Progress Unit Unit) :=
  if s.reader.pos < stop then do
    let t ← s.commentCharacter config
    if stop < t.reader.pos then .error (.slip .pastLineEnd) else return .next t ()
  else return .stop s ()

/-- A line comment after its mark, up to the end of the line. -/
def lineRest (s : Scanner) : Except Halt Scanner := do
  let rest ← s.rest
  let stop := s.reader.pos + (rest.takeWhile fun byte => byte != 0x0A && byte != 0x0D).length
  (loop (lineCommentRound config stop) s ()).map (·.1)

def lineComment (s : Scanner) : Except Halt Scanner := do
  (← s.bumps config 2).lineRest config

/-- The state is the depth that comments are nested to. -/
def blockCommentRound (s : Scanner) (depth : UInt32) : Except Halt (Progress UInt32 Unit) := do
  let first ← s.look 0
  let second ← s.look 1
  if first = 0 ∧ s.reader.isAtEnd then s.fail .unclosedBlockComment
  else if first = 0x2F ∧ second = 0x2A then return .next (← s.bumps config 2) (depth + 1)
  else if first = 0x2A ∧ second = 0x2F then
    let t ← s.bumps config 2
    if depth - 1 = 0 then return .stop t () else return .next t (depth - 1)
  else return .next (← s.commentCharacter config) depth

def blockComment (s : Scanner) : Except Halt Scanner := do
  (loop (blockCommentRound config) (← s.bumps config 2) 1).map (·.1)

/-! ## Words -/

def wordRound (s : Scanner) (_ : Unit) : Except Halt (Progress Unit Unit) := do
  if isWordByte (← s.look 0) then return .next (← s.bump config) () else return .stop s ()

def word (s : Scanner) : Except Halt (Scanner × Lexeme) := do
  let (t, _) ← loop (wordRound config) s ()
  let bytes ← t.since s.reader.pos
  if bytes.all (· < 0x80) then return (t, .ofWord (Number.asciiText bytes))
  else s.fail .badEncoding

/-- What is read of the digits of a number; the digits come last first. -/
structure DigitState where
  afterSeparator : Bool := false
  digits : List UInt8 := []

def digitRound (radix : Nat) (start : Position) (s : Scanner) (state : DigitState) :
    Except Halt (Progress DigitState DigitState) := do
  let byte ← s.look 0
  if byte = 0x5F then
    if state.afterSeparator then .error (.error ⟨.badIntLiteral, start⟩)
    else return .next (← s.bump config) { state with afterSeparator := true }
  else if (Number.digit? radix byte).isSome then
    return .next (← s.bump config) ⟨false, byte :: state.digits⟩
  else if isWordByte byte then .error (.error ⟨.badIntLiteral, start⟩)
  else return .stop s state

/-- The value of a number from some of its digits on. -/
def digits (radix : Nat) (start : Position) (s : Scanner) (state : DigitState) :
    Except Halt (Scanner × Lexeme) := do
  let (t, state) ← loop (digitRound config radix start) s state
  if state.afterSeparator then .error (.error ⟨.badIntLiteral, start⟩)
  else return (t, .ofInt (Number.valueOfDigits radix state.digits.reverse))

/-- A number that starts with a mark of its radix. -/
def markedDigits (radix : Nat) (s : Scanner) : Except Halt (Scanner × Lexeme) := do
  let t ← s.bumps config 2
  if (Number.digit? radix (← t.look 0)).isSome then t.digits config radix s.layout.pos {}
  else s.fail .badIntLiteral

def number (s : Scanner) : Except Halt (Scanner × Lexeme) := do
  if (← s.look 0) = 0x30 then
    let mark ← s.look 1
    if mark = 0x78 ∨ mark = 0x58 then s.markedDigits config 16
    else if mark = 0x62 ∨ mark = 0x42 then s.markedDigits config 2
    else if isWordByte mark then s.fail .leadingZero
    else return (← s.bump config, .ofInt (.small 0))
  else s.digits config 10 s.layout.pos {}

/-! ## Symbols -/

/-- The symbols that start with one byte. -/
inductive SymbolForms where
  | single (plain : Symbol)
  /-- An equals sign may follow. -/
  | withEqual (plain extended : Symbol)
  /-- An equals sign or an angle bracket may follow. -/
  | withArrow (plain extended pointed : Symbol)
  /-- The byte may be there twice, and an equals sign may follow. -/
  | doubled (plain extended twice twiceExtended : Symbol)
  /-- Two full stops may follow, or a full stop and an angle bracket. -/
  | ranges (plain closed halfOpen : Symbol)

def symbolForms : List (UInt8 × SymbolForms) :=
  [(0x2F, .withEqual .slash .slashEqual),
   (0x2E, .ranges .period .closedRange .halfOpenRange),
   (0x3D, .withArrow .equal .equalEqual .fatArrow),
   (0x2D, .withArrow .minus .minusEqual .arrow),
   (0x28, .single .leftParen), (0x29, .single .rightParen),
   (0x7B, .single .leftBrace), (0x7D, .single .rightBrace),
   (0x5B, .single .leftBracket), (0x5D, .single .rightBracket),
   (0x2C, .single .comma), (0x3A, .single .colon), (0x3B, .single .semicolon),
   (0x7E, .single .tilde), (0x40, .single .atSign),
   (0x21, .withEqual .bang .bangEqual), (0x2B, .withEqual .plus .plusEqual),
   (0x2A, .withEqual .star .starEqual), (0x25, .withEqual .percent .percentEqual),
   (0x3C, .doubled .less .lessEqual .lessLess .lessLessEqual),
   (0x3E, .doubled .greater .greaterEqual .greaterGreater .greaterGreaterEqual),
   (0x26, .doubled .amp .ampEqual .ampAmp .ampAmpEqual),
   (0x7C, .doubled .pipe .pipeEqual .pipePipe .pipePipeEqual),
   (0x5E, .doubled .caret .caretEqual .caretCaret .caretCaretEqual)]

/-- A symbol of some bytes. -/
def take (s : Scanner) (length : Nat) (symbol : Symbol) : Except Halt (Scanner × Lexeme) := do
  return (← s.bumps config length, .ofSymbol symbol)

/-- The end of a symbol, where an equals sign makes it another one. -/
def orEqual (s : Scanner) (plain extended : Symbol) : Except Halt (Scanner × Lexeme) := do
  if (← s.look 0) = 0x3D then s.take config 1 extended else s.take config 0 plain

/-- The end of a symbol, where the byte before it may be there twice. -/
def orTwice (byte : UInt8) (s : Scanner) (plain extended twice twiceExtended : Symbol) :
    Except Halt (Scanner × Lexeme) := do
  if (← s.look 0) = byte then (← s.bump config).orEqual config twice twiceExtended
  else s.orEqual config plain extended

def symbol (s : Scanner) : SymbolForms → Except Halt (Scanner × Lexeme)
  | .single plain => s.take config 1 plain
  | .withEqual plain extended => do (← s.bump config).orEqual config plain extended
  | .withArrow plain extended pointed => do
    let next ← s.look 1
    if next = 0x3D then s.take config 2 extended
    else if next = 0x3E then s.take config 2 pointed
    else s.take config 1 plain
  | .doubled plain extended twice twiceExtended => do
    let byte ← s.look 0
    (← s.bump config).orTwice config byte plain extended twice twiceExtended
  | .ranges plain closed halfOpen => do
    let second ← s.look 1
    let third ← s.look 2
    if second = 0x2E ∧ third = 0x2E then s.take config 3 closed
    else if second = 0x2E ∧ third = 0x3C then s.take config 3 halfOpen
    else s.take config 1 plain

/-! ## Pieces -/

/-- What starts with a byte that is neither a blank nor of a word. -/
def mark (byte : UInt8) (s : Scanner) : Except Halt (Scanner × Lexeme) :=
  match symbolForms.lookup byte with
  | some forms => s.symbol config forms
  | none =>
    if byte < 0x80 then s.fail (.unexpectedCharacter byte.toNat)
    else do
      let (codePoint, _) ← s.decode
      s.fail (.unexpectedCharacter codePoint)

/-- A blank, a line end or a comment. -/
def blank (scanned : Except Halt Scanner) : Except Halt (Scanner × Option Lexeme) :=
  scanned.map fun s => (s, none)

def lexeme (scanned : Except Halt (Scanner × Lexeme)) : Except Halt (Scanner × Option Lexeme) :=
  scanned.map fun (s, lexeme) => (s, some lexeme)

/-- The piece that starts with a byte. -/
def piece (byte : UInt8) (s : Scanner) : Except Halt (Scanner × Option Lexeme) :=
  if byte = 0x20 then blank (s.bump config)
  else if byte = 0x09 then blank (s.tab config)
  else if byte = 0x0A ∨ byte = 0x0D then blank (s.lineBreak config)
  else if isWordStart byte then lexeme (s.word config)
  else if Number.isDigit byte then lexeme (s.number config)
  else if byte = 0x2F then do
    let next ← s.look 1
    if next = 0x2F then blank (s.lineComment config)
    else if next = 0x2A then blank (s.blockComment config)
    else lexeme (s.mark config byte)
  else lexeme (s.mark config byte)

/-- The piece at the reader, unless it is at the end. -/
def piece? (s : Scanner) : Except Halt (Option (Scanner × Option Lexeme)) := do
  let byte ← s.look 0
  if byte = 0 ∧ s.reader.isAtEnd then return none else return some (← s.piece config byte)

/-! ## Tokens -/

/-- Puts the token of a piece in front of those of `done`, which come last first. -/
def push (names : Interner hash) (done : List Token) (pos : Position) :
    Option Lexeme → List Token × Interner hash
  | none => (done, names)
  | some lexeme =>
    let (token, names) := PlacedLexeme.intern names ⟨pos, lexeme⟩
    (token :: done, names)

/-- The tokens from the reader on, after those of `done`, which come last first. -/
def tokensOnto (s : Scanner) (done : List Token) (names : Interner hash) :
    Except Slip (Except LexicalError (List Token) × Interner hash) :=
  match s.piece? config with
  | .error (.slip slip) => .error slip
  | .error (.error e) => .ok (.error e, names)
  | .ok none => .ok (.ok (done.reverse ++ [.endOfFile s.layout.pos]), names)
  | .ok (some (t, lexeme?)) =>
    if t.left < s.left then
      let (done, names) := push names done s.layout.pos lexeme?
      t.tokensOnto done names
    else .error .stoodStill
termination_by s.left

/-- The tokens of a source, or the slip of its scanner. -/
def tokens (source : PaddedSource) (names : Interner hash) :
    Except Slip (Except LexicalError (List Token) × Interner hash) :=
  match ofSource source >>= skipMark config with
  | .error (.slip slip) => .error slip
  | .error (.error e) => .ok (.error e, names)
  | .ok s => s.tokensOnto config [] names

end Scanner

end FrontEnd
