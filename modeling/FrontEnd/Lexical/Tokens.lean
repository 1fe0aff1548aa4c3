import FrontEnd.Lexical.Piece
import FrontEnd.Lexical.Layout

/-!
The tokens of a source: its pieces laid out one after the other, with the lexemes among them
placed and then interned. The first error, be it of a piece or of a limit, ends the tokens.
-/

namespace FrontEnd

/-- The lexemes up to the end of a source or to an error, and the position of the end. -/
structure Reading where
  lexemes : List PlacedLexeme
  outcome : Except LexicalError Position

namespace Reading

/-- What follows the last piece: the end of the source, or a fault, unless a limit is met in the
bytes read before it. -/
def finish (config : LayoutConfig) (l : Layout) (remaining : List UInt8) :
    Option ReadFault → Except LexicalError Position
  | none => .ok l.pos
  | some fault =>
    match l.across config (remaining.take fault.read) with
    | .error e => .error e
    | .ok stop =>
      match fault.anchor with
      | .pieceStart => .error ⟨fault.kind, l.pos⟩
      | .readEnd => .error ⟨fault.kind, stop.pos⟩

/-- Lays out pieces up to the first character beyond a limit, after the lexemes of `done`, which
come last first. -/
def layOut (config : LayoutConfig) (l : Layout) (done : List PlacedLexeme) :
    List Piece → List PlacedLexeme × Except LexicalError Layout
  | [] => (done.reverse, .ok l)
  | piece :: rest =>
    match l.across config piece.text with
    | .error e => (done.reverse, .error e)
    | .ok after =>
      match piece.lexeme? with
      | none => layOut config after done rest
      | some lexeme => layOut config after (⟨l.pos, lexeme⟩ :: done) rest

/-- The byte-order mark. -/
def byteOrderMark : List UInt8 := [0xEF, 0xBB, 0xBF]

/-- A byte-order mark at the start counts as a character of the file and takes no column. -/
def ofSource (config : LayoutConfig) (source : List UInt8) : Reading :=
  let marked := byteOrderMark.isPrefixOf source
  let body := if marked then source.drop byteOrderMark.length else source
  match if marked then Layout.start.countInFile config else .ok .start with
  | .error e => ⟨[], .error e⟩
  | .ok l =>
    let cut := Pieces.ofSource body
    let (lexemes, reached) := layOut config l [] cut.pieces
    ⟨lexemes, reached.bind fun l => finish config l cut.remaining cut.fault?⟩

end Reading

/-- The tokens of a source, ended by one that marks the end of the file. The texts of the tokens
before an error are interned as well. -/
def tokenize {hash : String → UInt32} (config : LayoutConfig) (source : List UInt8)
    (names : Interner hash) :
    Except LexicalError (List Token) × Interner hash :=
  let reading := Reading.ofSource config source
  let (tokens, names) := PlacedLexeme.internAll names reading.lexemes
  match reading.outcome with
  | .error e => (.error e, names)
  | .ok stop => (.ok (tokens ++ [.endOfFile stop]), names)

end FrontEnd
