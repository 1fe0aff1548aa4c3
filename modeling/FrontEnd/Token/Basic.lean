import FrontEnd.Token.Kind
import FrontEnd.Interner

/-!
Tokens with their values. A lexeme is what a source spells, with its value as text; a token is
where a lexeme stands, with its value interned.
-/

namespace FrontEnd

variable {hash : String → UInt32}

/-- The value of a token, over what stands for text. -/
inductive Payload (ν : Type) where
  | none
  | int (value : IntegerValue ν)
  | ident (name : ν)
deriving DecidableEq, Inhabited

structure Lexeme where
  kind : TokenKind
  value : Payload String
deriving DecidableEq, Inhabited

namespace Lexeme

def ofSymbol (s : Symbol) : Lexeme := ⟨.symbol s, .none⟩

/-- A word is a keyword if it is spelled like one, and otherwise an identifier. -/
def ofWord (word : String) : Lexeme :=
  match Keyword.ofSpelling? word with
  | some k => ⟨.keyword k, .none⟩
  | none => ⟨.identifier, .ident word⟩

def ofInt (value : IntegerValue String) : Lexeme := ⟨.intLiteral, .int value⟩

end Lexeme

/-- A token may be built by hand, with a value that does not fit its kind. -/
structure Token where
  kind : TokenKind
  pos : Position
  value : Payload Name
deriving DecidableEq, Inhabited

namespace Token

def endOfFile (pos : Position) : Token := ⟨.endOfFile, pos, .none⟩

end Token

namespace Payload

/-- Only identifiers and the digits of oversized literals are interned. -/
def intern (names : Interner hash) : Payload String → Payload Name × Interner hash
  | none => (none, names)
  | int (.small value) => (int (.small value), names)
  | int (.oversized digits radix) =>
    let (name, names) := names.intern digits
    (int (.oversized name radix), names)
  | ident text =>
    let (name, names) := names.intern text
    (ident name, names)

end Payload

/-- A lexeme and the position of its first character. -/
structure PlacedLexeme where
  pos : Position
  lexeme : Lexeme
deriving DecidableEq, Inhabited

namespace PlacedLexeme

def intern (names : Interner hash) (placed : PlacedLexeme) : Token × Interner hash :=
  let (value, names) := placed.lexeme.value.intern names
  (⟨placed.lexeme.kind, placed.pos, value⟩, names)

/-- Interns the values of lexemes in their order, and puts their tokens after those of `done`,
which come last first. -/
def internOnto (names : Interner hash) (done : List Token) :
    List PlacedLexeme → List Token × Interner hash
  | [] => (done.reverse, names)
  | placed :: rest =>
    let (token, names) := placed.intern names
    internOnto names (token :: done) rest

/-- The tokens of lexemes, with their values interned in order. -/
def internAll (names : Interner hash) (lexemes : List PlacedLexeme) : List Token × Interner hash :=
  internOnto names [] lexemes

end PlacedLexeme

end FrontEnd
