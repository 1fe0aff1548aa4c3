/-!
The kinds of tokens: the end of the file, identifiers, integer literals, and the symbols and
keywords with their fixed spellings.
-/

namespace FrontEnd

inductive Symbol where
  | leftParen
  | rightParen
  | leftBrace
  | rightBrace
  | leftBracket
  | rightBracket
  | period
  | comma
  | colon
  | semicolon
  | equal
  | equalEqual
  | bang
  | bangEqual
  | plus
  | plusEqual
  | minus
  | minusEqual
  | star
  | starEqual
  | slash
  | slashEqual
  | percent
  | percentEqual
  | less
  | lessEqual
  | lessLess
  | lessLessEqual
  | greater
  | greaterEqual
  | greaterGreater
  | greaterGreaterEqual
  | tilde
  | amp
  | ampEqual
  | ampAmp
  | ampAmpEqual
  | pipe
  | pipeEqual
  | pipePipe
  | pipePipeEqual
  | caret
  | caretEqual
  | caretCaret
  | caretCaretEqual
  | arrow
  | fatArrow
  | atSign
  | closedRange
  | halfOpenRange
deriving DecidableEq, Inhabited

namespace Symbol

/-- Every symbol, in the order of the kinds. -/
def all : List Symbol :=
  [leftParen, rightParen, leftBrace, rightBrace, leftBracket, rightBracket, period, comma,
   colon, semicolon, equal, equalEqual, bang, bangEqual, plus, plusEqual, minus, minusEqual,
   star, starEqual, slash, slashEqual, percent, percentEqual, less, lessEqual, lessLess,
   lessLessEqual, greater, greaterEqual, greaterGreater, greaterGreaterEqual, tilde, amp,
   ampEqual, ampAmp, ampAmpEqual, pipe, pipeEqual, pipePipe, pipePipeEqual, caret,
   caretEqual, caretCaret, caretCaretEqual, arrow, fatArrow, atSign, closedRange,
   halfOpenRange]

def name : Symbol → String
  | leftParen => "LeftParen"
  | rightParen => "RightParen"
  | leftBrace => "LeftBrace"
  | rightBrace => "RightBrace"
  | leftBracket => "LeftBracket"
  | rightBracket => "RightBracket"
  | period => "Period"
  | comma => "Comma"
  | colon => "Colon"
  | semicolon => "Semicolon"
  | equal => "Equal"
  | equalEqual => "EqualEqual"
  | bang => "Bang"
  | bangEqual => "BangEqual"
  | plus => "Plus"
  | plusEqual => "PlusEqual"
  | minus => "Minus"
  | minusEqual => "MinusEqual"
  | star => "Star"
  | starEqual => "StarEqual"
  | slash => "Slash"
  | slashEqual => "SlashEqual"
  | percent => "Percent"
  | percentEqual => "PercentEqual"
  | less => "Less"
  | lessEqual => "LessEqual"
  | lessLess => "LessLess"
  | lessLessEqual => "LessLessEqual"
  | greater => "Greater"
  | greaterEqual => "GreaterEqual"
  | greaterGreater => "GreaterGreater"
  | greaterGreaterEqual => "GreaterGreaterEqual"
  | tilde => "Tilde"
  | amp => "Amp"
  | ampEqual => "AmpEqual"
  | ampAmp => "AmpAmp"
  | ampAmpEqual => "AmpAmpEqual"
  | pipe => "Pipe"
  | pipeEqual => "PipeEqual"
  | pipePipe => "PipePipe"
  | pipePipeEqual => "PipePipeEqual"
  | caret => "Caret"
  | caretEqual => "CaretEqual"
  | caretCaret => "CaretCaret"
  | caretCaretEqual => "CaretCaretEqual"
  | arrow => "Arrow"
  | fatArrow => "FatArrow"
  | atSign => "At"
  | closedRange => "ClosedRange"
  | halfOpenRange => "HalfOpenRange"

def spelling : Symbol → String
  | leftParen => "("
  | rightParen => ")"
  | leftBrace => "\x7b"
  | rightBrace => "\x7d"
  | leftBracket => "["
  | rightBracket => "]"
  | period => "."
  | comma => ","
  | colon => ":"
  | semicolon => ";"
  | equal => "="
  | equalEqual => "=="
  | bang => "!"
  | bangEqual => "!="
  | plus => "+"
  | plusEqual => "+="
  | minus => "-"
  | minusEqual => "-="
  | star => "*"
  | starEqual => "*="
  | slash => "/"
  | slashEqual => "/="
  | percent => "%"
  | percentEqual => "%="
  | less => "<"
  | lessEqual => "<="
  | lessLess => "<<"
  | lessLessEqual => "<<="
  | greater => ">"
  | greaterEqual => ">="
  | greaterGreater => ">>"
  | greaterGreaterEqual => ">>="
  | tilde => "~"
  | amp => "&"
  | ampEqual => "&="
  | ampAmp => "&&"
  | ampAmpEqual => "&&="
  | pipe => "|"
  | pipeEqual => "|="
  | pipePipe => "||"
  | pipePipeEqual => "||="
  | caret => "^"
  | caretEqual => "^="
  | caretCaret => "^^"
  | caretCaretEqual => "^^="
  | arrow => "->"
  | fatArrow => "=>"
  | atSign => "@"
  | closedRange => "..."
  | halfOpenRange => "..<"

end Symbol

inductive Keyword where
  | class_
  | def_
  | else_
  | false_
  | for_
  | if_
  | import_
  | in_
  | interface_
  | let_
  | mut_
  | out_
  | return_
  | true_
  | var_
  | while_
deriving DecidableEq, Inhabited

namespace Keyword

/-- Every keyword, in the order of the kinds. -/
def all : List Keyword :=
  [class_, def_, else_, false_, for_, if_, import_, in_, interface_, let_, mut_, out_, return_,
   true_, var_, while_]

def name : Keyword → String
  | class_ => "Class"
  | def_ => "Def"
  | else_ => "Else"
  | false_ => "False"
  | for_ => "For"
  | if_ => "If"
  | import_ => "Import"
  | in_ => "In"
  | interface_ => "Interface"
  | let_ => "Let"
  | mut_ => "Mut"
  | out_ => "Out"
  | return_ => "Return"
  | true_ => "True"
  | var_ => "Var"
  | while_ => "While"

def spelling : Keyword → String
  | class_ => "class"
  | def_ => "def"
  | else_ => "else"
  | false_ => "false"
  | for_ => "for"
  | if_ => "if"
  | import_ => "import"
  | in_ => "in"
  | interface_ => "interface"
  | let_ => "let"
  | mut_ => "mut"
  | out_ => "out"
  | return_ => "return"
  | true_ => "true"
  | var_ => "var"
  | while_ => "while"

/-- The keyword that a word is, if it is one. -/
def ofSpelling? (word : String) : Option Keyword := all.find? fun k => k.spelling == word

end Keyword

inductive TokenKind where
  | endOfFile
  | identifier
  | intLiteral
  | symbol (symbol : Symbol)
  | keyword (keyword : Keyword)
deriving DecidableEq, Inhabited

namespace TokenKind

def all : List TokenKind :=
  [endOfFile, identifier, intLiteral] ++ Symbol.all.map symbol ++ Keyword.all.map keyword

def name : TokenKind → String
  | endOfFile => "EndOfFile"
  | identifier => "Identifier"
  | intLiteral => "IntLiteral"
  | symbol s => s.name
  | keyword k => k.name

def ofName? (name : String) : Option TokenKind := all.find? fun kind => kind.name == name

/-- The text of a kind whose tokens all have one text. -/
def spelling? : TokenKind → Option String
  | symbol s => some s.spelling
  | keyword k => some k.spelling
  | _ => none

def isSymbol : TokenKind → Bool
  | symbol _ => true
  | _ => false

def isKeyword : TokenKind → Bool
  | keyword _ => true
  | _ => false

/-- What a message calls a token of this kind. -/
def description : TokenKind → String
  | endOfFile => "end of file"
  | identifier => "identifier"
  | intLiteral => "integer literal"
  | symbol s => "symbol `" ++ s.spelling ++ "`"
  | keyword k => "keyword `" ++ k.spelling ++ "`"

end TokenKind

end FrontEnd
