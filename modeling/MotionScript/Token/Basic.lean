import MotionScript.Source.Span
import MotionScript.Text.CharClass
import MotionScript.Token.Numeral
/-!
# Tokens
-/

namespace MotionScript

inductive TokenKind where
  /-- Identifier characters, escapes decoded. -/
  | identifier
  /-- A string in single quotes, escapes decoded. -/
  | single
  /-- A string in double quotes, escapes decoded. -/
  | double
  /-- A numeral, as written. -/
  | number
  /-- Symbol characters, as written. -/
  | symbol
deriving DecidableEq, Repr

namespace TokenKind

def isString : TokenKind → Bool
  | single | double => true
  | _ => false

/-- Tokens that can name something. -/
def isName (k : TokenKind) : Bool := k == identifier || k.isString

/-- The word for a token of this kind in messages. -/
def noun : TokenKind → String
  | identifier => "identifier"
  | single | double => "string"
  | number => "number"
  | symbol => "symbol"

end TokenKind

/-- The characters that are read as symbols. -/
inductive SymbolSet where
  /-- ASCII punctuation except quotes, backslash and underscore. -/
  | punctuation
  /-- Exactly the listed characters. -/
  | only (chars : List Char)
deriving DecidableEq, Repr

namespace SymbolSet

/-- The symbols of the document language. -/
def document : SymbolSet :=
  .only ['<', '=', '>', '+', '-', '*', ',', '.', '&', '|', '!', '(', ')', '[', ']', ':', ';', '{',
    '}', '/']

def isAsciiPunctuation (c : Char) : Bool :=
  let n := c.toNat
  (0x21 ≤ n && n ≤ 0x2F) || (0x3A ≤ n && n ≤ 0x40) || (0x5B ≤ n && n ≤ 0x60) ||
    (0x7B ≤ n && n ≤ 0x7E)

def contains (s : SymbolSet) (c : Char) : Bool :=
  match s with
  | punctuation => isAsciiPunctuation c && !(c == '"' || c == '\x27' || c == '\\' || c == '_')
  | only chars => chars.contains c

end SymbolSet

structure Token where
  kind : TokenKind
  text : String
  span : Span
  position : Position
deriving DecidableEq, Repr

namespace Token

def isSymbol (t : Token) (c : Char) : Bool := t.kind == .symbol && t.text == c.toString

/-- An identifier with the letters of `word`, ignoring case. -/
def isKeyword (t : Token) (word : String) : Bool :=
  t.kind == .identifier && Text.equalsIgnoringCase t.text word

def numeral? (t : Token) : Option Numeral :=
  if t.kind == .number then Numeral.read t.text.toList else none

/-- The nearest 64-bit number. -/
def double? (t : Token) : Option Double := t.numeral?.bind (·.toBinary? .double)

/-- The nearest 32-bit number, read from the text in one rounding. -/
def single? (t : Token) : Option Single := t.numeral?.bind (·.toBinary? .single)

def integer? (t : Token) : Option Int := t.numeral?.bind Numeral.integer?

/-- The text of an identifier or a string. -/
def name? (t : Token) : Option String := if t.kind.isName then some t.text else none

/-- The text with its quotes. -/
def display (t : Token) : String :=
  match t.kind with
  | .single => "'" ++ t.text ++ "'"
  | .double => "\"" ++ t.text ++ "\""
  | _ => t.text

end Token

end MotionScript
