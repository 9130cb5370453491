import MotionScript.Number.Decimal
import MotionScript.Text.CharClass
/-!
# Written names, strings and numbers

Names are bare where they read back as one identifier and quoted otherwise. Quoted text holds no
control character.
-/

namespace MotionScript.Canonical

open Text

/-- Whether a text reads as one identifier: identifier characters, no ASCII digit first. -/
def isBare (cs : List Char) : Bool :=
  match cs with
  | [] => false
  | c :: rest => isIdentifierChar c && !c.isDigit && rest.all isIdentifierChar

/-- Double quotes, unless the text holds some and no single ones. -/
def quoteFor (cs : List Char) : Char :=
  if cs.contains '"' && !cs.contains '\x27' then '\x27' else '"'

/-- An upper-case hexadecimal digit. -/
def hexDigit (n : Nat) : Char := (Nat.digitChar n).toUpper

/-- A character between quotes. -/
def escapeChar (quote c : Char) : List Char :=
  if c = '\\' then ['\\', '\\']
  else if c = quote then ['\\', c]
  else if c = '\x00' then ['\\', '0', '0', '0']
  else if c = '\x07' then ['\\', 'a']
  else if c = '\x08' then ['\\', 'b']
  else if c = '\x1B' then ['\\', 'e']
  else if c = '\x0C' then ['\\', 'f']
  else if c = '\n' then ['\\', 'n']
  else if c = '\r' then ['\\', 'r']
  else if c = '\t' then ['\\', 't']
  else if c = '\x0B' then ['\\', 'v']
  else if isControl c then ['\\', 'x', hexDigit (c.toNat / 16), hexDigit (c.toNat % 16)]
  else [c]

/-- A text in quotes. -/
def quoted (cs : List Char) : List Char :=
  let quote := quoteFor cs
  quote :: (cs.flatMap (escapeChar quote) ++ [quote])

/-- A text in quotes. -/
def string (text : String) : String := String.ofList (quoted text.toList)

/-- A name, bare where possible. -/
def name (text : String) : String := if isBare text.toList then text else string text

/-- A signed offset with a space behind the sign; none for zero. -/
def offset? (x : Single) : Option String :=
  if x.isNegative then some s!"- {-x}"
  else if x.isPositive then some s!"+ {x}"
  else none

end MotionScript.Canonical
