import MotionScript.Token.Numeral
/-!
# The text of TOML documents

Blanks, comments, line ends, strings and keys. A reader gives what it takes from the front of a
text, and the rest, or nothing if the text does not fit.
-/

namespace MotionScript.Toml

/-! ## Blanks -/

/-- Characters that may stand for themselves in comments and strings: all but control characters,
of which only the tab is allowed. -/
def isPlain (c : Char) : Bool := c == '\t' || (0x20 ≤ c.toNat && c.toNat != 0x7F)

def isBlank (c : Char) : Bool := c == ' ' || c == '\t'

def skipBlanks (cs : List Char) : List Char := cs.dropWhile isBlank

/-- The text behind a line end. -/
def newline? : List Char → Option (List Char)
  | '\n' :: rest => some rest
  | '\r' :: '\n' :: rest => some rest
  | _ => none

/-- Skips blanks and a comment. -/
def skipComment (cs : List Char) : List Char :=
  match skipBlanks cs with
  | '#' :: rest => rest.dropWhile isPlain
  | cs => cs

/-- Skips the rest of a line that holds nothing but blanks and a comment. -/
def lineEnd (cs : List Char) : Option (List Char) :=
  match skipComment cs with
  | [] => some []
  | cs => newline? cs

/-- Skips blanks, comments and line ends, at most `fuel` lines of them. -/
def skipLines (cs : List Char) : Nat → List Char
  | 0 => cs
  | fuel + 1 =>
    match newline? (skipComment cs) with
    | some rest => skipLines rest fuel
    | none => skipComment cs

/-- Skips blanks, comments and line ends. -/
def skipSpace (cs : List Char) : List Char := skipLines cs (cs.length + 1)

/-! ## Escapes -/

/-- The character with a code of exactly `count` hexadecimal digits. -/
def coded (count : Nat) (cs : List Char) : Option (Char × List Char) := do
  let digits := cs.take count
  guard (digits.length = count && digits.all (isDigitOf 16))
  let code := ofDigitsIn 16 digits
  if h : code.isValidChar then some (Char.ofNatAux code h, cs.drop count) else none

/-- The character an escape stands for; the text is what follows the backslash. -/
def escape : List Char → Option (Char × List Char)
  | 'b' :: rest => some ('\x08', rest)
  | 't' :: rest => some ('\t', rest)
  | 'n' :: rest => some ('\n', rest)
  | 'f' :: rest => some ('\x0c', rest)
  | 'r' :: rest => some ('\r', rest)
  | 'e' :: rest => some ('\x1b', rest)
  | '"' :: rest => some ('"', rest)
  | '\\' :: rest => some ('\\', rest)
  | 'x' :: rest => coded 2 rest
  | 'u' :: rest => coded 4 rest
  | 'U' :: rest => coded 8 rest
  | _ => none

/-- Skips the blanks and line ends behind a backslash that ends its line. -/
def continuation (cs : List Char) : Nat → Option (List Char)
  | 0 => none
  | fuel + 1 => do
    let rest ← newline? (skipBlanks cs)
    return (continuation rest fuel).getD (skipBlanks rest)

/-! ## Strings on one line -/

/-- The rest of a string in double quotes. -/
def basicString (cs : List Char) : Nat → Option (List Char × List Char)
  | 0 => none
  | fuel + 1 =>
    match cs with
    | [] => none
    | '"' :: rest => some ([], rest)
    | '\\' :: rest => do
      let (c, rest) ← escape rest
      let (text, rest) ← basicString rest fuel
      return (c :: text, rest)
    | c :: rest => do
      guard (isPlain c)
      let (text, rest) ← basicString rest fuel
      return (c :: text, rest)

/-- The rest of a string in single quotes, which knows no escapes. -/
def literalString (cs : List Char) : Option (List Char × List Char) :=
  match cs.span (· != '\x27') with
  | (text, '\x27' :: rest) => if text.all isPlain then some (text, rest) else none
  | _ => none

/-! ## Strings over several lines -/

/-- The end of a string in three quotes: up to two more quotes in front of the closing ones belong
to the string. -/
def closing (quote : Char) (cs : List Char) : Option (List Char × List Char) :=
  let count := min (cs.takeWhile (· == quote)).length 5
  if 3 ≤ count then some (List.replicate (count - 3) quote, cs.drop count) else none

/-- A character that stands for itself, or a line end. -/
def multilineChar (cs : List Char) : Option (List Char × List Char) :=
  match cs with
  | [] => none
  | '\r' :: '\n' :: rest => some (['\r', '\n'], rest)
  | c :: rest => if c == '\n' || isPlain c then some ([c], rest) else none

/-- The rest of a string in three quotes. Only those in double quotes know escapes. -/
def multilineString (quote : Char) (cs : List Char) : Nat → Option (List Char × List Char)
  | 0 => none
  | fuel + 1 =>
    match closing quote cs with
    | some done => some done
    | none => do
      let (part, rest) ←
        match cs with
        | '\\' :: rest =>
          if quote == '"' then
            match continuation rest rest.length with
            | some rest => some ([], rest)
            | none => (escape rest).map fun (c, rest) => ([c], rest)
          else some (['\\'], rest)
        | cs => multilineChar cs
      let (text, rest) ← multilineString quote rest fuel
      return (part ++ text, rest)

/-- A string. A line end right behind three quotes is not part of it. -/
def string (cs : List Char) : Option (String × List Char) :=
  let body : Option (List Char × List Char) :=
    match cs with
    | '"' :: '"' :: '"' :: rest =>
      multilineString '"' ((newline? rest).getD rest) (rest.length + 1)
    | '\x27' :: '\x27' :: '\x27' :: rest =>
      multilineString '\x27' ((newline? rest).getD rest) (rest.length + 1)
    | '"' :: rest => basicString rest (rest.length + 1)
    | '\x27' :: rest => literalString rest
    | _ => none
  body.map fun (text, rest) => (String.ofList text, rest)

/-! ## Keys -/

def isBare (c : Char) : Bool := c.isAlphanum || c == '_' || c == '-'

/-- One part of a key, with the blanks behind it: a bare word or a string on one line. -/
def keyPart (cs : List Char) : Option (String × List Char) :=
  let part : Option (List Char × List Char) :=
    match cs.span isBare with
    | ([], '"' :: rest) => basicString rest (rest.length + 1)
    | ([], '\x27' :: rest) => literalString rest
    | ([], _) => none
    | bare => some bare
  part.map fun (name, rest) => (String.ofList name, skipBlanks rest)

/-- A key: its parts with dots between them. -/
def key (cs : List Char) : Nat → Option (List String × List Char)
  | 0 => none
  | fuel + 1 => do
    let (name, rest) ← keyPart cs
    match rest with
    | '.' :: rest =>
      let (names, rest) ← key (skipBlanks rest) fuel
      return (name :: names, rest)
    | rest => return ([name], rest)

end MotionScript.Toml
