import MotionScript.Source.Diagnostic
import MotionScript.Token.Basic
/-!
# Reading tokens

Splits a text into identifiers, quoted strings, numerals and runs of symbols. White space and
control characters only separate tokens. A text that cannot be split yields the tokens before the
fault and the fault as a failure.
-/

namespace MotionScript.Lexer

open Text

/-! ## Faults -/

inductive Fault where
  | unterminatedString (quote : Char)
  /-- Nothing follows a backslash. -/
  | escapeAtEnd
  /-- The text ends where the digits of an escape are expected. -/
  | escapeCutOff
  | escapeWithoutDigits
  | escapeOutOfRange
  | radixWithoutDigits
  /-- No token starts where one is expected. -/
  | noToken
deriving DecidableEq, Repr

namespace Fault

def code : Fault → Code
  | unterminatedString _ => .unterminatedString
  | escapeAtEnd | escapeCutOff => .unterminatedEscape
  | escapeWithoutDigits | escapeOutOfRange => .invalidEscape
  | radixWithoutDigits => .invalidNumber
  | noToken => .unexpectedToken

def message : Fault → String
  | unterminatedString _ => "unterminated string literal"
  | escapeAtEnd | escapeCutOff => "unterminated escape sequence"
  | escapeWithoutDigits => "escape sequence has no digits"
  | escapeOutOfRange => "invalid escaped codepoint"
  | radixWithoutDigits => "invalid number literal"
  | noToken => "unexpected character"

/-- What is said at the place of the fault. -/
def label : Fault → String
  | noToken => "cannot start a token"
  | fault => fault.code.description

def help? : Fault → Option String
  | unterminatedString quote =>
    some (if quote = '"' then "add a closing `\"`" else "add a closing `'`")
  | escapeAtEnd => some "the document ended right after `\\`"
  | escapeCutOff => some "the document ended inside an escape"
  | escapeWithoutDigits => some "write at least one digit, e.g. `\\x41`"
  | escapeOutOfRange => some "valid range: `0x0000`-`0xD7FF` or `0xE000`-`0x10FFFF`"
  | radixWithoutDigits => some "`0b`, `0o` and `0x` must be followed by digits of that radix"
  | noToken => none

end Fault

/-- A fault and the text that was still to be read when it was met. -/
structure Stuck where
  fault : Fault
  rest : List Char
deriving DecidableEq, Repr

abbrev Reading (α : Type) := Except Stuck (α × List Char)

/-! ## Escapes -/

/-- The character with a code point, if it is a scalar value. -/
def scalar? (n : Nat) : Option Char :=
  if h : n.isValidChar then some (Char.ofNatAux n h) else none

/-- The digits of a numeric escape: at most `limit` behind those already read. -/
def numericEscape (leading : List Char) (limit base : Nat) (cs : List Char) : Reading Char :=
  let digits := (cs.take limit).takeWhile (isDigitOf base)
  let rest := cs.drop digits.length
  if (leading ++ digits).isEmpty then
    .error ⟨if rest.isEmpty then .escapeCutOff else .escapeWithoutDigits, rest⟩
  else
    match scalar? (ofDigitsIn base (leading ++ digits)) with
    | some c => .ok (c, rest)
    | none => .error ⟨.escapeOutOfRange, rest⟩

/-- The control character a letter stands for behind a backslash, in either case. -/
def namedEscape? (c : Char) : Option Char :=
  match c.toLower with
  | 'a' => some '\x07'
  | 'b' | 'h' => some '\x08'
  | 'e' => some '\x1B'
  | 'f' => some '\x0C'
  | 'n' => some '\n'
  | 'r' => some '\r'
  | 't' => some '\t'
  | 'v' => some '\x0B'
  | _ => none

/-- Decodes an escape behind its backslash. A character without a meaning stands for itself. -/
def escape : List Char → Reading Char
  | [] => .error ⟨.escapeAtEnd, []⟩
  | c :: rest =>
    match namedEscape? c with
    | some decoded => .ok (decoded, rest)
    | none =>
      if isDigitOf 8 c then numericEscape [c] 2 8 rest
      else if c = 'o' ∨ c = 'O' then numericEscape [] 3 8 rest
      else if c = 'x' ∨ c = 'X' then numericEscape [] 2 16 rest
      else if c = 'u' then numericEscape [] 4 16 rest
      else if c = 'U' then numericEscape [] 8 16 rest
      else .ok (c, rest)

theorem numericEscape_length {leading : List Char} {limit base : Nat} {cs rest : List Char}
    {c : Char} (h : numericEscape leading limit base cs = .ok (c, rest)) :
    rest.length ≤ cs.length := by
  unfold numericEscape at h
  simp only at h
  split at h
  · cases h
  · split at h
    · cases h; simp
    · cases h

theorem escape_length {cs rest : List Char} {c : Char} (h : escape cs = .ok (c, rest)) :
    rest.length < cs.length := by
  unfold escape at h
  split at h
  · cases h
  · split at h
    · cases h; simp
    · simp only [List.length_cons]
      split at h
      · exact Nat.lt_succ_of_le (numericEscape_length h)
      split at h
      · exact Nat.lt_succ_of_le (numericEscape_length h)
      split at h
      · exact Nat.lt_succ_of_le (numericEscape_length h)
      split at h
      · exact Nat.lt_succ_of_le (numericEscape_length h)
      split at h
      · exact Nat.lt_succ_of_le (numericEscape_length h)
      · cases h; omega

/-! ## Strings and identifiers -/

/-- Puts a character in front of what was read. -/
def Reading.cons (c : Char) (r : Reading (List Char)) : Reading (List Char) :=
  r.map fun (cs, rest) => (c :: cs, rest)

/-- Reads a string behind its opening quote, through the closing one. -/
def quoted (quote : Char) (cs : List Char) : Reading (List Char) :=
  match cs with
  | [] => .error ⟨.unterminatedString quote, []⟩
  | c :: rest =>
    if c = quote then .ok ([], rest)
    else if c = '\\' then
      match _h : escape rest with
      | .error stuck => .error stuck
      | .ok (decoded, rest) => Reading.cons decoded (quoted quote rest)
    else Reading.cons c (quoted quote rest)
termination_by cs.length
decreasing_by
  · have := escape_length ‹_›; simp only [List.length_cons]; omega
  · simp

/-- Reads identifier characters and escapes as far as they go. -/
def identifierTail (cs : List Char) : Reading (List Char) :=
  match cs with
  | [] => .ok ([], [])
  | c :: rest =>
    if isIdentifierChar c then Reading.cons c (identifierTail rest)
    else if c = '\\' then
      match _h : escape rest with
      | .error stuck => .error stuck
      | .ok (decoded, rest) => Reading.cons decoded (identifierTail rest)
    else .ok ([], c :: rest)
termination_by cs.length
decreasing_by
  · simp
  · have := escape_length ‹_›; simp only [List.length_cons]; omega

/-- Reads an identifier. Its first character may be any that starts no other token. -/
def identifier : List Char → Reading (List Char)
  | [] => .error ⟨.noToken, []⟩
  | c :: rest =>
    if c = '\\' then identifierTail (c :: rest) else Reading.cons c (identifierTail rest)

theorem Reading.cons_eq_ok {c : Char} {r : Reading (List Char)} {cs rest : List Char} :
    Reading.cons c r = .ok (cs, rest) ↔ ∃ tail, r = .ok (tail, rest) ∧ cs = c :: tail := by
  cases r with
  | error e => simp [Reading.cons, Except.map]
  | ok p =>
    obtain ⟨tail, rest'⟩ := p
    simp only [Reading.cons, Except.map, Except.ok.injEq, Prod.mk.injEq]
    constructor
    · rintro ⟨rfl, rfl⟩; exact ⟨tail, ⟨rfl, rfl⟩, rfl⟩
    · rintro ⟨t, ⟨rfl, rfl⟩, rfl⟩; exact ⟨rfl, rfl⟩

theorem quoted_length {quote : Char} {cs text rest : List Char}
    (h : quoted quote cs = .ok (text, rest)) : rest.length < cs.length := by
  fun_induction quoted quote cs generalizing text with
  | case1 => cases h
  | case2 => cases h; simp
  | case3 => cases h
  | case4 r decoded r' he _ ih =>
    obtain ⟨tail, ht, _⟩ := Reading.cons_eq_ok.1 h
    have := ih ht
    have := escape_length he
    simp only [List.length_cons]; omega
  | case5 c r _ _ ih =>
    obtain ⟨tail, ht, _⟩ := Reading.cons_eq_ok.1 h
    have := ih ht
    simp only [List.length_cons]; omega

theorem identifierTail_length {cs text rest : List Char}
    (h : identifierTail cs = .ok (text, rest)) : rest.length ≤ cs.length := by
  fun_induction identifierTail cs generalizing text with
  | case1 => cases h; simp
  | case2 c r _ ih =>
    obtain ⟨tail, ht, _⟩ := Reading.cons_eq_ok.1 h
    have := ih ht
    simp only [List.length_cons]; omega
  | case3 => cases h
  | case4 r decoded r' he _ ih =>
    obtain ⟨tail, ht, _⟩ := Reading.cons_eq_ok.1 h
    have := ih ht
    have := escape_length he
    simp only [List.length_cons]; omega
  | case5 => cases h; simp

theorem identifier_length {c : Char} {cs text rest : List Char}
    (h : identifier (c :: cs) = .ok (text, rest)) : rest.length < (c :: cs).length := by
  simp only [identifier] at h
  split at h
  · rename_i hc
    subst hc
    rw [identifierTail, if_neg (by decide), if_pos rfl] at h
    split at h
    · cases h
    · rename_i he
      obtain ⟨tail, ht, _⟩ := Reading.cons_eq_ok.1 h
      have := identifierTail_length ht
      have := escape_length he
      simp only [List.length_cons]; omega
  · obtain ⟨tail, ht, _⟩ := Reading.cons_eq_ok.1 h
    have := identifierTail_length ht
    simp only [List.length_cons]; omega

/-! ## Numerals and symbols -/

/-- Whether a digit starts the text. -/
def startsDigit : List Char → Bool
  | c :: _ => c.isDigit
  | [] => false

/-- Whether a digit starts the text, or a point right before one. -/
def startsUnsigned : List Char → Bool
  | '.' :: rest => startsDigit rest
  | cs => startsDigit cs

/-- Whether a numeral starts the text: a sign or a point counts when a digit follows. -/
def startsNumber : List Char → Bool
  | '+' :: rest | '-' :: rest => startsUnsigned rest
  | cs => startsUnsigned cs

/-- Whether an exponent with at least one digit starts the text. -/
def startsExponent : List Char → Bool
  | c :: rest => (c == 'e' || c == 'E') && startsDigit (Decimal.takeSign rest).2
  | [] => false

/-- What follows the point and fraction digits at the head of a text. -/
def afterFraction : List Char → List Char
  | '.' :: rest => rest.dropWhile Char.isDigit
  | cs => cs

/-- What follows an exponent at the head of a text. -/
def afterExponent (cs : List Char) : List Char :=
  if startsExponent cs then (Decimal.takeSign cs.tail).2.dropWhile Char.isDigit else cs

/-- What follows the numeral at the head of a text. -/
def afterNumber (cs : List Char) : Except Stuck (List Char) :=
  let unsigned := (Decimal.takeSign cs).2
  match Numeral.takeRadix unsigned with
  | some (base, body) =>
    let rest := body.dropWhile (isDigitOf base)
    if rest.length = body.length || rest.head?.any isIdentifierChar then
      .error ⟨.radixWithoutDigits, rest⟩
    else .ok rest
  | none => .ok (afterExponent (afterFraction (unsigned.dropWhile Char.isDigit)))

/-- What follows a run of symbols behind its first one: the run stops before a numeral. -/
def afterSymbols (symbols : SymbolSet) : List Char → List Char
  | [] => []
  | c :: rest =>
    if !symbols.contains c || startsNumber (c :: rest) then c :: rest
    else afterSymbols symbols rest

theorem takeSign_length (cs : List Char) : (Decimal.takeSign cs).2.length ≤ cs.length := by
  unfold Decimal.takeSign; split <;> simp

theorem length_dropWhile_le {α : Type} (p : α → Bool) (xs : List α) :
    (xs.dropWhile p).length ≤ xs.length := by
  induction xs with
  | nil => simp
  | cons x xs ih => rw [List.dropWhile_cons]; split <;> simp only [List.length_cons] <;> omega

theorem afterFraction_length (cs : List Char) : (afterFraction cs).length ≤ cs.length := by
  unfold afterFraction
  split
  · have := length_dropWhile_le Char.isDigit ‹List Char›; simp only [List.length_cons]; omega
  · exact Nat.le_refl _

theorem afterExponent_length (cs : List Char) : (afterExponent cs).length ≤ cs.length := by
  unfold afterExponent
  split
  · have h1 := length_dropWhile_le Char.isDigit (Decimal.takeSign cs.tail).2
    have h2 := takeSign_length cs.tail
    have h3 : cs.tail.length ≤ cs.length := by cases cs <;> simp
    omega
  · exact Nat.le_refl _

theorem afterSymbols_length (symbols : SymbolSet) (cs : List Char) :
    (afterSymbols symbols cs).length ≤ cs.length := by
  induction cs with
  | nil => simp [afterSymbols]
  | cons c cs ih =>
    unfold afterSymbols
    split
    · exact Nat.le_refl _
    · simp only [List.length_cons]; omega

theorem startsDigit_dropWhile {cs : List Char} (h : startsDigit cs = true) :
    (cs.dropWhile Char.isDigit).length < cs.length := by
  cases cs with
  | nil => simp [startsDigit] at h
  | cons c cs =>
    simp only [startsDigit] at h
    rw [List.dropWhile_cons, if_pos h]
    have := length_dropWhile_le Char.isDigit cs
    simp only [List.length_cons]; omega

theorem takeRadix_length {cs body : List Char} {base : Nat}
    (h : Numeral.takeRadix cs = some (base, body)) : body.length < cs.length := by
  unfold Numeral.takeRadix at h
  split at h
  · obtain ⟨b, _, hb⟩ := Option.map_eq_some_iff.1 h
    cases hb; simp only [List.length_cons]; omega
  · cases h

theorem startsNumber_takeSign {cs : List Char} (h : startsNumber cs = true) :
    startsUnsigned (Decimal.takeSign cs).2 = true := by
  unfold startsNumber at h
  unfold Decimal.takeSign
  split at h <;> simp_all

theorem afterNumber_length {cs rest : List Char} (hs : startsNumber cs = true)
    (h : afterNumber cs = .ok rest) : rest.length < cs.length := by
  unfold afterNumber at h
  simp only at h
  have hu := takeSign_length cs
  split at h
  · rename_i base body hr
    have hb := takeRadix_length hr
    split at h
    · cases h
    · cases h
      have := length_dropWhile_le (isDigitOf base) body
      omega
  · cases h
    have hd := startsNumber_takeSign hs
    have h1 := afterExponent_length (afterFraction ((Decimal.takeSign cs).2.dropWhile Char.isDigit))
    have h2 := afterFraction_length ((Decimal.takeSign cs).2.dropWhile Char.isDigit)
    suffices h3 : (afterFraction ((Decimal.takeSign cs).2.dropWhile Char.isDigit)).length <
        (Decimal.takeSign cs).2.length by omega
    generalize (Decimal.takeSign cs).2 = u at hd h2
    cases u with
    | nil => simp [startsUnsigned, startsDigit] at hd
    | cons c u =>
      by_cases hc : c = '.'
      · subst hc
        have e : List.dropWhile Char.isDigit ('.' :: u) = '.' :: u := by
          rw [List.dropWhile_cons, if_neg (by decide)]
        rw [e]
        have := length_dropWhile_le Char.isDigit u
        simp only [afterFraction, List.length_cons]; omega
      · have hd' : startsDigit (c :: u) = true := by
          unfold startsUnsigned at hd
          split at hd
          · simp_all
          · exact hd
        have := startsDigit_dropWhile hd'
        omega

/-! ## Tokens -/

/-- The first token of a text and what follows it. -/
structure Lexeme where
  kind : TokenKind
  text : List Char
  rest : List Char
deriving DecidableEq, Repr

/-- What was read of `cs` when `rest` is left. -/
def taken (cs rest : List Char) : List Char := cs.take (cs.length - rest.length)

/-- A lexeme with decoded text. -/
def decoded (kind : TokenKind) (r : Reading (List Char)) : Except Stuck Lexeme :=
  r.map fun (text, rest) => ⟨kind, text, rest⟩

/-- Reads the first token of a text that starts with no separator. -/
def lexeme (symbols : SymbolSet) : List Char → Except Stuck Lexeme
  | [] => decoded .identifier (identifier [])
  | c :: cs =>
    if c = '"' then decoded .double (quoted '"' cs)
    else if c = '\x27' then decoded .single (quoted '\x27' cs)
    else if startsNumber (c :: cs) then
      (afterNumber (c :: cs)).map fun rest => ⟨.number, taken (c :: cs) rest, rest⟩
    else if symbols.contains c then
      let rest := afterSymbols symbols cs
      .ok ⟨.symbol, taken (c :: cs) rest, rest⟩
    else decoded .identifier (identifier (c :: cs))

theorem decoded_eq_ok {kind : TokenKind} {r : Reading (List Char)} {l : Lexeme} :
    decoded kind r = .ok l ↔ l.kind = kind ∧ r = .ok (l.text, l.rest) := by
  obtain ⟨k, t, u⟩ := l
  cases r with
  | error e => simp [decoded, Except.map]
  | ok p =>
    obtain ⟨text, rest⟩ := p
    simp only [decoded, Except.map, Except.ok.injEq, Lexeme.mk.injEq, Prod.mk.injEq]
    constructor
    · rintro ⟨rfl, rfl, rfl⟩; exact ⟨rfl, rfl, rfl⟩
    · rintro ⟨rfl, rfl, rfl⟩; exact ⟨rfl, rfl, rfl⟩

theorem lexeme_length {symbols : SymbolSet} {c : Char} {cs : List Char} {l : Lexeme}
    (h : lexeme symbols (c :: cs) = .ok l) : l.rest.length < (c :: cs).length := by
  simp only [lexeme] at h
  split at h
  · have := quoted_length (decoded_eq_ok.1 h).2; simp only [List.length_cons]; omega
  split at h
  · have := quoted_length (decoded_eq_ok.1 h).2; simp only [List.length_cons]; omega
  split at h
  · rename_i hs
    cases ha : afterNumber (c :: cs) with
    | error e => rw [ha] at h; simp [Except.map] at h
    | ok rest =>
      rw [ha] at h
      simp only [Except.map, Except.ok.injEq] at h
      subst h
      exact afterNumber_length hs ha
  split at h
  · cases h
    have := afterSymbols_length symbols cs
    simp only [List.length_cons]; omega
  · exact identifier_length (decoded_eq_ok.1 h).2

/-- The tokens of a text up to the first fault. -/
structure Stream where
  tokens : List Token
  failure : Option Failure
deriving Repr

/-- The failure for a fault in the token that starts at `start` and `p` with the text `cs`. -/
def Stuck.failure (stuck : Stuck) (start : Nat) (p : Position) (cs : List Char) : Failure :=
  let read := taken cs stuck.rest
  let stop := min (max (start + byteSize read) (start + 1)) (start + byteSize cs)
  let d := ((Diagnostic.error stuck.fault.message).withCode stuck.fault.code).withLabel
    ⟨start, stop⟩ stuck.fault.label
  .located { d with help := stuck.fault.help? } (p.walk read)

/-- The tokens of a text that starts at a byte offset and a position of the document. -/
def streamFrom (symbols : SymbolSet) (cs : List Char) (offset : Nat) (p : Position) : Stream :=
  let skipped := cs.takeWhile isSeparator
  let start := offset + byteSize skipped
  let p := p.walk skipped
  match _hd : cs.dropWhile isSeparator with
  | [] => ⟨[], none⟩
  | c :: body =>
    match _hl : lexeme symbols (c :: body) with
    | .error stuck => ⟨[], some (stuck.failure start p (c :: body))⟩
    | .ok l =>
      let read := taken (c :: body) l.rest
      let stop := start + byteSize read
      let tail := streamFrom symbols l.rest stop (p.walk read)
      ⟨⟨l.kind, String.ofList l.text, ⟨start, stop⟩, p⟩ :: tail.tokens, tail.failure⟩
termination_by cs.length
decreasing_by
  have h1 := lexeme_length _hl
  have h2 := length_dropWhile_le isSeparator cs
  rw [_hd] at h2
  omega

/-- Splits a document into tokens. -/
def tokenize (symbols : SymbolSet) (text : String) : Stream :=
  streamFrom symbols text.toList 0 ⟨0, 0⟩

end MotionScript.Lexer
