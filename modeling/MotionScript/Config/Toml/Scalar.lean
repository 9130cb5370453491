import MotionScript.Config.Setting
import MotionScript.Config.Toml.Text
/-!
# Numbers, dates and booleans in TOML

All values that are one word.
-/

namespace MotionScript.Toml

/-! ## Numbers -/

/-- Takes out the underscores, each of which has to stand between digits. -/
def plainDigits (isDigit : Char → Bool) : List Char → Option (List Char)
  | [] => some []
  | '_' :: _ => none
  | a :: '_' :: b :: rest =>
    if isDigit a && isDigit b then (plainDigits isDigit (b :: rest)).map (a :: ·) else none
  | c :: rest => (plainDigits isDigit rest).map (c :: ·)

/-- The base that a mark behind a leading zero stands for. -/
def base? (mark : Char) : Option Nat :=
  match mark with
  | 'b' => some 2
  | 'o' => some 8
  | 'x' => some 16
  | _ => none

/-- An unsigned integer with a mark for its base. -/
def marked? : List Char → Option Nat
  | '0' :: mark :: digits => do
    let base ← base? mark
    let digits ← plainDigits (isDigitOf base) digits
    guard (!digits.isEmpty && digits.all (isDigitOf base))
    return ofDigitsIn base digits
  | _ => none

/-- Whether the digits in front of a point or an exponent are written without a leading zero. -/
def wellStarted : List Char → Bool
  | '0' :: c :: _ => !c.isDigit
  | c :: _ => c.isDigit
  | [] => false

/-- Whether digits follow the point behind the first digits. -/
def pointFits (cs : List Char) : Bool :=
  match cs.dropWhile Char.isDigit with
  | '.' :: rest => (rest.head?.map Char.isDigit).getD false
  | _ => true

/-- An integer of at most 128 bits. -/
def bounded? (n : Int) : Option Setting :=
  if -0x80000000000000000000000000000000 ≤ n ∧ n < 0x100000000000000000000000000000000 then
    some (.integer n)
  else none

/-- The number a word stands for. Finite decimals beyond the 64-bit format are none. -/
def number? (cs : List Char) : Option Setting :=
  match marked? cs with
  | some n => bounded? n
  | none => do
    let (negative, body) := Decimal.takeSign (← plainDigits Char.isDigit cs)
    if body = ['i', 'n', 'f'] then return .float (.infinity negative)
    if body = ['n', 'a', 'n'] then return .float .nan
    guard (wellStarted body && pointFits body)
    if body.all Char.isDigit then
      bounded? (if negative then -(ofDigits body : Int) else ofDigits body)
    else
      let x := (← Decimal.readUnsigned body).toBinary Format.double negative
      guard x.isFinite
      return .float x

/-! ## Dates and times -/

/-- The number that exactly `count` digits at the front stand for. -/
def fixedDigits (count : Nat) (cs : List Char) : Option (Nat × List Char) :=
  let digits := cs.takeWhile Char.isDigit
  if digits.length = count then some (ofDigits digits, cs.drop count) else none

/-- A text behind a character. -/
def expect (c : Char) : List Char → Option (List Char)
  | d :: rest => if c = d then some rest else none
  | [] => none

def isLeapYear (year : Nat) : Bool := year % 4 == 0 && (year % 100 != 0 || year % 400 == 0)

def daysInMonth (year month : Nat) : Nat :=
  if month = 2 then (if isLeapYear year then 29 else 28)
  else if month ∈ [4, 6, 9, 11] then 30
  else 31

/-- The text behind a date. -/
def date? (cs : List Char) : Option (List Char) := do
  let (year, rest) ← fixedDigits 4 cs
  let (month, rest) ← fixedDigits 2 (← expect '-' rest)
  let (day, rest) ← fixedDigits 2 (← expect '-' rest)
  guard (1 ≤ month ∧ month ≤ 12 ∧ 1 ≤ day ∧ day ≤ daysInMonth year month)
  return rest

/-- The text behind hours and minutes. -/
def minutes? (cs : List Char) : Option (List Char) := do
  let (hour, rest) ← fixedDigits 2 cs
  let (minute, rest) ← fixedDigits 2 (← expect ':' rest)
  guard (hour ≤ 23 ∧ minute ≤ 59)
  return rest

/-- The text behind a time. Seconds may be left out; they go up to 60 for leap seconds and may have
a fraction. -/
def time? (cs : List Char) : Option (List Char) := do
  match ← minutes? cs with
  | ':' :: rest =>
    let (second, rest) ← fixedDigits 2 rest
    guard (second ≤ 60)
    match rest with
    | '.' :: rest =>
      guard ((rest.head?.map Char.isDigit).getD false)
      return rest.dropWhile Char.isDigit
    | rest => return rest
  | rest => return rest

/-- Whether a text is empty or the offset of a time from the standard one. -/
def isOffset : List Char → Bool
  | [] => true
  | [c] => c == 'Z' || c == 'z'
  | c :: rest => (c == '+' || c == '-') && minutes? rest == some []

/-- Whether a text is a date, a time, or a date with a time and perhaps an offset. -/
def isMoment (cs : List Char) : Bool :=
  match date? cs with
  | none => time? cs == some []
  | some [] => true
  | some (c :: rest) => (c == 'T' || c == 't' || c == ' ') && (time? rest).any isOffset

/-! ## Words -/

/-- Characters of booleans, numbers, dates and times. -/
def isWordChar (c : Char) : Bool := isBare c || c == '+' || c == '.' || c == ':'

/-- The value of a word. -/
def word? (cs : List Char) : Option Setting :=
  if cs = ['t', 'r', 'u', 'e'] then some (.bool true)
  else if cs = ['f', 'a', 'l', 's', 'e'] then some (.bool false)
  else if isMoment cs then some .moment
  else number? cs

/-- A value of one word. A date and its time may be two words with one blank between them. -/
def word (cs : List Char) : Option (Setting × List Char) :=
  let (first, rest) := cs.span isWordChar
  match date? first, rest with
  | some [], ' ' :: next =>
    let (second, rest) := next.span isWordChar
    if second.isEmpty then some (.moment, ' ' :: next)
    else (word? (first ++ ' ' :: second)).map (·, rest)
  | _, rest => (word? first).map (·, rest)

end MotionScript.Toml
