import MotionScript.Number.Binary
/-!
# Decimal numbers

Reads decimal text to the nearest number of a format, and writes a number with the fewest digits
that read back as the same number. Text is always positional: no exponent is ever written.
-/

namespace MotionScript

-- Powers are the core library's, whatever else is imported.
attribute [local instance (2000)] instPowNat

/-- The number `digits * 10 ^ exponent`. -/
structure Decimal where
  digits : Nat
  exponent : Int
deriving DecidableEq, Repr

/-- The value of an ASCII digit. -/
def digitValue (c : Char) : Nat := c.toNat - '0'.toNat

/-- The natural number a list of decimal digits stands for. -/
def ofDigits (cs : List Char) : Nat := cs.foldl (fun n c => 10 * n + digitValue c) 0

/-- The decimal digits of a natural number, most significant first. -/
def toDigits (n : Nat) : List Char := Nat.toDigits 10 n

namespace Decimal

/-- The value as a numerator and a denominator. -/
def ratio (d : Decimal) : Nat × Nat :=
  (d.digits * 10 ^ d.exponent.toNat, 10 ^ (-d.exponent).toNat)

/-- The nearest number of a format. Exponents beyond every format are decided without computing
the power. -/
def toBinary (f : Format) (negative : Bool) (d : Decimal) : Binary f :=
  if d.digits = 0 then ⟨negative, 0⟩
  else if 400 < d.exponent then .infinity negative
  else if d.exponent + d.digits.log2 < -400 then ⟨negative, 0⟩
  else .ofRatio negative d.ratio.1 d.ratio.2

/-! ## Reading -/

/-- Splits off a sign. -/
def takeSign : List Char → Bool × List Char
  | '-' :: rest => (true, rest)
  | '+' :: rest => (false, rest)
  | cs => (false, cs)

/-- Splits off the fraction digits behind a point. -/
def takeFraction : List Char → List Char × List Char
  | '.' :: rest => rest.span Char.isDigit
  | cs => ([], cs)

/-- The exponent a text ends with, zero for an empty text. -/
def readExponent : List Char → Option Int
  | [] => some 0
  | e :: rest =>
    if e = 'e' ∨ e = 'E' then
      let (negative, digits) := takeSign rest
      if digits.isEmpty || !digits.all Char.isDigit then none
      else some (if negative then -(ofDigits digits : Int) else ofDigits digits)
    else none

/-- Reads an unsigned decimal: digits with an optional point on either side, then an optional
exponent. -/
def readUnsigned (cs : List Char) : Option Decimal :=
  let (whole, rest) := cs.span Char.isDigit
  let (fraction, rest) := takeFraction rest
  if whole.isEmpty && fraction.isEmpty then none
  else (readExponent rest).map fun exponent =>
    ⟨ofDigits (whole ++ fraction), exponent - fraction.length⟩

/-- Reads a decimal with an optional sign. -/
def read (cs : List Char) : Option (Bool × Decimal) :=
  let (negative, rest) := takeSign cs
  (readUnsigned rest).map (negative, ·)

/-! ## Writing -/

/-- Positional text. -/
def text (d : Decimal) : List Char :=
  let digits := toDigits d.digits
  if 0 ≤ d.exponent then digits ++ List.replicate d.exponent.toNat '0'
  else
    let places := (-d.exponent).toNat
    if places < digits.length then
      digits.take (digits.length - places) ++ '.' :: digits.drop (digits.length - places)
    else '0' :: '.' :: (List.replicate (places - digits.length) '0' ++ digits)

end Decimal

namespace Binary

variable {f : Format}

/-- Whether a decimal rounds to the magnitude of `x`. -/
def readsBack (x : Binary f) (d : Decimal) : Bool :=
  (d.toBinary f x.negative).magnitude == x.magnitude

/-- The neighbour of `x` on the grid of multiples of `10 ^ exponent` that reads back; of two the
nearer one, the greater one on a tie. -/
def onGrid (x : Binary f) (exponent : Int) : Option Decimal :=
  let num := x.ratio.1 * 10 ^ (-exponent).toNat
  let den := x.ratio.2 * 10 ^ exponent.toNat
  let low : Decimal := ⟨num / den, exponent⟩
  let high : Decimal := ⟨num / den + 1, exponent⟩
  match x.readsBack low, x.readsBack high with
  | true, true => some (if 2 * (num % den) < den then low else high)
  | true, false => some low
  | false, true => some high
  | false, false => none

/-- The exact value as a decimal. -/
def exactDecimal (x : Binary f) : Decimal :=
  let exponent := f.exponent x.magnitude
  if 0 ≤ exponent then ⟨f.significand x.magnitude * 2 ^ exponent.toNat, 0⟩
  else ⟨f.significand x.magnitude * 5 ^ (-exponent).toNat, exponent⟩

/-- An exponent of ten above the value. -/
def decimalTop (x : Binary f) : Int :=
  let (num, den) := x.ratio
  if den ≤ num then (toDigits (num / den)).length
  else 2 - ((toDigits (den / num)).length : Int)

/-- The decimal with the fewest digits that reads back as `x`: the first grid with a hit. -/
def shortest (x : Binary f) : Decimal :=
  ((List.range 19).findSome? fun (i : Nat) => x.onGrid (x.decimalTop - i)).getD x.exactDecimal

/-- The text of a number. -/
def text (x : Binary f) : List Char :=
  if x.isNaN then ['N', 'a', 'N']
  else
    let digits :=
      if x.isZero then ['0'] else if x.isFinite then x.shortest.text else ['i', 'n', 'f']
    if x.negative then '-' :: digits else digits

instance : ToString (Binary f) := ⟨fun x => String.ofList x.text⟩

/-- Reads a decimal text to the nearest number. -/
def ofText? (f : Format) (cs : List Char) : Option (Binary f) :=
  (Decimal.read cs).map fun (negative, d) => d.toBinary f negative

/-- Reads what `text` writes: also infinities and the value that is not a number. -/
def ofWritten? (f : Format) (s : String) : Option (Binary f) :=
  match s with
  | "NaN" => some nan
  | "inf" => some (infinity false)
  | "-inf" => some (infinity true)
  | s => ofText? f s.toList

end Binary

end MotionScript
