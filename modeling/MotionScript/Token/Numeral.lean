import MotionScript.Number.Decimal
/-!
# Numerals

The number a number token stands for. Numerals with a radix mark are integers; all others are
decimals with an optional point and exponent.
-/

namespace MotionScript

inductive Numeral where
  /-- `0b`, `0o` or `0x` and digits. -/
  | radix (negative : Bool) (magnitude : Nat)
  /-- A decimal; `whole` if it is written with digits only. -/
  | decimal (negative : Bool) (value : Decimal) (whole : Bool)
deriving DecidableEq, Repr

/-- The radix a letter behind a leading zero stands for. -/
def radixOf? (mark : Char) : Option Nat :=
  match mark.toLower with
  | 'b' => some 2
  | 'o' => some 8
  | 'x' => some 16
  | _ => none

/-- The value of a digit of up to base sixteen. -/
def hexValue (c : Char) : Nat :=
  if c.isDigit then digitValue c else c.toLower.toNat - 'a'.toNat + 10

/-- ASCII digits of a base up to sixteen. -/
def isDigitOf (base : Nat) (c : Char) : Bool :=
  (c.isDigit || ('a' ≤ c.toLower && c.toLower ≤ 'f')) && hexValue c < base

/-- The number a list of digits stands for in a base. -/
def ofDigitsIn (base : Nat) (cs : List Char) : Nat := cs.foldl (fun n c => base * n + hexValue c) 0

/-- The bound of 64-bit signed integers. -/
def integerBound : Nat := 0x8000000000000000

namespace Numeral

/-- The radix mark at the head of an unsigned numeral, with the digits behind it. -/
def takeRadix : List Char → Option (Nat × List Char)
  | '0' :: mark :: digits => (radixOf? mark).map (·, digits)
  | _ => none

/-- Reads a numeral with an optional sign. -/
def read (cs : List Char) : Option Numeral :=
  let (negative, unsigned) := Decimal.takeSign cs
  match takeRadix unsigned with
  | some (base, digits) =>
    if digits.isEmpty || !digits.all (isDigitOf base) then none
    else some (.radix negative (ofDigitsIn base digits))
  | none => (Decimal.readUnsigned unsigned).map (.decimal negative · (unsigned.all Char.isDigit))

/-- The integer of a radix numeral, unless its magnitude is out of range. -/
def signed? (negative : Bool) (magnitude : Nat) : Option Int :=
  if magnitude < integerBound then some (if negative then -magnitude else magnitude) else none

/-- The nearest number of a format. -/
def toBinary? (f : Format) : Numeral → Option (Binary f)
  | radix negative magnitude => (signed? negative magnitude).map Binary.ofInt
  | decimal negative value _ => some (value.toBinary f negative)

/-- The integer, if the numeral is integral: digits alone are exact, a point or an exponent goes
through the nearest 64-bit number. -/
def integer? : Numeral → Option Int
  | radix negative magnitude => signed? negative magnitude
  | decimal negative value whole =>
    let exact : Int := if negative then -(value.digits : Int) else value.digits
    if whole ∧ -(integerBound : Int) ≤ exact ∧ exact < integerBound then some exact
    else
      match (value.toBinary Format.double negative).integer? with
      | some n => if n.natAbs < integerBound then some n else none
      | none => none

end Numeral

end MotionScript
