/-!
# Binary floating-point numbers

Numbers are kept as sign and magnitude code. The codes of one format are ordered like the numbers
they stand for, so rounding, comparison and printing are exact arithmetic on natural numbers.
-/

namespace MotionScript

-- Powers are the core library's, whatever else is imported.
attribute [local instance (2000)] instPowNat

/-- A binary interchange format. -/
structure Format where
  /-- Bits of the significand, the leading one included. -/
  precision : Nat
  /-- Exponent of the least positive number. -/
  minExponent : Int
  /-- Magnitude code of infinity; greater codes are not numbers. -/
  infinity : Nat

namespace Format

def single : Format := ⟨24, -149, 0x7F800000⟩

def double : Format := ⟨53, -1074, 0x7FF0000000000000⟩

/-- Codes per binade. -/
def binade (f : Format) : Nat := 2 ^ (f.precision - 1)

end Format

/-- The quotient `num / den` as a natural number, a half going to the even neighbour. -/
def roundHalfEven (num den : Nat) : Nat :=
  let quotient := num / den
  let rest := 2 * (num % den)
  if rest < den then quotient
  else if den < rest then quotient + 1
  else quotient + quotient % 2

namespace Format

/-- Exponent of the unit in which `num / den` is rounded. -/
def unitExponent (f : Format) (num den : Nat) : Int :=
  let top : Int := num.log2 - den.log2
  let reached := decide (den * 2 ^ top.toNat ≤ num * 2 ^ (-top).toNat)
  max f.minExponent ((if reached then top else top - 1) - f.precision + 1)

/-- The code of the number nearest to `num / den`, ties to even; `infinity` on overflow. -/
def round (f : Format) (num den : Nat) : Nat :=
  if num = 0 then 0
  else
    let unit := f.unitExponent num den
    let significand := roundHalfEven (num * 2 ^ (-unit).toNat) (den * 2 ^ unit.toNat)
    min f.infinity ((unit - f.minExponent).toNat * f.binade + significand)

/-- The significand a code stands for. -/
def significand (f : Format) (code : Nat) : Nat :=
  if code < f.binade then code else f.binade + code % f.binade

/-- The exponent a code stands for: its value is `significand * 2 ^ exponent`. -/
def exponent (f : Format) (code : Nat) : Int :=
  f.minExponent + (code / f.binade - 1 : Nat)

/-- The value of a code as a numerator and a denominator. -/
def ratio (f : Format) (code : Nat) : Nat × Nat :=
  (f.significand code * 2 ^ (f.exponent code).toNat, 2 ^ (-f.exponent code).toNat)

end Format

/-- A number of a format. -/
structure Binary (f : Format) where
  negative : Bool
  /-- Magnitude code. -/
  magnitude : Nat
deriving DecidableEq, Repr

/-- A 32-bit number. -/
abbrev Single := Binary Format.single

/-- A 64-bit number. -/
abbrev Double := Binary Format.double

namespace Binary

variable {f : Format}

def zero : Binary f := ⟨false, 0⟩

instance : Inhabited (Binary f) := ⟨zero⟩

def infinity (negative : Bool) : Binary f := ⟨negative, f.infinity⟩

/-- The one quiet value that is not a number. -/
def nan : Binary f := ⟨false, f.infinity + f.binade / 2⟩

def isNaN (x : Binary f) : Bool := decide (f.infinity < x.magnitude)

def isFinite (x : Binary f) : Bool := decide (x.magnitude < f.infinity)

/-- Both zeros. -/
def isZero (x : Binary f) : Bool := x.magnitude == 0

def neg (x : Binary f) : Binary f := { x with negative := !x.negative }

instance : Neg (Binary f) := ⟨neg⟩

/-- Numeric equality: the zeros are equal and what is not a number differs from everything. -/
protected def beq (x y : Binary f) : Bool :=
  !x.isNaN && !y.isNaN &&
    ((x.isZero && y.isZero) || (x.negative == y.negative && x.magnitude == y.magnitude))

instance : BEq (Binary f) := ⟨Binary.beq⟩

/-- Less than zero. -/
def isNegative (x : Binary f) : Bool := !x.isNaN && !x.isZero && x.negative

/-- Greater than zero. -/
def isPositive (x : Binary f) : Bool := !x.isNaN && !x.isZero && !x.negative

/-- The number nearest to `num / den`, with a sign. -/
def ofRatio (negative : Bool) (num den : Nat) : Binary f := ⟨negative, f.round num den⟩

/-- The number nearest to an integer. -/
def ofInt (n : Int) : Binary f := ofRatio (decide (n < 0)) n.natAbs 1

/-- The value as a numerator and a denominator, its sign aside; meant for finite numbers. -/
def ratio (x : Binary f) : Nat × Nat := f.ratio x.magnitude

/-- The integer a number is equal to, if there is one. -/
def integer? (x : Binary f) : Option Int :=
  if x.isFinite then
    let (num, den) := x.ratio
    if num % den = 0 then some (if x.negative then -(num / den : Nat) else (num / den : Nat))
    else none
  else none

/-- The nearest number of another format. -/
def convert (g : Format) (x : Binary f) : Binary g :=
  if x.isNaN then nan
  else if x.isFinite then ofRatio x.negative x.ratio.1 x.ratio.2
  else infinity x.negative

end Binary

namespace Single

def one : Single := ⟨false, 0x3F800000⟩

/-- The machine number with the same bits. -/
def toFloat32 (x : Single) : Float32 :=
  Float32.ofBits (UInt32.ofNat (if x.negative then 0x80000000 + x.magnitude else x.magnitude))

/-- The number with the bits of a machine number. -/
def ofFloat32 (x : Float32) : Single :=
  let bits := x.toBits.toNat
  ⟨decide (0x80000000 ≤ bits), bits % 0x80000000⟩

end Single

end MotionScript
