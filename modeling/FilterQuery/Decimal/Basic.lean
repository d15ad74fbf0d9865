/-!
# Decimal numbers

A decimal number is a natural number of digits with a power of ten, and a binary one the same with a
power of two. The value of a binary floating-point number is read off its bits exactly. From a
decimal one gets to a floating-point number in two ways: to the nearest one, or with less work to
one close by.
-/
namespace FilterQuery

/-- The number `digits * 10 ^ exponent`. -/
structure Decimal where
  digits : Nat
  exponent : Int
  deriving DecidableEq, Repr

/-- The number `significand * 2 ^ exponent`. -/
structure Binary where
  significand : Nat
  exponent : Int
  deriving DecidableEq, Repr

namespace Binary

/-- The least significand of full precision, 2⁵²; smaller ones have the least exponent. -/
def normal : Nat := 0x10000000000000

/-- The magnitude that the 64 bits of a finite floating-point number stand for: a fraction of 52
bits, and above it an exponent of 11 bits. -/
def ofBits (bits : UInt64) : Binary :=
  let fraction := bits.toNat % normal
  let stored : Nat := bits.toNat / normal % 0x800
  if stored = 0 then ⟨fraction, -1074⟩ else ⟨normal + fraction, (stored : Int) - 1075⟩

end Binary

def isNegative (x : Float) : Bool := 0x8000000000000000 ≤ x.toBits.toNat

/-- The decimal digits of a natural number. -/
def digitChars (n : Nat) : List Char := Nat.toDigits 10 n

/-- The digits of an integer, after a minus sign if it is below zero. -/
def integerChars (i : Int) : List Char :=
  if i < 0 then '-' :: digitChars i.natAbs else digitChars i.natAbs

namespace Decimal

/-- The exponent of the leading digit. -/
def leading (d : Decimal) : Int := d.exponent + (digitChars d.digits).length - 1

/-- The same number without zeros at the end of its digits; `fuel` bounds their count. -/
def strip : Nat → Decimal → Decimal
  | 0, d => d
  | fuel + 1, d =>
    if d.digits ≠ 0 ∧ d.digits % 10 = 0 then strip fuel ⟨d.digits / 10, d.exponent + 1⟩ else d

/-- The nearest floating-point number. Decimals far outside the range are decided by their
leading digit. -/
def toFloat (d : Decimal) : Float :=
  if d.digits = 0 ∨ d.leading < -400 then 0
  else if 400 < d.leading then 1 / 0
  else Float.ofScientific d.digits (d.exponent < 0) d.exponent.natAbs

/-- A power of ten as a floating-point number. -/
def powerOfTen (n : Nat) : Float := toFloat ⟨1, n⟩

/-- `x * 10 ^ places`. Where the power has no floating-point number, zero alone stays in range. -/
def raised (x : Float) (places : Nat) : Float :=
  if places ≤ 308 then x * powerOfTen places else if x == 0 then x else 1 / 0

/-- `x / 10 ^ places`, by 308 places at once. -/
def lowered (x : Float) (places : Nat) : Float :=
  if places ≤ 308 then x / powerOfTen places
  else if x == 0 then x
  else lowered (x / powerOfTen 308) (places - 308)
termination_by places

/-- The floating-point number in one product or quotient. The digits, the power of ten and the
result are each rounded, so it need not be the nearest one, and it leaves the range a little
earlier. -/
def approximate (d : Decimal) : Float :=
  let x := toFloat ⟨d.digits, 0⟩
  if 0 ≤ d.exponent then raised x d.exponent.toNat else lowered x (-d.exponent).toNat

end Decimal

end FilterQuery
