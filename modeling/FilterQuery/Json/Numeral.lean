import FilterQuery.Decimal.Basic
import FilterQuery.Json.Basic

/-!
# Numerals

A numeral has no zero before other digits, and digits after a point or an exponent mark. Without
point and exponent it stands for an integer if the integer is in range, else for a floating-point
number. A zero with a minus sign is a floating-point number. Floating-point numbers are made of as
many digits as 64 bits hold, so not all of them are the nearest ones.
-/
namespace FilterQuery

/-- A floating-point number with a sign, unless it is out of range. -/
def Number.ofMagnitude (negative : Bool) (magnitude : Float) : Number :=
  let x := if negative then -magnitude else magnitude
  if x.isFinite then .float x else .overflow

theorem Number.isFinite_of_ofMagnitude {negative : Bool} {magnitude x : Float}
    (h : Number.ofMagnitude negative magnitude = .float x) : x.isFinite = true := by
  simp only [Number.ofMagnitude] at h
  generalize (if negative = true then -magnitude else magnitude) = y at h
  by_cases hy : y.isFinite = true
  · rw [if_pos hy] at h
    injection h with h
    exact h ▸ hy
  · rw [if_neg hy] at h
    exact Number.noConfusion h

end FilterQuery

namespace FilterQuery.Json

/-- A numeral as it is written: a sign, digits, digits after a point, and an exponent. -/
structure Numeral where
  negative : Bool
  whole : List Char
  fraction : Option (List Char)
  exponent : Option Int
  deriving DecidableEq, Repr

namespace Numeral

/-- The number that a list of digits denotes. -/
def ofDigits (ds : List Char) : Nat := ds.foldl (fun n c => 10 * n + (c.toNat - 48)) 0

/-- The digits at the front, and what follows them; there has to be one. -/
def someDigits (cs : List Char) : Option (List Char × List Char) :=
  match cs.takeWhile Char.isDigit with
  | [] => none
  | ds => some (ds, cs.dropWhile Char.isDigit)

/-- The digits before the point: a zero stands alone. -/
def scanWhole (cs : List Char) : Option (List Char × List Char) :=
  match someDigits cs with
  | some ('0' :: _ :: _, _) => none
  | found => found

/-- The digits after a point, if there is one. -/
def scanFraction : List Char → Option (Option (List Char) × List Char)
  | '.' :: cs => (someDigits cs).map fun (ds, rest) => (some ds, rest)
  | cs => some (none, cs)

/-- The exponent after its mark, if there is one. -/
def scanExponent : List Char → Option (Option Int × List Char)
  | c :: cs =>
    if c = 'e' || c = 'E' then
      let (sign, cs) : Int × List Char := match cs with
        | '-' :: cs => (-1, cs)
        | '+' :: cs => (1, cs)
        | cs => (1, cs)
      (someDigits cs).map fun (ds, rest) => (some (sign * ofDigits ds), rest)
    else some (none, c :: cs)
  | [] => some (none, [])

/-- The numeral at the front, and what follows it. -/
def scan (cs : List Char) : Option (Numeral × List Char) := do
  let (negative, cs) := match cs with
    | '-' :: cs => (true, cs)
    | cs => (false, cs)
  let (whole, cs) ← scanWhole cs
  let (fraction, cs) ← scanFraction cs
  let (exponent, cs) ← scanExponent cs
  pure (⟨negative, whole, fraction, exponent⟩, cs)

/-- Digits are put behind a number as long as it fits into 64 bits. The others are left. -/
def gather (n : Nat) : List Char → Nat × List Char
  | [] => (n, [])
  | c :: cs =>
    let longer := 10 * n + (c.toNat - 48)
    if longer < 0x10000000000000000 then gather longer cs else (n, c :: cs)

/-- The magnitude as far as 64 bits hold it. Of a digit too many the place counts if it stands
before the point, and nothing if it stands after. -/
def magnitude (n : Numeral) : Decimal :=
  let places := n.fraction.getD []
  let (digits, beyond) := gather 0 n.whole
  let (digits, unread) := gather digits places
  ⟨digits, n.exponent.getD 0 + beyond.length - (places.length - unread.length : Nat)⟩

/-- There is neither a point nor an exponent. -/
def isPlain (n : Numeral) : Bool := n.fraction.isNone && n.exponent.isNone

def value (n : Numeral) : Number :=
  let digits := ofDigits n.whole
  if n.isPlain && !n.negative && digits < 0x10000000000000000 then .integer digits
  else if n.isPlain && n.negative && 0 < digits && digits ≤ 0x8000000000000000 then
    .integer (-digits)
  else Number.ofMagnitude n.negative n.magnitude.approximate

end Numeral

end FilterQuery.Json
