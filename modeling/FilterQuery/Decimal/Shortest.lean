import FilterQuery.Decimal.Basic

/-!
# Shortest digits

The fewest decimal digits that identify a floating-point number: the first decimal grid, from coarse
to fine, that has a point among the reals which round to the number. Of two such points the nearer
is taken.
-/
namespace FilterQuery

/-- Which of two equally near decimals is taken. -/
inductive Tie where
  | toEven
  | up
  deriving DecidableEq, Repr

namespace Binary

/-- The reals that round to the number reach down this far, in quarters of its last place. The
spacing below a power of two is half of that above. -/
def low (b : Binary) : Nat :=
  if b.significand = Binary.normal ∧ -1074 < b.exponent then 4 * b.significand - 1
  else 4 * b.significand - 2

/-- The reals that round to the number reach up this far, in quarters of its last place. -/
def high (b : Binary) : Nat := 4 * b.significand + 2

/-- One step of the decimal grid of exponent `k`, on the common scale of `quarters`. -/
def step (b : Binary) (k : Int) : Nat := Nat.pow 10 k.toNat * Nat.pow 2 (2 - b.exponent).toNat

/-- A number of quarters of the last place, on the common scale of `step`. -/
def quarters (b : Binary) (k : Int) (n : Nat) : Nat :=
  n * (Nat.pow 2 (b.exponent - 2).toNat * Nat.pow 10 (-k).toNat)

/-- A point of the grid lies among the reals that round to the number. Their ends belong to them
when the significand is even. -/
def accepts (b : Binary) (k : Int) (d : Nat) : Bool :=
  let point := d * b.step k
  if b.significand % 2 = 0 then b.quarters k b.low ≤ point && point ≤ b.quarters k b.high
  else b.quarters k b.low < point && point < b.quarters k b.high

/-- The point of the grid of exponent `k` that stands for the number, if one does. -/
def onGrid (b : Binary) (tie : Tie) (k : Int) : Option Nat :=
  let value := b.quarters k (4 * b.significand)
  let below := value / b.step k
  let twice := 2 * (value % b.step k)
  match b.accepts k below, b.accepts k (below + 1) with
  | false, false => none
  | true, false => some below
  | false, true => some (below + 1)
  | true, true =>
    if twice < b.step k then some below
    else if b.step k < twice then some (below + 1)
    else match tie with
      | .toEven => some (if below % 2 = 0 then below else below + 1)
      | .up => some (below + 1)

/-- The exponent of the leading decimal digit of a number above zero. -/
def leading (b : Binary) : Int :=
  let numerator := b.significand * Nat.pow 2 b.exponent.toNat
  let denominator := Nat.pow 2 (-b.exponent).toNat
  let guess : Int := (digitChars numerator).length - (digitChars denominator).length
  if denominator * Nat.pow 10 guess.toNat ≤ numerator * Nat.pow 10 (-guess).toNat then guess
  else guess - 1

/-- The shortest decimal that rounds to the number; seventeen digits always suffice. -/
def shortest (b : Binary) (tie : Tie) : Decimal :=
  if b.significand = 0 then ⟨0, 0⟩
  else
    let found := (List.range 17).findSome? fun (n : Nat) =>
      let k := b.leading - n
      (b.onGrid tie k).map fun d => Decimal.strip 17 ⟨d, k⟩
    found.getD ⟨0, 0⟩

end Binary

end FilterQuery
