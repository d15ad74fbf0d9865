import FilterQuery.Decimal.Shortest

/-!
# Texts of floating-point numbers

A layout says which numbers are written without an exponent, whether a whole number keeps its `.0`,
and how a tie between two shortest decimals goes.
-/
namespace FilterQuery

/-- How the shortest decimal of a number is written. -/
structure Layout where
  /-- The exponents of the leading digit that are written without an exponent. -/
  positional : Int → Bool
  /-- A whole number without an exponent ends in `.0`. -/
  keepsPoint : Bool
  tie : Tie

namespace Layout

/-- Positional from 10⁻⁵ up to 10¹⁶, with a point at least, and a tie goes to the even digit. -/
def json : Layout := ⟨fun e => -5 ≤ e && e < 16, true, .toEven⟩

/-- Always positional, a whole number without a point, and a tie goes up. -/
def display : Layout := ⟨fun _ => true, false, .up⟩

/-- Digits with the point after the first `point` of them, filled with zeros where there are
none. -/
def placed (keepsPoint : Bool) (ds : List Char) (point : Int) : List Char :=
  if point ≤ 0 then '0' :: '.' :: (List.replicate (-point).toNat '0' ++ ds)
  else if ds.length ≤ point.toNat then
    ds ++ List.replicate (point.toNat - ds.length) '0' ++ if keepsPoint then ['.', '0'] else []
  else ds.take point.toNat ++ '.' :: ds.drop point.toNat

/-- One digit before the point, the others after it, and a signed exponent. -/
def scientific (ds : List Char) (exponent : Int) : List Char :=
  let fraction := match ds.drop 1 with
    | [] => []
    | others => '.' :: others
  ds.take 1 ++ fraction ++
    'e' :: (if exponent < 0 then '-' else '+') :: digitChars exponent.natAbs

/-- The text of a decimal that is not negative. -/
def decimalText (l : Layout) (d : Decimal) : List Char :=
  let ds := digitChars d.digits
  if l.positional d.leading then placed l.keepsPoint ds (d.leading + 1)
  else scientific ds d.leading

/-- The text of a number; the two infinities and the numbers that are none have names. -/
def text (l : Layout) (x : Float) : List Char :=
  if x.isNaN then ['N', 'a', 'N']
  else
    let sign := if isNegative x then ['-'] else []
    if x.isInf then sign ++ ['i', 'n', 'f']
    else sign ++ l.decimalText ((Binary.ofBits x.toBits).shortest l.tie)

end Layout

end FilterQuery
