import ReportModel.Number.Basic

/-!
# Shortest decimals

The decimal with the fewest digits among those that round to a given number, and of these the one
nearest to it. The reals that round to a number form an interval, which holds its two ends exactly
if the significand is even; all comparisons are exact, in naturals.
-/

namespace ReportModel

/-- The decimal `digits * 10 ^ exponent`. -/
structure Decimal where
  digits : Nat
  exponent : Int
deriving DecidableEq, Repr

/-- Where a number exactly halfway between two decimals of equal length goes. -/
inductive Tie where
  | up
  | even
deriving DecidableEq, Repr

/-- Compares `a * 10 ^ i` with `b * 2 ^ j`. -/
def compareScaled (a : Nat) (i : Int) (b : Nat) (j : Int) : Ordering :=
  compare (a * Nat.pow 10 i.toNat * Nat.pow 2 (-j).toNat)
    (b * Nat.pow 2 j.toNat * Nat.pow 10 (-i).toNat)

namespace Format

variable (format : Format)

/-- Whether a decimal rounds to the number `significand * 2 ^ exponent`. Below a power of two the
neighbour is only half as far away as above it. -/
def readsBack (significand : Nat) (exponent : Int) (decimal : Decimal) : Bool :=
  let narrow := significand = Nat.pow 2 (format.precision - 1) && format.least < exponent
  let low := if narrow then 4 * significand - 1 else 4 * significand - 2
  let high := 4 * significand + 2
  let closed := significand % 2 = 0
  let above := compareScaled decimal.digits decimal.exponent low (exponent - 2)
  let below := compareScaled decimal.digits decimal.exponent high (exponent - 2)
  (above = .gt || (closed && above = .eq)) && (below = .lt || (closed && below = .eq))

/-- The least `k` such that the number is below `10 ^ k`. -/
def decimalScale (significand : Nat) (exponent : Int) : Int :=
  let guess := ((Nat.log2 significand : Int) + exponent) * 30103 / 100000
  let least := [guess - 1, guess, guess + 1].find? fun k =>
    compareScaled 1 k significand exponent = .gt
  least.getD (guess + 2)

/-- The decimal of a grid of powers of ten that rounds to the number, if there is one: of the two
neighbours on the grid the nearer. -/
def onGrid (tie : Tie) (significand : Nat) (exponent : Int) (grid : Int) : Option Decimal :=
  let num := significand * Nat.pow 2 exponent.toNat * Nat.pow 10 (-grid).toNat
  let den := Nat.pow 2 (-exponent).toNat * Nat.pow 10 grid.toNat
  let lower : Decimal := ⟨num / den, grid⟩
  let upper : Decimal := ⟨num / den + 1, grid⟩
  let fits := format.readsBack significand exponent
  match fits lower, fits upper with
  | false, false => none
  | true, false => some lower
  | false, true => some upper
  | true, true =>
    match compare (2 * (num % den)) den, tie with
    | .lt, _ => some lower
    | .gt, _ => some upper
    | .eq, .up => some upper
    | .eq, .even => if lower.digits % 2 = 0 then some lower else some upper

/-- How many digits always suffice to tell the numbers of the format apart. -/
def digitBound : Nat :=
  format.precision * 30103 / 100000 + 2

end Format

namespace Decimal

/-- The same decimal without zeros at the end of its digits; `fuel` bounds how many are taken. -/
def stripUpTo : Nat → Decimal → Decimal
  | 0, decimal => decimal
  | fuel + 1, decimal =>
    if decimal.digits % 10 = 0 then stripUpTo fuel ⟨decimal.digits / 10, decimal.exponent + 1⟩
    else decimal

def strip (decimal : Decimal) : Decimal :=
  stripUpTo (Nat.toDigits 10 decimal.digits).length decimal

end Decimal

namespace Format

variable (format : Format)

/-- The shortest decimal that rounds to the positive number `significand * 2 ^ exponent`. -/
def shortest (tie : Tie) (significand : Nat) (exponent : Int) : Decimal :=
  let scale := decimalScale significand exponent
  let found := (List.range' 1 format.digitBound).findSome? fun (count : Nat) =>
    format.onGrid tie significand exponent (scale - count)
  let exact : Decimal :=
    ⟨significand * Nat.pow 2 exponent.toNat * Nat.pow 5 (-exponent).toNat,
      -((-exponent).toNat : Int)⟩
  (found.getD exact).strip

end Format

end ReportModel
