/-!
# Binary numbers

A number is a sign, a whole significand and a power of two, or an infinity, or not a number. A
format bounds the significand and the exponent; `Format.round` gives the number of a format nearest
to a quotient of naturals, ties going to the even significand.
-/

namespace ReportModel

/-- A binary floating-point number. A finite one stands for `significand * 2 ^ exponent`. -/
inductive Number where
  | notANumber
  | infinite (negative : Bool)
  | finite (negative : Bool) (significand : Nat) (exponent : Int)
deriving DecidableEq, Repr, Inhabited

/-- A binary format: how many bits a significand has, and the exponents of the last place for the
smallest and for the largest numbers. -/
structure Format where
  precision : Nat
  least : Int
  greatest : Int
deriving DecidableEq, Repr

namespace Format

def double : Format := ⟨53, -1074, 971⟩

def single : Format := ⟨24, -149, 104⟩

end Format

/-- The quotient of two naturals rounded to the nearest natural, a tie to the even one. -/
def roundQuotient (num den : Nat) : Nat :=
  let q := num / den
  let r := num % den
  if 2 * r < den then q
  else if den < 2 * r then q + 1
  else if q % 2 = 0 then q else q + 1

/-- The quotient `num / den` in units of `2 ^ exponent`, again as a quotient. -/
def inUnits (num den : Nat) (exponent : Int) : Nat × Nat :=
  (num * Nat.pow 2 (-exponent).toNat, den * Nat.pow 2 exponent.toNat)

/-- The exponent of the leading bit of a positive quotient: the greatest `k` with
`2 ^ k ≤ num / den`. -/
def leadingBit (num den : Nat) : Int :=
  let guess : Int := (Nat.log2 num : Int) - (Nat.log2 den : Int)
  let (n, d) := inUnits num den guess
  if d ≤ n then guess else guess - 1

namespace Format

variable (format : Format)

def zero (negative : Bool) : Number :=
  .finite negative 0 format.least

/-- The number nearest to `num / den`, infinite if that is beyond the format's range. -/
def round (negative : Bool) (num den : Nat) : Number :=
  if num = 0 then format.zero negative
  else
    let exponent := max format.least (leadingBit num den - (format.precision - 1 : Nat))
    let (n, d) := inUnits num den exponent
    let significand := roundQuotient n d
    let carried := significand = Nat.pow 2 format.precision
    let exponent := if carried then exponent + 1 else exponent
    let significand := if carried then Nat.pow 2 (format.precision - 1) else significand
    if format.greatest < exponent then .infinite negative
    else .finite negative significand exponent

def ofInt (n : Int) : Number :=
  format.round (n < 0) n.natAbs 1

end Format

namespace Number

/-- Numerical equality: what is not a number equals nothing, and the two zeros are equal. -/
def same : Number → Number → Bool
  | .infinite a, .infinite b => a = b
  | .finite a m x, .finite b n y => (m = 0 && n = 0) || (a = b && m = n && x = y)
  | _, _ => false

end Number

end ReportModel
