import ReportModel.Number.Shortest

/-!
# Layout of numbers

How the shortest decimal of a number is laid out as text: positionally or with an exponent of ten,
with or without a point where the number is whole. A layout records these decisions.
-/

namespace ReportModel

/-- The decisions of a written form for numbers. -/
structure Layout where
  /-- The least power of ten of the leading digit that is still written positionally, if there is
  one. -/
  positionalFrom : Option Int
  /-- The least power of ten above those written positionally, if there is one. -/
  positionalBelow : Option Int
  /-- Whether a whole number written positionally keeps a point and a zero. -/
  pointZero : Bool
  /-- Whether an exponent that is not negative has a sign. -/
  plusSign : Bool
  /-- Where a number halfway between two shortest decimals goes. -/
  tie : Tie
  /-- The text for what is not a number, and that for a positive infinity. -/
  notANumber : String
  infinity : String
deriving Repr

namespace Layout

variable (layout : Layout)

/-- Whether a decimal whose leading digit has this power of ten is written positionally. -/
def isPositional (lead : Int) : Bool :=
  layout.positionalFrom.all (· ≤ lead) && layout.positionalBelow.all (lead < ·)

/-- Digits with a point in front of the last `-exponent` of them, or with zeros added. -/
def positional (digits : List Char) (exponent : Int) : List Char :=
  let point := digits.length + exponent
  if 0 ≤ exponent then
    digits ++ List.replicate exponent.toNat '0' ++ (if layout.pointZero then ['.', '0'] else [])
  else if 0 < point then
    digits.take point.toNat ++ '.' :: digits.drop point.toNat
  else
    '0' :: '.' :: List.replicate (-point).toNat '0' ++ digits

/-- The text of the power of ten of a leading digit. -/
def exponent (lead : Int) : List Char :=
  (if layout.plusSign && 0 ≤ lead then ['+'] else []) ++ (toString lead).toList

/-- Digits with a point after the first of them, and the power of ten of that one. -/
def scientific (digits : List Char) (lead : Int) : List Char :=
  let mantissa := match digits with
    | first :: second :: rest => first :: '.' :: second :: rest
    | digits => digits
  mantissa ++ 'e' :: layout.exponent lead

/-- A positive decimal without zeros at the end of its digits. -/
def decimal (decimal : Decimal) : List Char :=
  let digits := Nat.toDigits 10 decimal.digits
  let lead := digits.length + decimal.exponent - 1
  if layout.isPositional lead then layout.positional digits decimal.exponent
  else layout.scientific digits lead

def text (format : Format) : Number → String
  | .notANumber => layout.notANumber
  | .infinite negative => (if negative then "-" else "") ++ layout.infinity
  | .finite negative significand exponent =>
    let body :=
      if significand = 0 then layout.positional ['0'] 0
      else layout.decimal (format.shortest layout.tie significand exponent)
    (if negative then "-" else "") ++ String.ofList body

/-- The form of numbers in texts: always positional, and whole numbers without a point. -/
def plain : Layout where
  positionalFrom := none
  positionalBelow := none
  pointZero := false
  plusSign := false
  tie := .up
  notANumber := "NaN"
  infinity := "inf"

/-- The form of numbers in descriptions: positional from a ten-thousandth up to below ten to the
sixteenth, and with a point always. -/
def described : Layout where
  positionalFrom := some (-4)
  positionalBelow := some 16
  pointZero := true
  plusSign := false
  tie := .up
  notANumber := "NaN"
  infinity := "inf"

end Layout

end ReportModel
