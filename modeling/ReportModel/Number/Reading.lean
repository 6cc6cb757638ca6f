import ReportModel.Number.Basic

/-!
# Reading numbers

A written number has an optional sign, then a name for an infinity or for what is not a number, or
digits with an optional point and an optional exponent of ten. It denotes the nearest number of the
format.
-/

namespace ReportModel

def digitsValue (cs : List Char) : Nat :=
  cs.foldl (fun value c => 10 * value + (c.toNat - '0'.toNat)) 0

namespace Format

variable (format : Format)

/-- The number nearest to `digits * 10 ^ exponent`. A decimal whose leading digit lies far beyond
the range of the format is not computed: it is infinite or zero. -/
def ofDecimal (negative : Bool) (digits : Nat) (exponent : Int) : Number :=
  let lead : Int := exponent + ((Nat.toDigits 10 digits).length : Int)
  if digits = 0 then format.zero negative
  else if format.greatest + format.precision < lead - 1 then .infinite negative
  else if lead < format.least - 1 then format.zero negative
  else format.round negative (digits * Nat.pow 10 exponent.toNat) (Nat.pow 10 (-exponent).toNat)

end Format

/-- A sign in front of a text, if it has one, and the rest. -/
def splitSign : List Char → Bool × List Char
  | '-' :: cs => (true, cs)
  | '+' :: cs => (false, cs)
  | cs => (false, cs)

/-- An exponent of ten: nothing, or the letter e, an optional sign, and at least one digit. -/
def readExponent : List Char → Option Int
  | [] => some 0
  | c :: cs =>
    if c = 'e' || c = 'E' then
      let (negative, digits) := splitSign cs
      if !digits.isEmpty && digits.all Char.isDigit then
        some (if negative then -(digitsValue digits : Int) else digitsValue digits)
      else none
    else none

/-- Digits with an optional point among them and an optional exponent: the digits as one natural
and the power of ten of the last of them. There is a digit before or after the point. -/
def readDecimal (cs : List Char) : Option (Nat × Int) :=
  let whole := cs.takeWhile Char.isDigit
  let rest := cs.dropWhile Char.isDigit
  let (fraction, rest) := match rest with
    | '.' :: rest => (rest.takeWhile Char.isDigit, rest.dropWhile Char.isDigit)
    | rest => ([], rest)
  if whole.isEmpty && fraction.isEmpty then none
  else (readExponent rest).map fun exponent =>
    (digitsValue (whole ++ fraction), exponent - fraction.length)

namespace Format

variable (format : Format)

def readChars (cs : List Char) : Option Number :=
  let (negative, body) := splitSign cs
  let word := String.ofList (body.map Char.toLower)
  if word = "inf" || word = "infinity" then some (.infinite negative)
  else if word = "nan" then some .notANumber
  else (readDecimal body).map fun (digits, exponent) => format.ofDecimal negative digits exponent

def read (s : String) : Option Number :=
  format.readChars s.toList

end Format

def inWordRange (n : Int) : Bool :=
  -0x8000000000000000 ≤ n && n < 0x8000000000000000

/-- An integer of 64 bits, written with an optional sign and at least one digit. -/
def readInteger (s : String) : Option Int :=
  let (negative, digits) := splitSign s.toList
  if !digits.isEmpty && digits.all Char.isDigit then
    let value : Int := if negative then -(digitsValue digits : Int) else digitsValue digits
    if inWordRange value then some value else none
  else none

end ReportModel
