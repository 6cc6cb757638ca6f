import ReportModel.Number.Reading
import ReportModel.Text.Blank
import ReportModel.Value.Text

/-!
# Kinds of properties

A property declares a kind. Normalization accepts the values of that kind, reads the texts that
denote one, and refuses everything else; a text becomes the value it denotes.
-/

namespace ReportModel

inductive Kind where
  | string
  | integer
  | float
  | boolean
  /-- One of a list of names. -/
  | choice (names : List String)
  | expression
  | dimension
  | color
  | structList
  | bytes
deriving DecidableEq, Repr, Inhabited

/-- The name of a kind in messages, with the names of a choice. -/
def Kind.describe : Kind → String
  | .string => "String"
  | .integer => "Integer"
  | .float => "Float"
  | .boolean => "Boolean"
  | .choice names => "Choice(" ++ bracketed (names.map Text.quote) ++ ")"
  | .expression => "Expression"
  | .dimension => "Dimension"
  | .color => "Color"
  | .structList => "StructList"
  | .bytes => "Bytes"

inductive ValueFault where
  | notInteger (text : String)
  | notNumber (text : String)
  | notBoolean (text : String)
  | notAmong (text : String) (names : List String)
  | unknownUnit (units : String)
  | notDimension (text : String)
  | notColor (text : String)
  | misfit (value : Value) (kind : Kind)
  /-- A stylesheet declares the property without a value. -/
  | emptyValue
  /-- Elements of the type cannot be without a name. -/
  | unnamed (typeName : String)
deriving DecidableEq, Repr

/-- The text of a fault. -/
def ValueFault.message : ValueFault → String
  | .notInteger s => "expected integer, got " ++ Text.quote s
  | .notNumber s => "expected number, got " ++ Text.quote s
  | .notBoolean s => "expected boolean, got " ++ Text.quote s
  | .notAmong s names => Text.quote s ++ " is not one of [" ++ ", ".intercalate names ++ "]"
  | .unknownUnit units => "unknown unit " ++ Text.quote units
  | .notDimension s => "expected dimension, got " ++ Text.quote s
  | .notColor s => "expected color, got " ++ Text.quote s
  | .misfit value kind => value.describe ++ " does not fit kind " ++ kind.describe
  | .emptyValue => "empty value"
  | .unnamed typeName => typeName ++ " elements must be named"

namespace Dimension

def knownUnits : List String :=
  ["in", "cm", "mm", "pt", "pc", "px", "em", "ex", "%"]

/-- Splits a text before the first character that cannot belong to its leading number. -/
def splitMeasure (cs : List Char) : List Char × List Char :=
  let isPart (c : Char) := c.isDigit || c = '.'
  match cs with
  | '-' :: rest => ('-' :: rest.takeWhile isPart, rest.dropWhile isPart)
  | cs => (cs.takeWhile isPart, cs.dropWhile isPart)

/-- The dimension that a text denotes: a number directly followed by a known unit in any case, with
blanks around. -/
def read (s : String) : Option Dimension :=
  let (measure, units) := splitMeasure (Text.trimChars s.toList)
  let units := String.ofList (units.map Char.toLower)
  if !measure.isEmpty && knownUnits.contains units then
    (Format.double.readChars measure).map fun x => ⟨x, units⟩
  else none

end Dimension

def isHexDigit (c : Char) : Bool :=
  c.isDigit || ('a' ≤ c && c ≤ 'f') || ('A' ≤ c && c ≤ 'F')

/-- The colour that a text denotes, in lower case: `#` with three or six hexadecimal digits, or a
word of ASCII letters. -/
def readColor (s : String) : Option String :=
  let cs := Text.trimChars s.toList
  let valid := match cs with
    | '#' :: hex => (hex.length = 3 || hex.length = 6) && hex.all isHexDigit
    | cs => !cs.isEmpty && cs.all Char.isAlpha
  if valid then some (String.ofList (cs.map Char.toLower)) else none

def readBoolean (s : String) : Except ValueFault Bool :=
  let word := Text.trim s
  if word = "true" then .ok true
  else if word = "false" then .ok false
  else .error (.notBoolean word)

def orFault {α : Type} (fault : ValueFault) : Option α → Except ValueFault α
  | some a => .ok a
  | none => .error fault

namespace Kind

/-- The value of this kind that a value stands for. -/
def normalize (kind : Kind) (value : Value) : Except ValueFault Value :=
  match kind, value with
  | .string, .string s => .ok (.string s)
  | .integer, .integer n => .ok (.integer n)
  | .integer, .string s => (orFault (.notInteger s) (readInteger (Text.trim s))).map .integer
  | .float, .float x => .ok (.float x)
  | .float, .integer n => .ok (.float (Format.double.ofInt n))
  | .float, .string s => (orFault (.notNumber s) (Format.double.read (Text.trim s))).map .float
  | .boolean, .boolean b => .ok (.boolean b)
  | .boolean, .string s => (readBoolean s).map .boolean
  | .choice names, .string s | .choice names, .choice s =>
    if names.contains s then .ok (.choice s) else .error (.notAmong s names)
  | .expression, .string s | .expression, .expression s => .ok (.expression s)
  | .dimension, .dimension d =>
    if Dimension.knownUnits.contains d.units then .ok (.dimension d)
    else .error (.unknownUnit d.units)
  | .dimension, .string s => (orFault (.notDimension s) (Dimension.read s)).map .dimension
  | .color, .string s | .color, .color s => (orFault (.notColor s) (readColor s)).map .color
  | .structList, .structList items => .ok (.structList items)
  | .bytes, .bytes data => .ok (.bytes data)
  | kind, value => .error (.misfit value kind)

end Kind

end ReportModel
