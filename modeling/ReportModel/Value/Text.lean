import ReportModel.Number.Layout
import ReportModel.Text.Quoted
import ReportModel.Value.Basic

/-!
# Values as text

A value has a short text, which stands in dumps, and a description, which names its sort and stands
in messages.
-/

namespace ReportModel

def Dimension.text (d : Dimension) : String :=
  Layout.plain.text .double d.measure ++ d.units

def bracketed (items : List String) : String :=
  "[" ++ ", ".intercalate items ++ "]"

namespace Value

def text : Value → String
  | .string s => Text.quote s
  | .integer n => toString n
  | .float x => Layout.plain.text .double x
  | .boolean b => if b then "true" else "false"
  | .choice s | .color s => s
  | .expression s => "expr(" ++ s ++ ")"
  | .dimension d => d.text
  | .structList items => "[" ++ toString items.length ++ " structures]"
  | .bytes data => "<" ++ toString data.length ++ " bytes>"

mutual

/-- The description of a value: its sort and, in parentheses, what it holds. -/
def describe : Value → String
  | .string s => "String(" ++ Text.quote s ++ ")"
  | .integer n => "Integer(" ++ toString n ++ ")"
  | .float x => "Float(" ++ Layout.described.text .double x ++ ")"
  | .boolean b => "Boolean(" ++ (if b then "true" else "false") ++ ")"
  | .choice s => "Choice(" ++ Text.quote s ++ ")"
  | .expression s => "Expression(" ++ Text.quote s ++ ")"
  | .dimension d =>
    "Dimension(Dimension \x7b measure: " ++ Layout.described.text .double d.measure ++
      ", units: " ++ Text.quote d.units ++ " \x7d)"
  | .color s => "Color(" ++ Text.quote s ++ ")"
  | .structList items => "StructList(" ++ bracketed (describeItems items) ++ ")"
  | .bytes data => "Bytes(" ++ bracketed (data.map fun b => toString b.toNat) ++ ")"

def describeItems : List (List (String × Value)) → List String
  | [] => []
  | item :: items =>
    ("\x7b" ++ ", ".intercalate (describeFields item) ++ "\x7d") :: describeItems items

def describeFields : List (String × Value) → List String
  | [] => []
  | (name, value) :: fields =>
    (Text.quote name ++ ": " ++ describe value) :: describeFields fields

end

end Value

end ReportModel
