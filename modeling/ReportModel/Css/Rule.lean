import ReportModel.Css.Selector
import ReportModel.Number.Layout

/-!
# Rules

A stylesheet is a list of rules, each with the selectors it applies to and its declarations.
-/

namespace ReportModel.Css

/-- One item of a declared value. Numbers are of 32 bits. -/
inductive Term where
  | ident (name : String)
  | number (x : Number)
  | dimension (x : Number) (units : String)
  /-- The digits of a hexadecimal colour. -/
  | color (hex : String)
  | string (text : String)
  | comma
deriving DecidableEq, Repr

/-- A property with the value declared for it. -/
structure Declaration where
  property : String
  values : List Term
  important : Bool
deriving DecidableEq, Repr

/-- Selectors and what is declared for the elements they describe. -/
structure Rule where
  selectors : List Selector
  declarations : List Declaration
deriving DecidableEq, Repr

def Term.text : Term → String
  | .ident s | .string s => s
  | .number x => Layout.plain.text .single x
  | .dimension x units => Layout.plain.text .single x ++ units
  | .color hex => "#" ++ hex
  | .comma => ","

/-- The text so far followed by one more item: a comma directly, anything else after a blank unless
it is the first. -/
def appendTerm (text : String) : Term → String
  | .comma => text ++ ","
  | term => (if text.isEmpty then text else text ++ " ") ++ term.text

def Declaration.valueText (declaration : Declaration) : String :=
  declaration.values.foldl appendTerm ""

end ReportModel.Css
