/-!
# Property names

Stylesheets write the words of a property name with hyphens between them; the model writes them
together, each after the first with a capital letter.
-/

namespace ReportModel.Css

/-- The rest of a joined name. `started` tells whether the name has a character yet, `capital`
whether the next one begins a word. -/
def joinWords (started capital : Bool) : List Char → List Char
  | [] => []
  | c :: cs =>
    if c = '-' then joinWords started started cs
    else (if capital then c.toUpper else c) :: joinWords true false cs

/-- The name in the model of a property of stylesheets. -/
def modelName (name : String) : String :=
  String.ofList (joinWords false false name.toList)

end ReportModel.Css
