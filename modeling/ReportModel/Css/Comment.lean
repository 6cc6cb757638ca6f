/-!
# Comments

A comment is read as one blank. A comment without an end takes the rest of the text.
-/

namespace ReportModel.Css

/-- A text with each comment replaced by a blank; `inside` tells whether the text starts inside a
comment, whose blank has been written already. -/
def stripFrom (inside : Bool) : List Char → List Char
  | [] => []
  | [c] => if inside then [] else [c]
  | c :: d :: rest =>
    if inside then
      if c = '*' && d = '/' then stripFrom false rest else stripFrom true (d :: rest)
    else
      if c = '/' && d = '*' then ' ' :: stripFrom true rest else c :: stripFrom false (d :: rest)

/-- A text with each comment replaced by a blank. -/
def stripComments (cs : List Char) : List Char :=
  stripFrom false cs

end ReportModel.Css
