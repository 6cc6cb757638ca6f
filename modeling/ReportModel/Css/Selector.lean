/-!
# Selectors

A selector describes elements by their own traits and those of their containers. It is a compound of
conditions on the element, perhaps preceded by a selector for its container or for an element
further out.
-/

namespace ReportModel.Css

/-- A condition on one element. -/
inductive Component where
  | ofType (name : String)
  | universal
  | ofClass (name : String)
  | ofId (name : String)
  | ofPseudo (name : String)
deriving DecidableEq, Repr

/-- How the element of a selector lies below that of the selector in front. -/
inductive Combinator where
  | descendant
  | child
deriving DecidableEq, Repr

/-- Conditions on one element, all of which hold. -/
abbrev Compound := List Component

/-- Conditions on an element and on elements around it; the last compound is about the element
itself. -/
inductive Selector where
  | compound (conditions : Compound)
  | within (outer : Selector) (combinator : Combinator) (conditions : Compound)
deriving DecidableEq, Repr

def Component.text : Component → String
  | .ofType name => name
  | .universal => "*"
  | .ofClass name => "." ++ name
  | .ofId name => "#" ++ name
  | .ofPseudo name => ":" ++ name

def isUniversal (compound : Compound) : Bool :=
  compound = [.universal]

def compoundText (compound : Compound) : String :=
  String.join (compound.map Component.text)

def Combinator.text : Combinator → String
  | .descendant => " "
  | .child => " > "

namespace Selector

def text : Selector → String
  | .compound conditions => compoundText conditions
  | .within outer combinator conditions =>
    outer.text ++ combinator.text ++ compoundText conditions

/-- The name of the style that a rule with this selector gives: the class of a lone class, else the
selector as it is written. -/
def styleName : Selector → String
  | .compound [.ofClass name] => name
  | selector => selector.text

/-- The compounds of a selector, the outermost first. -/
def compounds : Selector → List Compound
  | .compound conditions => [conditions]
  | .within outer _ conditions => outer.compounds ++ [conditions]

def components (selector : Selector) : List Component :=
  selector.compounds.flatten

end Selector

end ReportModel.Css
