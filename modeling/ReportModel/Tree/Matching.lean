import ReportModel.Tree.Basic

/-!
# Selectors and elements

A type in a selector is the type of the element in any case, a class the style it names, an id its
name. Pseudo-classes speak of a state that a design does not have, and match nothing.
-/

namespace ReportModel

/-- Equality of texts up to the case of ASCII letters. -/
def equalIgnoringCase (s t : String) : Bool :=
  s.toList.map Char.toLower = t.toList.map Char.toLower

namespace Css

def Component.holds (component : Component) (e : Element) : Bool :=
  match component with
  | .ofType name => equalIgnoringCase e.typeName name
  | .ofClass name => e.text? Vocabulary.styleProperty = some name
  | .ofId name => e.name = some name
  | .universal => true
  | .ofPseudo _ => false

def holdsAt (t : Tree) (compound : Compound) (id : ElementId) : Bool :=
  (t.get? id).any fun e => compound.all (·.holds e)

def Selector.describes (t : Tree) : Selector → ElementId → Bool
  | .compound conditions, id => holdsAt t conditions id
  | .within outer combinator conditions, id =>
    holdsAt t conditions id &&
      match combinator with
      | .child => (t.parent id).any (outer.describes t)
      | .descendant => (t.ancestors id).any (outer.describes t)

/-- Of two candidates the one of the greater rank, the later one if the ranks are equal. -/
def preferred (best : Option (Specificity × Value)) (new : Specificity × Value) :
    Option (Specificity × Value) :=
  match best with
  | some old => if new.1.compare old.1 = .lt then some old else some new
  | none => some new

def StyleSheet.resolve (sheet : StyleSheet) (property : String) (t : Tree) (id : ElementId) :
    Option Value :=
  let candidates := sheet.styles.filterMap fun style =>
    match style.property? property with
    | some value => if style.selector.describes t id then some (style.rank, value) else none
    | none => none
  (candidates.foldl preferred none).map (·.2)

end Css

end ReportModel
