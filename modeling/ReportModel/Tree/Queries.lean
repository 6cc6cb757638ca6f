import ReportModel.Tree.Basic

/-!
# Queries of a tree

What stands below a slot of the root, and searches among the attached elements.
-/

namespace ReportModel.Tree

variable (t : Tree)

/-- The elements in a slot of the root and all inside them. -/
def slotDescendants (slot : String) : List ElementId :=
  (t.contents t.root slot).flatMap t.walk

/-- The local values of a property below a slot of the root that are texts. -/
def collect (slot property : String) : List String :=
  (t.slotDescendants slot).filterMap fun id => (t.get? id).bind (·.text? property)

def templateItemsUpTo : Nat → ElementId → List ElementId
  | 0, _ => []
  | fuel + 1, id =>
    match t.get? id with
    | none => []
    | some e =>
      if (e.value? Vocabulary.templateProperty).isSome then [id]
      else e.children.flatMap (templateItemsUpTo fuel)

/-- The items below some slots of the root that are made from a template, without those inside
another such item. -/
def templateItems (slots : List String) : List ElementId :=
  slots.flatMap fun slot =>
    (t.contents t.root slot).flatMap (t.templateItemsUpTo t.elements.capacity)

def ofType (typeName : String) : List ElementId :=
  t.attached.filter fun id => (t.get? id).any (·.typeName = typeName)

/-- The first attached element of a name, whatever its name space. -/
def findAny (name : String) : Option ElementId :=
  t.attached.find? fun id => (t.get? id).bind (·.name) = some name

end ReportModel.Tree
