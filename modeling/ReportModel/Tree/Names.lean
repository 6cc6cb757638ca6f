import ReportModel.Tree.Basic
import ReportModel.ListEdit

/-!
# Names in a tree

Where the name of an element must be unique depends on the slot it is in: nowhere, in that slot, or
in the module among the elements of one name space. For the last case the tree keeps an index, which
attaching, detaching and renaming bring up to date.
-/

namespace ReportModel.Tree

variable (t : Tree)

/-- The attached element of a name in a name space. -/
def find (space name : String) : Option ElementId :=
  t.names.get? ⟨space, name⟩

/-- Where the names in a slot of an element must be unique. -/
def slotScope (container : ElementId) (slot : String) : NameScope :=
  match (t.get? container).bind fun e => t.dictionary.slot? e.typeName slot with
  | some definition => definition.scope
  | none => .none

def nameKey (id : ElementId) (place : Place) (name : String) : Option NameKey :=
  if t.slotScope place.container place.slot = .module then
    (t.get? id).bind fun e => (t.dictionary.nameSpace e.typeName).map fun space => ⟨space, name⟩
  else none

def indexKey (id : ElementId) : Option NameKey :=
  (t.get? id).bind fun e =>
    e.name.bind fun name => e.place.bind fun place => t.nameKey id place name

/-- Whether another element has a name that this one would have at a place. -/
def nameConflicts (id : ElementId) (place : Place) (name : String) : Bool :=
  match t.slotScope place.container place.slot with
  | .none => false
  | .slot =>
    (t.contents place.container place.slot).any fun sibling =>
      sibling ≠ id && (t.get? sibling).bind (·.name) = some name
  | .module => ((t.nameKey id place name).bind t.names.get?).any (· ≠ id)

def enter (t : Tree) (id : ElementId) : Tree :=
  match t.indexKey id with
  | some key => { t with names := t.names.insert key id }
  | none => t

/-- The tree with an element struck from the index, if it is the one found there. -/
def strike (t : Tree) (id : ElementId) : Tree :=
  match t.indexKey id with
  | some key => if t.names.get? key = some id then { t with names := t.names.erase key } else t
  | none => t

def enterAll (id : ElementId) : Tree :=
  (t.walk id).foldl enter t

def strikeAll (id : ElementId) : Tree :=
  (t.walk id).foldl strike t

/-- The tree with an element put at an index of a slot, or at the end if the slot is shorter. -/
def attach (id : ElementId) (place : Place) (index : Nat) : Tree :=
  if ((t.get? place.container).bind (·.slot? place.slot)).isSome then
    let held := t.modify place.container (·.withSlot place.slot (insertAt index id))
    let placed := held.modify id fun e => { e with place := some place }
    if placed.isAttached place.container then placed.enterAll id else placed
  else t

def detach (id : ElementId) : Tree :=
  match (t.get? id).bind (·.place) with
  | none => t
  | some place =>
    let struck := if t.isAttached id then t.strikeAll id else t
    if (struck.contents place.container place.slot).contains id then
      (struck.modify place.container (·.withSlot place.slot (·.erase id))).modify id
        fun e => { e with place := none }
    else struck

def rename (id : ElementId) (name : Option String) : Tree :=
  let change (t : Tree) := t.modify id fun e => { e with name := name }
  if t.isAttached id then (change (t.strike id)).enter id else change t

def eraseAll (id : ElementId) : Tree :=
  { t with elements := (t.walk id).foldl Arena.erase t.elements }

end ReportModel.Tree
