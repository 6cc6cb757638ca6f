import ReportModel.Document.Bases
import ReportModel.Editor.Basic
import ReportModel.Tree.Naming

/-!
# Editing the tree

Elements are created detached, and are added to, dropped from and moved between slots. An element
that is added brings all that is inside it, and gets new names where names are taken; a rename to a
name that is taken is refused. Only discarding frees elements, and it is not undone.
-/

namespace ReportModel

namespace Document

variable (d : Document)

/-- The index at which an element may be added to a slot, at the end if none is asked for. -/
def checkAdd (id : ElementId) (place : Place) (index : Option Nat) :
    Except DesignError Nat := do
  let t := d.tree
  let some added := t.get? id | throw (.elementNotFound id)
  let some host := t.get? place.container | throw (.elementNotFound place.container)
  let some definition := t.dictionary.slot? host.typeName place.slot
    | throw (.content (.unknownSlot place.slot host.typeName))
  if !definition.allowed.any (t.dictionary.isKindOf added.typeName) then
    throw (.content (.wrongType place.slot added.typeName))
  let length := (t.contents place.container place.slot).length
  if !definition.multiple && 0 < length then
    throw (.content (.slotFull place.slot))
  if added.place.isSome || id = t.root then
    throw (.content .alreadyContained)
  if t.isWithin place.container id then
    throw (.content .wouldCycle)
  if !t.isAttached place.container then
    throw (.content .detachedContainer)
  let index := index.getD length
  if length < index then
    throw (.content (.indexOutOfRange index length))
  return index

end Document

def Rename.edit (rename : Rename) : Edit :=
  .name rename.element rename.old (some rename.new)

namespace Action

variable (notifying : Bool)

def checkBases : Action Unit := do
  match (← document).runawayReference? with
  | some reference => throw (.cyclicBase reference.text)
  | none => pure ()

/-- Creates a detached element. This is no change of the tree, and is not undone. -/
def create (typeName : String) (name : Option String) : Action ElementId := do
  ensureMutable notifying
  let editor ← get
  let d := editor.document
  refuse (!d.tree.dictionary.isConcrete typeName) (.unknownElementType typeName)
  set { editor with document := { d with tree := d.tree.create typeName name } }
  return d.tree.elements.nextId

def add (id : ElementId) (place : Place) (index : Option Nat) : Action Unit := do
  ensureMutable notifying
  let index ← lift ((← document).checkAdd id place index)
  transact notifying "add element" do
    executeAll (((← document).tree.planNames id place).map Rename.edit)
    execute (.attach id place index)
    checkBases

/-- Takes an element out of its slot. -/
def drop (id : ElementId) : Action Unit := do
  ensureMutable notifying
  let e ← existing id
  let place ← demand (.content .notContained) e.place
  let index ← demand (.content .notContained)
    (((← document).tree.contents place.container place.slot).idxOf? id)
  transact notifying "drop element" do
    execute (.detach id place index)

def move (id : ElementId) (place : Place) (index : Option Nat) : Action Unit :=
  transact notifying "move element" do
    drop notifying id
    add notifying id place index

/-- Frees a detached element and all inside it, and forgets the revisions that need them. -/
def discard (id : ElementId) : Action Unit := do
  ensureMutable notifying
  refuseInside .discard
  let editor ← get
  let d := editor.document
  refuse (id = d.root) (.content .alreadyContained)
  let e ← existing id
  refuse e.place.isSome (.content .alreadyContained)
  set { editor with
    document := { d with tree := d.tree.eraseAll id }
    history := editor.history.forget (d.tree.walk id) }

/-- Gives an element another name, or takes it away. -/
def rename (id : ElementId) (name : Option String) : Action Unit := do
  ensureMutable notifying
  let e ← existing id
  let t := (← document).tree
  refuse (name.isNone && t.dictionary.nameRequired e.typeName)
    (.property (.invalid "name" (.unnamed e.typeName)))
  match name, e.place with
  | some name, some place =>
    refuse (t.isAttached id && t.nameConflicts id place name) (.nameConflict name)
  | _, _ => pure ()
  if e.name ≠ name then
    transact notifying "rename element" do
      execute (.name id e.name name)
      checkBases

end Action

end ReportModel
