import ReportModel.Document.Bases
import ReportModel.Editor.Basic

/-!
# Editing properties

A property may be set or cleared if the type of the element defines it and nothing locks it. What is
stored is the normalized value. Setting what is already there is no change.
-/

namespace ReportModel

namespace Document

variable (d : Document)

/-- The definition of a property of an element that may be changed. -/
def checkWritable (id : ElementId) (property : String) : Except DesignError PropertyDef := do
  let some e := d.get? id | throw (.elementNotFound id)
  let some definition := d.tree.dictionary.property? e.typeName property
    | throw (.property (.unknown property))
  if definition.locked || (definition.lockable && d.isLocked id property) then
    throw (.lockedProperty id property)
  return definition

end Document

namespace Action

variable (notifying : Bool)

def setValue (id : ElementId) (property : String) (value : Value) : Action Unit := do
  ensureMutable notifying
  let definition ← lift ((← document).checkWritable id property)
  let e ← existing id
  let new ← lift ((definition.validate value).mapError .property)
  let old := e.value? property
  if !old.any (·.same new) then
    transact notifying "set property" do
      execute (.value id property old (some new))

def clearValue (id : ElementId) (property : String) : Action Unit := do
  ensureMutable notifying
  let _ ← lift ((← document).checkWritable id property)
  let e ← existing id
  match e.value? property with
  | none => pure ()
  | some old =>
    transact notifying "clear property" do
      execute (.value id property (some old) none)

def setMask (id : ElementId) (property : String) (mask : Option Mask) : Action Unit := do
  ensureMutable notifying
  let e ← existing id
  refuse ((← document).tree.dictionary.property? e.typeName property).isNone
    (.property (.unknown property))
  let old := e.mask? property
  if old ≠ mask then
    transact notifying "set property mask" do
      execute (.mask id property old mask)

end Action

end ReportModel
