import ReportModel.Editor.Edit

/-!
# Events

What listeners are told about an outermost commit, an undo or a redo: the changes of the document in
the direction and order in which they were just made.
-/

namespace ReportModel

/-- A change as listeners see it. -/
inductive Change where
  | value (element : ElementId) (property : String) (old new : Option Value)
  | mask (element : ElementId) (property : String) (old new : Option Mask)
  | name (element : ElementId) (old new : Option String)
  | base (element : ElementId) (old new : Option Reference)
  /-- An element came into a slot, or left it. -/
  | content (element : ElementId) (place : Place) (added : Bool)
  | sheet (host : ElementId) (fileName : String)
  | library (nameSpace : String)
deriving DecidableEq

/-- The element that a change is about. -/
def Change.element? : Change → Option ElementId
  | .value element .. | .mask element .. | .name element .. | .base element ..
  | .content element .. => some element
  | .sheet host _ => some host
  | .library _ => none

def Edit.change : Edit → Change
  | .value element property old new => .value element property old new
  | .mask element property old new => .mask element property old new
  | .name element old new => .name element old new
  | .base element old new => .base element old new
  | .attach element place _ => .content element place true
  | .detach element place _ => .content element place false
  | .sheets host edit => .sheet host edit.item.fileName
  | .libraries edit => .library edit.item.nameSpace

/-- What made the changes of an event. -/
inductive EventKind where
  | commit
  | undo
  | redo
deriving DecidableEq, Repr

structure Event where
  kind : EventKind
  label : String
  changes : List Change
deriving DecidableEq

/-- A labelled group of edits that are undone and redone together, in the order they were made. -/
structure Revision where
  label : String
  edits : List Edit

namespace Revision

def touches (r : Revision) (ids : List ElementId) : Bool :=
  r.edits.any (·.touches ids)

/-- The event of a revision that was made, undone or redone. -/
def event (r : Revision) (kind : EventKind) : Event where
  kind := kind
  label := r.label
  changes := match kind with
    | .undo => r.edits.reverse.map fun edit => edit.inverse.change
    | .commit | .redo => r.edits.map Edit.change

end Revision

end ReportModel
