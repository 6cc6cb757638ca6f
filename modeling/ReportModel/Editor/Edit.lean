import ReportModel.Document.Basic

/-!
# Edits

Every change of a document is an edit, which carries what it needs to be taken back. Edits are
checked before they are made, so that applying one cannot fail.
-/

namespace ReportModel

/-- A change of a document. -/
inductive Edit where
  | value (element : ElementId) (property : String) (old new : Option Value)
  | mask (element : ElementId) (property : String) (old new : Option Mask)
  | name (element : ElementId) (old new : Option String)
  | base (element : ElementId) (old new : Option Reference)
  | attach (element : ElementId) (place : Place) (index : Nat)
  | detach (element : ElementId) (place : Place) (index : Nat)
  | sheets (host : ElementId) (edit : ListEdit Css.Inclusion)
  | libraries (edit : ListEdit Library)

namespace Edit

def onTree (d : Document) (f : Tree → Tree) : Document :=
  { d with tree := f d.tree }

def apply (d : Document) : Edit → Document
  | .value element property _ new =>
    onTree d (·.modify element fun e => { e with values := e.values.put property new })
  | .mask element property _ new =>
    onTree d (·.modify element fun e => { e with masks := e.masks.put property new })
  | .name element _ new => onTree d (·.rename element new)
  | .base element _ new => onTree d (·.modify element fun e => { e with base := new })
  | .attach element place index => onTree d (·.attach element place index)
  | .detach element _ _ => onTree d (·.detach element)
  | .sheets host edit => onTree d (·.modify host fun e => { e with sheets := edit.apply e.sheets })
  | .libraries edit => { d with libraries := edit.apply d.libraries }

def inverse : Edit → Edit
  | .value element property old new => .value element property new old
  | .mask element property old new => .mask element property new old
  | .name element old new => .name element new old
  | .base element old new => .base element new old
  | .attach element place index => .detach element place index
  | .detach element place index => .attach element place index
  | .sheets host edit => .sheets host edit.inverse
  | .libraries edit => .libraries edit.inverse

@[simp]
theorem inverse_inverse (edit : Edit) : edit.inverse.inverse = edit := by
  cases edit <;> simp [inverse]

/-- Whether an edit speaks of one of some elements. -/
def touches (ids : List ElementId) : Edit → Bool
  | .value element .. | .mask element .. | .name element .. | .base element .. =>
    ids.contains element
  | .attach element place _ | .detach element place _ =>
    ids.contains element || ids.contains place.container
  | .sheets host _ => ids.contains host
  | .libraries _ => false

def applyAll (edits : List Edit) (d : Document) : Document :=
  edits.foldl apply d

/-- The document after some edits have been taken back, the last one first. -/
def revertAll (edits : List Edit) (d : Document) : Document :=
  edits.foldr (fun edit d => edit.inverse.apply d) d

end Edit

end ReportModel
