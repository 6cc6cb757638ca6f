import ReportModel.Editor.Event

/-!
# Histories

Open transactions, innermost first, and the revisions that can be undone and redone, the next one
first. A nested transaction that closes becomes part of the one around it. An outermost one becomes
a revision if it changed anything, and what was undone before cannot be redone any more. At most
`limit` revisions can be undone, if the limit is not zero.
-/

namespace ReportModel

/-- The transactions and revisions of a module. -/
structure History where
  limit : Nat
  current : List Revision := []
  undo : List Revision := []
  redo : List Revision := []

namespace History

variable (h : History)

/-- How many transactions are open. -/
def depth : Nat :=
  h.current.length

def canUndo : Bool :=
  !h.undo.isEmpty

def canRedo : Bool :=
  !h.redo.isEmpty

def undoLabel : Option String :=
  h.undo.head?.map (·.label)

def redoLabel : Option String :=
  h.redo.head?.map (·.label)

def start (label : String) : History :=
  { h with current := ⟨label, []⟩ :: h.current }

/-- The history with an edit in the innermost transaction, if one is open. -/
def record (edit : Edit) : Option History :=
  match h.current with
  | [] => none
  | r :: outer => some { h with current := { r with edits := r.edits ++ [edit] } :: outer }

def pushUndo (r : Revision) : History :=
  let undo := r :: h.undo
  { h with undo := if h.limit = 0 then undo else undo.take h.limit }

/-- The history with the innermost transaction closed, and the transaction if it was the outermost
one. -/
def commit : Option (History × Option Revision) :=
  match h.current with
  | [] => none
  | [r] =>
    let closed := { h with current := [] }
    some (if r.edits.isEmpty then closed else { closed with redo := [] }.pushUndo r, some r)
  | r :: outer :: rest =>
    some ({ h with current := { outer with edits := outer.edits ++ r.edits } :: rest }, none)

def clear : History :=
  { h with undo := [], redo := [] }

/-- The revisions in front of the last one that speaks of one of some elements. -/
def forgetIn (ids : List ElementId) (revisions : List Revision) : List Revision :=
  revisions.takeWhile fun r => !r.touches ids

/-- The history without the revisions that cannot be replayed without some elements: those that
speak of them, and those behind. -/
def forget (ids : List ElementId) : History :=
  { h with undo := forgetIn ids h.undo, redo := forgetIn ids h.redo }

end History

end ReportModel
