import ReportModel.Editor.History
import ReportModel.Error

/-!
# Editors

An editor is a document with its history. Operations are actions, which change the editor and may
fail. Every change goes through `execute`, inside a transaction; `transact` gives an action a
transaction of its own, nested in those already open, and takes its changes back if it fails. Each
operation starts with `ensureMutable`, so that it is refused while listeners are being told of an
event.
-/

namespace ReportModel

/-- A document and its history. -/
structure Editor where
  document : Document
  history : History
  /-- What the last outermost commit, undo or redo has to tell listeners. -/
  announced : Option Event := none

/-- An operation on an editor, which may fail. What it did before it fails is not taken back by
itself. -/
abbrev Action := EStateM DesignError Editor

namespace Action

variable {α : Type} (notifying : Bool)

def document : Action Document := do
  return (← get).document

def demand (error : DesignError) : Option α → Action α
  | some a => pure a
  | none => throw error

def refuse (condition : Bool) (error : DesignError) : Action Unit :=
  if condition then throw error else pure ()

def lift (result : Except DesignError α) : Action α :=
  match result with
  | .ok a => pure a
  | .error error => throw error

def existing (id : ElementId) : Action Element := do
  demand (.elementNotFound id) ((← document).get? id)

/-- Fails while listeners are being notified. -/
def ensureMutable : Action Unit :=
  refuse notifying .reentrantMutation

def start (label : String) : Action Unit := do
  ensureMutable notifying
  modify fun editor => { editor with history := editor.history.start label }

/-- Makes an edit and records it in the innermost transaction. -/
def execute (edit : Edit) : Action Unit := do
  let editor ← get
  let history ← demand .noOpenTransaction (editor.history.record edit)
  set { editor with history, document := edit.apply editor.document }

def executeAll : List Edit → Action Unit
  | [] => pure ()
  | edit :: rest => do
    execute edit
    executeAll rest

/-- Closes the innermost transaction. The outermost one becomes a revision, and is announced. -/
def commit : Action Unit := do
  ensureMutable notifying
  let editor ← get
  let (history, closed) ← demand .noOpenTransaction editor.history.commit
  match closed with
  | some revision => set { editor with history, announced := some (revision.event .commit) }
  | none => set { editor with history }

/-- Closes the innermost transaction and takes its changes back. -/
def rollback : Action Unit := do
  ensureMutable notifying
  let editor ← get
  match editor.history.current with
  | [] => throw .noOpenTransaction
  | revision :: outer =>
    set { editor with
      history := { editor.history with current := outer }
      document := Edit.revertAll revision.edits editor.document }

/-- Runs an action in a transaction of its own. -/
def transact (label : String) (body : Action α) : Action α := do
  start notifying label
  fun editor =>
    match body editor with
    | .ok a editor => (commit notifying *> pure a) editor
    | .error error editor => (rollback notifying *> throw error) editor

def refuseInside (operation : Exclusive) : Action Unit := do
  refuse (0 < (← get).history.depth) (.transactionOpen operation)

def undo : Action Unit := do
  ensureMutable notifying
  refuseInside .undo
  let editor ← get
  match editor.history.undo with
  | [] => throw .nothingToUndo
  | revision :: rest =>
    set { editor with
      document := Edit.revertAll revision.edits editor.document
      history := { editor.history with undo := rest, redo := revision :: editor.history.redo }
      announced := some (revision.event .undo) }

def redo : Action Unit := do
  ensureMutable notifying
  refuseInside .redo
  let editor ← get
  match editor.history.redo with
  | [] => throw .nothingToRedo
  | revision :: rest =>
    set { editor with
      document := Edit.applyAll revision.edits editor.document
      history := { editor.history with redo := rest }.pushUndo revision
      announced := some (revision.event .redo) }

def clearHistory : Action Unit := do
  ensureMutable notifying
  modify fun editor => { editor with history := editor.history.clear }

end Action

end ReportModel
