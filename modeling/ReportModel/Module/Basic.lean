import ReportModel.Module.Command
import ReportModel.Module.Listeners

/-!
# Modules

A module is an open design or library: a document with its history, and its listeners. A command is
carried out on the editor unless a round of notifications is going on, in which case it is refused.
An outermost commit, an undo and a redo are announced last of all, and the round that tells the
listeners comes after the command.
-/

namespace ReportModel

/-- How a module is opened. -/
structure Config where
  dictionary : Dictionary := Vocabulary.reports
  /-- How many revisions can be undone, zero if any number. -/
  undoLimit : Nat := 100
  /-- How many bases a chain of bases may have. -/
  depthLimit : Nat := 32

/-- An open design or library. -/
structure Module where
  editor : Editor
  listeners : Listeners := {}

/-- What a command leads to. -/
structure Outcome where
  result : Except DesignError Reply
  module : Module
  /-- What there is to tell the listeners. -/
  event : Option Event

namespace Module

/-- A new module whose root is of a type, which has to be a concrete kind of module. -/
def new (serial : Nat) (rootType : String) (config : Config) : Except DesignError Module :=
  let dictionary := config.dictionary
  if dictionary.isConcrete rootType && dictionary.isKindOf rootType Vocabulary.moduleType then
    .ok { editor :=
      { document :=
          { serial, depthLimit := config.depthLimit, tree := .new dictionary rootType,
            libraries := [] }
        history := { limit := config.undoLimit } } }
  else .error (.unknownElementType rootType)

variable (m : Module)

def document : Document :=
  m.editor.document

def history : History :=
  m.editor.history

/-- Whether a round of notifications is going on. -/
def isNotifying : Bool :=
  m.listeners.round.isSome

/-- What a command leads to. -/
def perform (files : Files) (command : Command) : Outcome :=
  match command.action m.isNotifying files { m.editor with announced := none } with
  | .ok reply editor =>
    ⟨.ok reply, { m with editor := { editor with announced := none } }, editor.announced⟩
  | .error error editor =>
    ⟨.error error, { m with editor := { editor with announced := none } }, none⟩

def addListener : Module :=
  { m with listeners := m.listeners.add }

def removeListener (id : ListenerId) : Module :=
  { m with listeners := m.listeners.remove id }

/-- The module after a round of notifications, in which each listener of the audience in turn is
handed the event and the module. -/
def deliver {f : Type → Type} [Monad f] (tell : ListenerId → Event → Module → f Module)
    (event : Event) : f Module := do
  let told ← m.listeners.registered.foldlM (fun m id => tell id event m)
    { m with listeners := m.listeners.beginRound }
  return { told with listeners := told.listeners.endRound }

def describeTree (t : Tree) : String :=
  "DesignTree \x7b root: " ++ t.root.describe ++ ", elements: " ++ toString t.size ++
    ", names: " ++ toString t.names.size ++ " \x7d"

def describe : String :=
  let libraries := m.document.libraries.map fun library => Text.quote library.nameSpace
  "Module \x7b tree: " ++ describeTree m.document.tree ++ ", libraries: " ++ bracketed libraries ++
    ", transaction_depth: " ++ toString m.history.depth ++ ", listeners: " ++
    toString m.listeners.registered.length ++ ", .. \x7d"

end Module

end ReportModel
