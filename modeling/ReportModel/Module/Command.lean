import ReportModel.Document.Snapshot
import ReportModel.Editor.Bases
import ReportModel.Editor.Properties
import ReportModel.Editor.Sheets

/-!
# Commands

The operations that change a module, as data.
-/

namespace ReportModel

/-- An operation that changes a module. -/
inductive Command where
  | start (label : String)
  | commit
  | rollback
  | undo
  | redo
  | clearHistory
  | create (typeName : String) (name : Option String)
  | add (id : ElementId) (place : Place) (index : Option Nat)
  | drop (id : ElementId)
  | move (id : ElementId) (place : Place) (index : Option Nat)
  | discard (id : ElementId)
  | rename (id : ElementId) (name : Option String)
  | setValue (id : ElementId) (property : String) (value : Value)
  | clearValue (id : ElementId) (property : String)
  | setMask (id : ElementId) (property : String) (mask : Option Mask)
  | setBase (id : ElementId) (reference : Reference)
  | clearBase (id : ElementId)
  | includeLibrary (nameSpace : String) (library : Document)
  | dropLibrary (nameSpace : String)
  | reloadLibrary (nameSpace : String) (library : Document)
  | addFile (host : ElementId) (fileName : String)
  | addSheet (host : ElementId) (link : Css.Link) (sheet : Css.StyleSheet)
  | dropSheet (host : ElementId) (fileName : String)
  | renameSheet (host : ElementId) (fileName newName : String)
  | reloadSheet (host : ElementId) (fileName : String)
  | importStyles (sheet : Css.StyleSheet) (names : List String)
  | cacheValues

/-- What an operation answers when it succeeds. -/
inductive Reply where
  | done
  | element (id : ElementId)
  | elements (ids : List ElementId)
  | snapshot (s : Snapshot)
deriving DecidableEq

namespace Action

def done (action : Action Unit) : Action Reply := do
  action
  return .done

/-- The effective values of all attached elements. -/
def cacheValues (notifying : Bool) : Action Snapshot := do
  ensureMutable notifying
  refuseInside .cacheValues
  return (← document).snapshot

end Action

open ReportModel.Action

/-- What a command does, given whether listeners are being notified, and the files that stylesheets
are read from. -/
def Command.action (notifying : Bool) (files : Files) : Command → Action Reply
  | .start label => done (Action.start notifying label)
  | .commit => done (Action.commit notifying)
  | .rollback => done (Action.rollback notifying)
  | .undo => done (Action.undo notifying)
  | .redo => done (Action.redo notifying)
  | .clearHistory => done (Action.clearHistory notifying)
  | .create typeName name => .element <$> Action.create notifying typeName name
  | .add id place index => done (Action.add notifying id place index)
  | .drop id => done (Action.drop notifying id)
  | .move id place index => done (Action.move notifying id place index)
  | .discard id => done (Action.discard notifying id)
  | .rename id name => done (Action.rename notifying id name)
  | .setValue id property value => done (Action.setValue notifying id property value)
  | .clearValue id property => done (Action.clearValue notifying id property)
  | .setMask id property mask => done (Action.setMask notifying id property mask)
  | .setBase id reference => done (Action.setBase notifying id reference)
  | .clearBase id => done (Action.clearBase notifying id)
  | .includeLibrary nameSpace library => done (Action.includeLibrary notifying nameSpace library)
  | .dropLibrary nameSpace => done (Action.dropLibrary notifying nameSpace)
  | .reloadLibrary nameSpace library => done (Action.reloadLibrary notifying nameSpace library)
  | .addFile host fileName => done (Action.addFile notifying files host fileName)
  | .addSheet host link sheet => done (Action.addSheet notifying host link sheet)
  | .dropSheet host fileName => done (Action.dropSheet notifying host fileName)
  | .renameSheet host fileName newName =>
    done (Action.renameSheet notifying files host fileName newName)
  | .reloadSheet host fileName => done (Action.reloadSheet notifying files host fileName)
  | .importStyles sheet names => .elements <$> Action.importStyles notifying sheet names
  | .cacheValues => .snapshot <$> Action.cacheValues notifying

end ReportModel
