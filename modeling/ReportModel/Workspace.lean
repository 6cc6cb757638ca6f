import ReportModel.Module.Basic

/-!
# Workspaces

Modules that are open side by side under names, and the files of stylesheets that they share. A
module that has been lent as a library is fixed from then on, so that everyone who includes it sees
the same document. Serial numbers are given out in order, and never twice.
-/

namespace ReportModel

structure OpenModule where
  module : Module
  /-- Whether the module has been lent as a library. -/
  isLent : Bool := false

/-- Modules under names, and files. -/
structure Workspace where
  files : Files := .empty
  modules : SortedMap String OpenModule := .empty
  /-- The serial number of the next module. -/
  nextSerial : Nat := 0

namespace Workspace

variable (w : Workspace)

/-- The module of a name. -/
def find? (name : String) : Option OpenModule :=
  w.modules.get? name

def nameOf? (serial : Nat) : Option String :=
  (w.modules.entries.find? (·.2.module.document.serial = serial)).map (·.1)

def openModule (name rootType : String) (config : Config) : Except DesignError Workspace := do
  let module ← Module.new w.nextSerial rootType config
  return { w with modules := w.modules.insert name { module }, nextSerial := w.nextSerial + 1 }

def store (name : String) (module : Module) : Workspace :=
  match w.find? name with
  | some current => { w with modules := w.modules.insert name { current with module } }
  | none => w

/-- The workspace with the module of a name lent as a library. -/
def lend (name : String) : Workspace :=
  match w.find? name with
  | some current => { w with modules := w.modules.insert name { current with isLent := true } }
  | none => w

def writeFile (fileName text : String) : Workspace :=
  { w with files := w.files.insert fileName text }

def removeFile (fileName : String) : Workspace :=
  { w with files := w.files.erase fileName }

end Workspace

end ReportModel
