import ReportModel.Document.Bases
import ReportModel.Editor.Basic

/-!
# Editing bases and libraries

An element may take a base that its reference finds, of its own type, if its chain of bases ends
within the depth limit without coming back to it. Libraries are included, dropped and exchanged
under a name space.
-/

namespace ReportModel

namespace Document

def isLibrary (d : Document) : Bool :=
  d.tree.dictionary.isKindOf (((d.get? d.root).map (·.typeName)).getD "") Vocabulary.libraryType

def libraryIndex? (d : Document) (nameSpace : String) : Option Nat :=
  d.libraries.findIdx? (·.nameSpace = nameSpace)

end Document

namespace Action

variable (notifying : Bool)

def setBase (id : ElementId) (reference : Reference) : Action Unit := do
  ensureMutable notifying
  let e ← existing id
  let d ← document
  let base ← demand (.unresolvedBase reference.text) (d.lookup e.typeName reference)
  let baseType := (base.get?.map (·.typeName)).getD ""
  refuse (baseType ≠ e.typeName) (.baseTypeMismatch e.typeName baseType)
  refuse (d.wouldRunOn id base) (.cyclicBase reference.text)
  transact notifying "set extends" do
    execute (.base id e.base (some reference))

def clearBase (id : ElementId) : Action Unit := do
  ensureMutable notifying
  let e ← existing id
  match e.base with
  | none => pure ()
  | some old =>
    transact notifying "clear extends" do
      execute (.base id (some old) none)

def includeLibrary (nameSpace : String) (library : Document) : Action Unit := do
  ensureMutable notifying
  refuse (!library.isLibrary) (.notLibrary nameSpace)
  let d ← document
  refuse (d.library? nameSpace).isSome (.libraryAlreadyIncluded nameSpace)
  transact notifying "include library" do
    execute (.libraries (.insert d.libraries.length ⟨nameSpace, library⟩))

def included (nameSpace : String) : Action (Nat × Library) := do
  let d ← document
  let index ← demand (.libraryNotFound nameSpace) (d.libraryIndex? nameSpace)
  let library ← demand (.libraryNotFound nameSpace) d.libraries[index]?
  return (index, library)

/-- Drops a library. References into it stay, and find nothing. -/
def dropLibrary (nameSpace : String) : Action Unit := do
  ensureMutable notifying
  let (index, library) ← included nameSpace
  transact notifying "drop library" do
    execute (.libraries (.remove index library))

/-- Exchanges a library for another version of it. -/
def reloadLibrary (nameSpace : String) (library : Document) : Action Unit := do
  ensureMutable notifying
  refuse (!library.isLibrary) (.notLibrary nameSpace)
  let (index, old) ← included nameSpace
  transact notifying "reload library" do
    execute (.libraries (.replace index old ⟨nameSpace, library⟩))

end Action

end ReportModel
