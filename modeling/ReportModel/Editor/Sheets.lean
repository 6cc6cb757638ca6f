import ReportModel.Document.Sheets
import ReportModel.Editor.Content

/-!
# Editing stylesheets

Hosts include stylesheets under the names of their files, each name once. A stylesheet that alone
provides a style in use cannot be dropped. Styles of a stylesheet can be copied into the module.
-/

namespace ReportModel

/-- Texts of stylesheets by the names of their files. -/
abbrev Files := SortedMap String String

def Files.load (files : Files) (dictionary : Dictionary) (fileName : String) :
    Except DesignError Css.StyleSheet :=
  match files.get? fileName with
  | none => .error (.fileNotFound fileName)
  | some text =>
    (Css.StyleSheet.read fileName dictionary text).mapError fun
      | .parse error => .parse error
      | .overflow => .overflow

namespace Action

variable (notifying : Bool)

def load (files : Files) (fileName : String) : Action Css.StyleSheet := do
  lift (files.load (← document).tree.dictionary fileName)

def checkHost (host : ElementId) : Action Unit := do
  let _ ← existing host
  refuse (!(← document).isHost host) (.notHost host)

def inclusion (host : ElementId) (fileName : String) : Action (Nat × Css.Inclusion) := do
  checkHost host
  let d ← document
  let index ← demand (.sheetNotFound fileName) (d.inclusionIndex? host fileName)
  let found ← demand (.sheetNotFound fileName) (d.sheets host)[index]?
  return (index, found)

/-- Includes a stylesheet after those already there. -/
def addSheet (host : ElementId) (link : Css.Link) (sheet : Css.StyleSheet) : Action Unit := do
  ensureMutable notifying
  checkHost host
  let d ← document
  refuse (d.inclusion? host link.fileName).isSome (.sheetAlreadyIncluded link.fileName)
  transact notifying "add css" do
    execute (.sheets host (.insert (d.sheets host).length ⟨link, sheet⟩))

def addFile (files : Files) (host : ElementId) (fileName : String) : Action Unit := do
  ensureMutable notifying
  checkHost host
  let sheet ← load files fileName
  addSheet notifying host { fileName } sheet

def dropSheet (host : ElementId) (fileName : String) : Action Unit := do
  ensureMutable notifying
  let (index, old) ← inclusion host fileName
  match (← document).styleOnlyIn? host index with
  | some style => throw (.sheetInUse fileName style)
  | none => pure ()
  transact notifying "drop css" do
    execute (.sheets host (.remove index old))

/-- Exchanges the inclusion of a file for that of another, in its place. -/
def renameSheet (files : Files) (host : ElementId) (fileName newName : String) :
    Action Unit := do
  ensureMutable notifying
  let (index, old) ← inclusion host fileName
  let taken := ((← document).inclusionIndex? host newName).isSome
  refuse (newName ≠ fileName && taken) (.sheetAlreadyIncluded newName)
  let sheet ← load files newName
  transact notifying "rename css" do
    execute (.sheets host (.replace index old ⟨{ old.link with fileName := newName }, sheet⟩))

def reloadSheet (files : Files) (host : ElementId) (fileName : String) : Action Unit := do
  ensureMutable notifying
  let (index, old) ← inclusion host fileName
  let sheet ← load files fileName
  transact notifying "reload css" do
    execute (.sheets host (.replace index old ⟨old.link, sheet⟩))

/-- Copies a style of a stylesheet into the styles of the root, under a name. -/
def importStyle (name : String) (style : Css.Style) : Action ElementId := do
  let id ← create notifying Vocabulary.styleType (some name)
  executeAll (style.properties.map fun (property, value) =>
    .value id property none (some value))
  add notifying id ⟨(← document).root, Vocabulary.stylesSlot⟩ none
  return id

/-- Copies the named styles of a stylesheet into the styles of the root; names that it does not have
are passed over. -/
def importStyles (sheet : Css.StyleSheet) (names : List String) : Action (List ElementId) := do
  ensureMutable notifying
  transact notifying "import css styles" do
    (names.filterMap fun name => (sheet.style? name).map (name, ·)).mapM fun (name, style) =>
      importStyle notifying name style

end Action

end ReportModel
