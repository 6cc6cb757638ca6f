import ReportModel.Document.Bases
import ReportModel.Tree.Matching

/-!
# Stylesheets of a document

Which stylesheets take part in the cascade, which are linked from outside, and whether an included
stylesheet may be included, dropped or exchanged.
-/

namespace ReportModel.Document

variable (d : Document)

def isHost (host : ElementId) : Bool :=
  (d.get? host).any fun e => d.tree.dictionary.hostsSheets e.typeName

def inclusion? (host : ElementId) (fileName : String) : Option Css.Inclusion :=
  (d.sheets host).find? (·.fileName = fileName)

def inclusionIndex? (host : ElementId) (fileName : String) : Option Nat :=
  if d.isHost host then (d.sheets host).findIdx? (·.fileName = fileName) else none

/-- Whether a style of a name is defined apart from one of the inclusions of a host: among the
shared styles of the module, in the styles of the host, or in another of its stylesheets. -/
def isDefinedElsewhere (host : ElementId) (index : Nat) (name : String) : Bool :=
  (d.tree.find Vocabulary.styleSpace name).isSome ||
    ((d.tree.contents host Vocabulary.stylesSlot).any fun style =>
      (d.get? style).bind (·.name) = some name) ||
    ((d.sheets host).zipIdx.any fun (inclusion, i) => i ≠ index && inclusion.sheet.provides name)

/-- The first style in use in the tree that one inclusion of a host provides and nothing else
does. -/
def styleOnlyIn? (host : ElementId) (index : Nat) : Option String :=
  (d.sheets host)[index]?.bind fun inclusion =>
    (d.tree.attached.filterMap fun id =>
      (d.get? id).bind (·.text? Vocabulary.styleProperty)).find? fun name =>
        inclusion.sheet.provides name && !d.isDefinedElsewhere host index name

/-- Whether a file may be included by an element, once it has been read. -/
def canAddSheet (host : ElementId) (fileName : String) : Bool :=
  d.isHost host && (d.inclusionIndex? host fileName).isNone

/-- Whether the inclusion of a file may be dropped. -/
def canDropSheet (host : ElementId) (fileName : String) : Bool :=
  (d.inclusionIndex? host fileName).any fun index => (d.styleOnlyIn? host index).isNone

/-- Whether the inclusion of a file may be exchanged for that of another, once that has been
read. -/
def canRenameSheet (host : ElementId) (fileName newName : String) : Bool :=
  (d.inclusionIndex? host fileName).isSome &&
    (newName = fileName || (d.inclusionIndex? host newName).isNone)

/-- The stylesheets that take part in the cascade: those of the root, then those of the theme. -/
def cascadeSheets : List Css.StyleSheet :=
  let themed := (d.theme?.map fun theme => theme.document.sheets theme.id).getD []
  (d.sheets d.root ++ themed).map (·.sheet)

/-- The inclusions whose links are considered: of the root, of the theme, and of the root and the
themes of each library. -/
def linkedInclusions : List Css.Inclusion :=
  d.sheets d.root ++ (d.theme?.map fun theme => theme.document.sheets theme.id).getD [] ++
    d.libraries.flatMap fun library =>
      let l := library.content
      l.sheets l.root ++ (l.tree.contents l.root Vocabulary.themesSlot).flatMap l.sheets

/-- The links with an external address, the first for each address. -/
def firstLinks (seen : List String) : List Css.Inclusion → List Css.Link
  | [] => []
  | inclusion :: rest =>
    match inclusion.link.externalUri with
    | none => firstLinks seen rest
    | some uri =>
      if seen.contains uri then firstLinks seen rest
      else inclusion.link :: firstLinks (uri :: seen) rest

/-- The links with an external address in the document, its theme and its libraries. -/
def externalLinks : List Css.Link :=
  firstLinks [] d.linkedInclusions

end ReportModel.Document
