import ReportModel.Tree.Names

/-!
# Documents

A document is the content of a module: its tree and the documents of the libraries it includes, each
under a name space. A serial number tells modules apart; a library is included as it is at that
time, and does not change from then on.
-/

namespace ReportModel

/-- Something included under a name space. -/
structure Included (α : Type) where
  nameSpace : String
  content : α
deriving DecidableEq, Repr

structure Document where
  /-- The identity of the module. -/
  serial : Nat
  /-- How many bases a chain of bases may have. -/
  depthLimit : Nat
  tree : Tree
  libraries : List (Included Document)

/-- A document included under a name space. -/
abbrev Library := Included Document

/-- An element together with the document it belongs to. -/
structure OwnedElement where
  document : Document
  id : ElementId

namespace OwnedElement

def get? (r : OwnedElement) : Option Element :=
  r.document.tree.get? r.id

/-- Whether two references are to one element of one module. -/
def isSame (r s : OwnedElement) : Bool :=
  r.document.serial = s.document.serial && r.id = s.id

end OwnedElement

namespace Document

variable (d : Document)

def root : ElementId :=
  d.tree.root

def get? (id : ElementId) : Option Element :=
  d.tree.get? id

def library? (nameSpace : String) : Option Document :=
  (d.libraries.find? (·.nameSpace = nameSpace)).map (·.content)

/-- The document that a reference is looked up in: this one, or a library. -/
def owner? : Option String → Option Document
  | none => some d
  | some nameSpace => d.library? nameSpace

def sheets (id : ElementId) : List Css.Inclusion :=
  ((d.get? id).map (·.sheets)).getD []

def default? (id : ElementId) (property : String) : Option Value :=
  (d.get? id).bind fun e => (d.tree.dictionary.property? e.typeName property).bind (·.default)

end Document

end ReportModel
