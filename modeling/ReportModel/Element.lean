import ReportModel.Arena
import ReportModel.Css.StyleSheet
import ReportModel.SortedMap

/-!
# Elements

An element of a design has a type, perhaps a name, local property values and masks, a place in a
slot of another element, slots of its own, perhaps a reference to a base element, and included
stylesheets. A reference is a name and not a link: it is looked up whenever it is used.
-/

namespace ReportModel

structure Place where
  container : ElementId
  slot : String
deriving DecidableEq, Repr

/-- The name of a base element, with the name space of the library it is in, if it is in one. -/
structure Reference where
  library : Option String
  name : String
deriving DecidableEq, Repr

namespace Reference

def splitPoint : List Char → Option (List Char × List Char)
  | [] => none
  | '.' :: cs => some ([], cs)
  | c :: cs => (splitPoint cs).map fun (before, after) => (c :: before, after)

/-- The reference that a text denotes: a name, or a library and a name with a point between them. -/
def read (s : String) : Reference :=
  match splitPoint s.toList with
  | some (library, name) =>
    if library.isEmpty || name.isEmpty then ⟨none, s⟩
    else ⟨some (String.ofList library), String.ofList name⟩
  | none => ⟨none, s⟩

def text (r : Reference) : String :=
  match r.library with
  | some library => library ++ "." ++ r.name
  | none => r.name

end Reference

/-- What may be done with a property of an element. -/
inductive Mask where
  | change
  /-- The property is fixed, also on elements that have this one as a base. -/
  | lock
  /-- The property is not shown to editors. -/
  | hide
deriving DecidableEq, Repr

/-- The name of a mask in dumps. -/
def Mask.text : Mask → String
  | .change => "Change"
  | .lock => "Lock"
  | .hide => "Hide"

structure Slot where
  name : String
  contents : List ElementId
deriving DecidableEq, Repr

structure Element where
  typeName : String
  name : Option String
  values : SortedMap String Value := .empty
  masks : SortedMap String Mask := .empty
  place : Option Place := none
  slots : List Slot
  base : Option Reference := none
  sheets : List Css.Inclusion := []
deriving DecidableEq

namespace Element

/-- A new element of a type, with an empty slot for each slot the type defines. -/
def create (dictionary : Dictionary) (typeName : String) (name : Option String) : Element where
  typeName := typeName
  name := name
  slots := (dictionary.slots typeName).map fun slot => ⟨slot.name, []⟩

def value? (e : Element) (property : String) : Option Value :=
  e.values.get? property

def text? (e : Element) (property : String) : Option String :=
  (e.value? property).bind Value.asText

def mask? (e : Element) (property : String) : Option Mask :=
  e.masks.get? property

def slot? (e : Element) (slot : String) : Option (List ElementId) :=
  (e.slots.find? (·.name = slot)).map (·.contents)

def children (e : Element) : List ElementId :=
  e.slots.flatMap (·.contents)

/-- The slots with the contents of one of them changed. -/
def updateSlot (slot : String) (f : List ElementId → List ElementId) : List Slot → List Slot
  | [] => []
  | s :: rest =>
    if s.name = slot then { s with contents := f s.contents } :: rest
    else s :: updateSlot slot f rest

def withSlot (e : Element) (slot : String) (f : List ElementId → List ElementId) : Element :=
  { e with slots := updateSlot slot f e.slots }

end Element

end ReportModel
