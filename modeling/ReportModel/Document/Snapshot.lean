import ReportModel.Document.Access
import ReportModel.Document.Cascade
import ReportModel.Text.Json

/-!
# Snapshots

All effective values of the attached elements at one time, and their JSON text.
-/

namespace ReportModel

structure ElementSnapshot where
  typeName : String
  name : Option String
  style : SortedMap String Value
  /-- The access rule in force. -/
  access : Option String
deriving DecidableEq

/-- The effective values of the attached elements, each element before those inside it. -/
abbrev Snapshot := List (ElementId × ElementSnapshot)

namespace Document

variable (d : Document)

def elementSnapshot? (id : ElementId) : Option ElementSnapshot :=
  (d.get? id).map fun e =>
    { typeName := e.typeName
      name := e.name
      style := (d.effectiveValues id (d.tree.dictionary.styleProperties e.typeName)).map (·.1)
      access := (d.accessRule? id).map (·.expression) }

/-- The effective values of all attached elements. -/
def snapshot : Snapshot :=
  d.tree.attached.filterMap fun id => (d.elementSnapshot? id).map (id, ·)

end Document

def Snapshot.find? (s : Snapshot) (id : ElementId) : Option ElementSnapshot :=
  s.lookup id

open Text (Json)

/-- The form of numbers in snapshots: positional from a hundred-thousandth up to below ten to the
sixteenth, with a point always, and with a sign in front of any exponent. JSON has no text for what
is not finite. -/
def Layout.snapshot : Layout where
  positionalFrom := some (-5)
  positionalBelow := some 16
  pointZero := true
  plusSign := true
  tie := .even
  notANumber := "null"
  infinity := "null"

def Number.json : Number → Json
  | .notANumber | .infinite _ => .null
  | x => .number (Layout.snapshot.text .double x)

namespace Value

def tagged (kind : String) (value : Json) : Json :=
  .object [("kind", .string kind), ("value", value)]

mutual

/-- The JSON value of a value: its sort and what it holds. -/
def json : Value → Json
  | .string s => tagged "string" (.string s)
  | .integer n => tagged "integer" (.number (toString n))
  | .float x => tagged "float" x.json
  | .boolean b => tagged "boolean" (.boolean b)
  | .choice s => tagged "choice" (.string s)
  | .expression s => tagged "expression" (.string s)
  | .dimension d =>
    tagged "dimension" (.object [("measure", d.measure.json), ("units", .string d.units)])
  | .color s => tagged "color" (.string s)
  | .structList items => tagged "structList" (.array (jsonItems items))
  | .bytes data => tagged "bytes" (.array (data.map fun b => .number (toString b.toNat)))

def jsonItems : List (List (String × Value)) → List Json
  | [] => []
  | item :: items => .object (jsonFields item) :: jsonItems items

def jsonFields : List (String × Value) → List (String × Json)
  | [] => []
  | (name, value) :: fields => (name, json value) :: jsonFields fields

end

end Value

namespace ElementSnapshot

/-- The JSON value of the effective values of an element. A name or an access rule that is missing
is left out. -/
def json (s : ElementSnapshot) : Json :=
  .object ([("elementType", .string s.typeName)] ++
    (s.name.map fun name => ("name", Json.string name)).toList ++
    [("style", .object (s.style.entries.map fun (property, value) => (property, value.json)))] ++
    (s.access.map fun rule => ("acl", Json.string rule)).toList)

end ElementSnapshot

def Snapshot.jsonText (s : Snapshot) : String :=
  (Json.object [("elements", .array (s.map fun (_, element) => element.json))]).text 0

end ReportModel
