import ReportModel.Document.Basic

/-!
# Dumps

The attached tree as indented text. A line for an element has its type, its name, its base, its
values and its masks; below it stand the libraries of the root, the included stylesheets, and the
slots that hold something.
-/

namespace ReportModel

namespace Element

def line (e : Element) : String :=
  let name := (e.name.map fun name => " " ++ Text.quote name).getD ""
  let base := (e.base.map fun reference => " extends " ++ reference.text).getD ""
  let values := e.values.entries.map fun (property, value) => property ++ "=" ++ value.text
  let masks := e.masks.entries.map fun (property, mask) => property ++ "=" ++ mask.text
  e.typeName ++ name ++ base ++
    (if values.isEmpty then "" else " " ++ bracketed values) ++
    (if masks.isEmpty then "" else " masks" ++ bracketed masks)

end Element

namespace Document

def indented (level : Nat) (line : String) : String :=
  String.ofList (List.replicate (2 * level) ' ') ++ line ++ "\n"

variable (d : Document)

def dumpUpTo : Nat → Nat → ElementId → String
  | 0, _, _ => ""
  | fuel + 1, level, id =>
    match d.get? id with
    | none => ""
    | some e =>
      let libraries := if id = d.root then d.libraries else []
      indented level e.line ++
        String.join (libraries.map fun library =>
          indented (level + 1) ("library " ++ library.nameSpace)) ++
        String.join (e.sheets.map fun inclusion =>
          indented (level + 1) ("css " ++ inclusion.fileName)) ++
        String.join ((e.slots.filter fun slot => !slot.contents.isEmpty).map fun slot =>
          indented (level + 1) (slot.name ++ ":") ++
            String.join (slot.contents.map (dumpUpTo fuel (level + 2))))

def dump : String :=
  d.dumpUpTo d.tree.elements.capacity 0 d.root

end Document

end ReportModel
