import ReportModel.Tree.Names

/-!
# Unique names

An element that comes into the tree keeps its name unless the name is taken; then, or if it has none
but needs one, the smallest number that makes it unique is put behind it. The renames of a whole
subtree are planned before anything is attached, each name planned being reserved against the
members that follow.
-/

namespace ReportModel

/-- A name that a plan has given to a member. -/
inductive Reservation where
  | inModule (key : NameKey)
  | inSlot (place : Place) (name : String)
deriving DecidableEq, Repr

structure Rename where
  element : ElementId
  old : Option String
  new : String
deriving DecidableEq, Repr

namespace Tree

variable (t : Tree)

/-- What has to be reserved for an element to have a name at a place. -/
def reservation (id : ElementId) (place : Place) (name : String) : Option Reservation :=
  match t.slotScope place.container place.slot with
  | .none => none
  | .slot => some (.inSlot place name)
  | .module => (t.nameKey id place name).map .inModule

/-- Whether a member of the subtree of `top` cannot have a name. The siblings of a member further in
are members themselves, so that only the reservations count for it in its slot. -/
def isTaken (top : ElementId) (reserved : List Reservation) (id : ElementId) (place : Place)
    (name : String) : Bool :=
  match t.reservation id place name with
  | none => false
  | some wanted =>
    reserved.contains wanted ||
      match wanted with
      | .inSlot .. => id = top && t.nameConflicts id place name
      | .inModule _ => t.nameConflicts id place name

/-- How many names can be taken at most at a place: a name is taken by a reservation, by an entry of
the index or by a sibling, and each of these takes one. -/
def takenBound (reserved : List Reservation) (place : Place) : Nat :=
  reserved.length + t.names.size + (t.contents place.container place.slot).length

/-- A name with the smallest number behind it that makes it free. Of one more numbers than can be
taken, one is free. -/
def freeName (top : ElementId) (reserved : List Reservation) (id : ElementId) (place : Place)
    (name : String) : String :=
  let count := ((List.range' 1 (t.takenBound reserved place + 1)).find? fun count =>
    !t.isTaken top reserved id place (name ++ toString count)).getD 0
  name ++ toString count

/-- The name that a member of the subtree of `top` needs in place of its own, if it does. -/
def neededName (top : ElementId) (reserved : List Reservation) (id : ElementId) (place : Place)
    (e : Element) : Option String :=
  match e.name with
  | some name =>
    if t.isTaken top reserved id place name then some (t.freeName top reserved id place name)
    else none
  | none =>
    if t.dictionary.nameRequired e.typeName then
      some (t.freeName top reserved id place e.typeName)
    else none

/-- The plan for the members of a subtree, given the names reserved so far. -/
def planMembers (top : ElementId) (target : Place) :
    List Reservation → List ElementId → List Rename
  | _, [] => []
  | reserved, id :: rest =>
    match t.get? id with
    | none => planMembers top target reserved rest
    | some e =>
      match if id = top then some target else e.place with
      | none => planMembers top target reserved rest
      | some place =>
        let needed := t.neededName top reserved id place e
        let reserved := match (needed <|> e.name).bind (t.reservation id place) with
          | some new => new :: reserved
          | none => reserved
        match needed with
        | some new => ⟨id, e.name, new⟩ :: planMembers top target reserved rest
        | none => planMembers top target reserved rest

/-- The renames that an element and all inside it need to be attached at a place. -/
def planNames (id : ElementId) (target : Place) : List Rename :=
  t.planMembers id target [] (t.walk id)

end Tree

end ReportModel
