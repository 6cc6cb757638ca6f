/-!
# Listeners

A module tells its listeners of events in rounds. Who is registered when a round begins hears of the
event, also if taken off the list during the round; who registers during the round does not. What
happens to the list during a round shows when the round is over.
-/

namespace ReportModel

/-- The handle of a registered listener. -/
structure ListenerId where
  number : Nat
deriving DecidableEq, Repr

def ListenerId.text (id : ListenerId) : String :=
  "ListenerId(" ++ toString id.number ++ ")"

/-- A round of notifications. -/
structure Round where
  /-- Who hears of the event. -/
  audience : List ListenerId
  /-- Who is to be taken off the list after the round. -/
  leaving : List ListenerId := []
deriving DecidableEq, Repr

/-- The listeners of a module. During a round the list holds only those who came during it. -/
structure Listeners where
  registered : List ListenerId := []
  next : Nat := 0
  round : Option Round := none
deriving DecidableEq, Repr, Inhabited

namespace Listeners

variable (l : Listeners)

def nextId : ListenerId :=
  ⟨l.next⟩

/-- The listeners with one more, under the next handle. -/
def add : Listeners :=
  { l with registered := l.registered ++ [l.nextId], next := l.next + 1 }

/-- Whether a listener is there to be taken off the list. -/
def has (id : ListenerId) : Bool :=
  match l.round with
  | some round =>
    (round.audience.contains id || l.registered.contains id) && !round.leaving.contains id
  | none => l.registered.contains id

/-- The listeners without one, during a round from its end on. -/
def remove (id : ListenerId) : Listeners :=
  match l.round with
  | some round =>
    if l.has id then { l with round := some { round with leaving := round.leaving ++ [id] } }
    else l
  | none => { l with registered := l.registered.filter (· ≠ id) }

def beginRound : Listeners :=
  { l with registered := [], round := some { audience := l.registered } }

def endRound : Listeners :=
  match l.round with
  | some round =>
    { l with
      registered := (round.audience ++ l.registered).filter fun id => !round.leaving.contains id
      round := none }
  | none => l

end Listeners

end ReportModel
