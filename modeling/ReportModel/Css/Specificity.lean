import ReportModel.Css.Selector

/-!
# Specificity

Of the rules of one stylesheet that match an element, the one of the greatest specificity gives a
property its value. Importance counts first, then the numbers of ids, of classes and of types, then
the place of the rule in the sheet. The counters are words of fixed size, and nothing bounds a
selector: where a counter runs over, the program stops, and there is no rank.
-/

namespace ReportModel.Css

/-- The rank of a selector in a sheet. -/
structure Specificity where
  important : Bool
  ids : UInt16
  classes : UInt16
  types : UInt16
  order : UInt32
deriving DecidableEq, Repr

/-- A counter has no room for one more. -/
inductive Overflow where
  | counter
deriving DecidableEq, Repr

namespace Specificity

def increment (counter : UInt16) : Except Overflow UInt16 :=
  if counter = 65535 then .error .counter else .ok (counter + 1)

/-- The rank with one more condition counted. -/
def count (rank : Specificity) : Component → Except Overflow Specificity
  | .ofId _ => do return { rank with ids := ← increment rank.ids }
  | .ofClass _ | .ofPseudo _ => do return { rank with classes := ← increment rank.classes }
  | .ofType _ => do return { rank with types := ← increment rank.types }
  | .universal => .ok rank

/-- The rank of a selector in the rule of a given place and importance. -/
def ofSelector (selector : Selector) (order : UInt32) (important : Bool) :
    Except Overflow Specificity :=
  selector.components.foldlM count ⟨important, 0, 0, 0, order⟩

/-- The parts of a rank, the one that counts first in front. -/
def key (rank : Specificity) : List Nat :=
  [rank.important.toNat, rank.ids.toNat, rank.classes.toNat, rank.types.toNat, rank.order.toNat]

/-- Compares lists of naturals by the first difference. -/
def compareKeys : List Nat → List Nat → Ordering
  | [], [] => .eq
  | [], _ :: _ => .lt
  | _ :: _, [] => .gt
  | m :: ms, n :: ns => if m < n then .lt else if n < m then .gt else compareKeys ms ns

def compare (a b : Specificity) : Ordering :=
  compareKeys a.key b.key

def max (a b : Specificity) : Specificity :=
  if a.compare b = .gt then a else b

end Specificity

end ReportModel.Css
