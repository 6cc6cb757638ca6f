import Mathlib.Data.Nat.Init
import ReportModel.Proofs.Listing
import ReportModel.Proofs.Tree.Renaming

/-!
# The number behind a name

The number that makes a name free is searched from one on, and the search has no bound of its own.
It ends all the same, and what ends it is the first number that makes a name which no attached
element has in the scope of the member, and which no member in front is to have.
-/

namespace ReportModel.Tree

variable {t : Tree} {top x : ElementId} {place target : Place} {index : Nat} {name : String}
  {e : Element} {r : Rename} {held : List Reservation} {before after : List ElementId}

/-- A search that counts up while a number is taken, and ends at one that is not. -/
inductive CountsTo (taken : Nat → Prop) : Nat → Nat → Prop
  | found {n : Nat} (h : ¬ taken n) : CountsTo taken n n
  | next {n count : Nat} (h : taken n) (rest : CountsTo taken (n + 1) count) :
      CountsTo taken n count

theorem countsTo_iff {taken : Nat → Prop} {n count : Nat} : CountsTo taken n count ↔
    n ≤ count ∧ ¬ taken count ∧ ∀ k, n ≤ k → k < count → taken k := by
  constructor
  · intro h
    induction h with
    | found hfree => exact ⟨Nat.le_refl _, hfree, fun k hle hlt => absurd hle (by omega)⟩
    | @next n count htaken _ ih =>
        obtain ⟨hle, hfree, hall⟩ := ih
        refine ⟨by omega, hfree, fun k hk hlt => ?_⟩
        rcases Nat.eq_or_lt_of_le hk with rfl | hk
        · exact htaken
        · exact hall k hk hlt
  · rintro ⟨hle, hfree, hall⟩
    induction hle using Nat.decreasingInduction with
    | self => exact .found hfree
    | of_succ n hlt ih =>
        exact .next (hall n (Nat.le_refl n) hlt) (ih fun k hk => hall k (by omega))

/-- The search for a number comes to an end, at the latest with one more number than can be taken,
and its number is the one in the free name. -/
theorem exists_countsTo (t : Tree) (top : ElementId) (held : List Reservation) (id : ElementId)
    (place : Place) (name : String) : ∃ count ≤ t.takenBound held place + 1,
      CountsTo (fun n => t.isTaken top held id place (name ++ toString n) = true) 1 count ∧
        t.freeName top held id place name = name ++ toString count := by
  obtain ⟨count, hpos, hbound, hname, hfree, hall⟩ := freeName_spec t top held id place name
  exact ⟨count, hbound, countsTo_iff.2 ⟨hpos, Bool.eq_false_iff.1 hfree, hall⟩, hname⟩

/-- An attached element has a name in the scope of a member, or a member in front is to have it. -/
def IsOccupied (t : Tree) (top : ElementId) (target : Place) (before : List ElementId)
    (x : ElementId) (place : Place) (name : String) : Prop :=
  ∃ w, t.reservation x place name = some w ∧ ((∃ y, t.isAttached y = true ∧ t.claim y = some w) ∨
    ∃ y ∈ before, t.plannedClaim top target (t.planNames top target) y = some w)

/-- A member needs a number behind its name if the name is occupied, and behind its type if it lacks
a name that it has to have. -/
def IsBase (t : Tree) (top : ElementId) (target : Place) (before : List ElementId) (x : ElementId)
    (place : Place) (e : Element) (base : String) : Prop :=
  e.name = some base ∧ t.IsOccupied top target before x place base ∨
    e.name = none ∧ t.dictionary.nameRequired e.typeName = true ∧ base = e.typeName

/-- The smallest number that makes a name free. -/
structure IsSmallestFree (occupied : String → Prop) (name : String) (count : Nat) : Prop where
  one_le : 1 ≤ count
  free : ¬ occupied (name ++ toString count)
  occupied_of_lt : ∀ n, 1 ≤ n → n < count → occupied (name ++ toString n)

theorem WellFormed.isTaken_iff_isOccupied (h : t.WellFormed) (hc : t.CanLink top target index)
    (hat : t.isAttached target.container = true) (hx : x ∈ t.walk top) (he : t.get? x = some e)
    (hplace : settled top target x e = some place) (hheld : ∀ w, w ∈ held ↔
      ∃ y ∈ before, t.plannedClaim top target (t.planNames top target) y = some w) :
    t.isTaken top held x place name = true ↔ t.IsOccupied top target before x place name := by
  rw [isTaken_iff, IsOccupied]
  refine exists_congr fun w => and_congr_right fun hres => ?_
  rw [hheld, or_comm]
  refine or_congr_left ⟨?_, ?_⟩
  · rintro ⟨hconflict, htop⟩
    obtain ⟨y, -, hy⟩ := h.exists_claim_of_nameConflicts hconflict hres fun hslot => by
      have hplace' : some target = some place := (if_pos (htop hslot)).symm.trans hplace
      exact Option.some.inj hplace' ▸ hat
    exact ⟨y, hy⟩
  · rintro ⟨y, hy, hcy⟩
    have hne : y ≠ x := fun heq => hc.not_isAttached_of_mem_walk h.forest hx (heq ▸ hy)
    refine ⟨h.nameConflicts_of_claim hy hcy hne hres, fun hslot => ?_⟩
    exact hc.eq_top_of_claim h.forest hy (hslot ▸ hcy) hx he hplace

theorem WellFormed.exists_held_isOccupied (h : t.WellFormed) (hc : t.CanLink top target index)
    (hat : t.isAttached target.container = true) (hwalk : t.walk top = before ++ x :: after)
    (he : t.get? x = some e) (hplace : settled top target x e = some place) :
    ∃ held, (∀ name, t.isTaken top held x place name = true ↔
        t.IsOccupied top target before x place name) ∧
      ((t.planNames top target).find? (·.element = x)).map (·.new) =
        t.neededName top held x place e := by
  obtain ⟨held, hheld, hplanned⟩ := h.forest.exists_held hwalk he hplace
  have hmem : x ∈ t.walk top := by simp [hwalk]
  exact ⟨held, fun name => h.isTaken_iff_isOccupied hc hat hmem he hplace hheld, hplanned⟩

theorem neededName_eq_some {new : String} : t.neededName top held x place e = some new ↔
    ∃ base, (e.name = some base ∧ t.isTaken top held x place base = true ∨
      e.name = none ∧ t.dictionary.nameRequired e.typeName = true ∧ base = e.typeName) ∧
      t.freeName top held x place base = new := by
  cases hname : e.name with
  | some own => simp [neededName, hname]
  | none => simp [neededName, hname]

theorem Plans.find?_eq {members : List ElementId} {plan : List Rename}
    (h : t.Plans top target held members plan) (hnd : members.Nodup) (hr : r ∈ plan) :
    plan.find? (·.element = r.element) = some r :=
  (Dictionary.mem_and_iff_find? (h.sublist.nodup hnd)).1 ⟨hr, rfl⟩

theorem WellFormed.isSmallestFree_of_mem (h : t.WellFormed) (hc : t.CanLink top target index)
    (hat : t.isAttached target.container = true) (hr : r ∈ t.planNames top target) :
    ∃ before after e place base count, t.walk top = before ++ r.element :: after ∧
      t.get? r.element = some e ∧ settled top target r.element e = some place ∧
      r.old = e.name ∧ t.IsBase top target before r.element place e base ∧
      r.new = base ++ toString count ∧
      IsSmallestFree (t.IsOccupied top target before r.element place) base count := by
  have hplan := plans_planNames h.forest top target
  have hmem : r.element ∈ t.walk top := hplan.sublist.subset (List.mem_map_of_mem hr)
  obtain ⟨before, after, hwalk⟩ := List.append_of_mem hmem
  obtain ⟨e, place, he, hplace⟩ := h.forest.exists_settled target hmem
  obtain ⟨e', he', hold⟩ := hplan.old r hr
  obtain rfl := Option.some.inj (he.symm.trans he')
  obtain ⟨held, htaken, hplanned⟩ := h.exists_held_isOccupied hc hat hwalk he hplace
  rw [hplan.find?_eq (h.forest.nodup_walk top) hr, Option.map_some] at hplanned
  obtain ⟨base, hbase, hnew⟩ := neededName_eq_some.1 hplanned.symm
  obtain ⟨count, hpos, -, hname, hfree, hall⟩ := freeName_spec t top held r.element place base
  refine ⟨before, after, e, place, base, count, hwalk, he, hplace, hold.symm, ?_,
    hnew.symm.trans hname, hpos, ?_, fun n hn hlt => (htaken _).1 (hall n hn hlt)⟩
  · rw [htaken] at hbase
    exact hbase
  · rw [← htaken, hfree]
    exact Bool.false_ne_true

theorem WellFormed.exists_rename (h : t.WellFormed) (hc : t.CanLink top target index)
    (hat : t.isAttached target.container = true) (hwalk : t.walk top = before ++ x :: after)
    (he : t.get? x = some e) (hplace : settled top target x e = some place) {base : String}
    (hbase : t.IsBase top target before x place e base) :
    ∃ r ∈ t.planNames top target, r.element = x := by
  obtain ⟨held, htaken, hplanned⟩ := h.exists_held_isOccupied hc hat hwalk he hplace
  rw [neededName_eq_some.2 ⟨base, by rwa [htaken], rfl⟩] at hplanned
  obtain ⟨r, hfound, -⟩ := Option.map_eq_some_iff.1 hplanned
  exact ⟨r, List.mem_of_find?_eq_some hfound, by simpa using List.find?_some hfound⟩

end ReportModel.Tree
