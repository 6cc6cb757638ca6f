import Mathlib.Data.List.Induction
import ReportModel.Proofs.Tree.NamePlan

/-!
# Names kept and names lost

A plan goes through the members of a subtree one after the other, and takes the name of a member
away if an attached element claims it, or a member in front will. So a member whose name nobody else
has loses it all the same if a member in front is given a number that makes this very name.
-/

namespace ReportModel.Tree

variable {t t' : Tree} {top x y : ElementId} {place target : Place} {index : Nat} {name : String}
  {w : Reservation} {e : Element} {reserved : List Reservation} {before after : List ElementId}

theorem exists_held (reserved : List Reservation) (hnd : (before ++ x :: after).Nodup)
    (hplaced : ∀ y ∈ before ++ x :: after, ∃ e p, t.get? y = some e ∧
      settled top target y e = some p)
    (he : t.get? x = some e) (hplace : settled top target x e = some place) :
    ∃ held, (∀ w, w ∈ held ↔ w ∈ reserved ∨ ∃ y ∈ before, t.plannedClaim top target
        (t.planMembers top target reserved (before ++ x :: after)) y = some w) ∧
      ((t.planMembers top target reserved (before ++ x :: after)).find? (·.element = x)).map
        (·.new) = t.neededName top held x place e := by
  induction before generalizing reserved with
  | nil =>
      obtain ⟨hnot, hnd⟩ := List.nodup_cons.1 hnd
      have hplan := fun reserved => plans_planMembers t top target reserved hnd fun y hy =>
        hplaced y (List.mem_cons_of_mem _ hy)
      refine ⟨reserved, by simp, ?_⟩
      rw [List.nil_append, planMembers_cons he hplace]
      exact find?_append_self (fun hmem => hnot ((hplan _).sublist.subset hmem)) e.name
  | cons z before ih =>
      rw [List.cons_append] at hnd hplaced
      obtain ⟨hnot, hnd⟩ := List.nodup_cons.1 hnd
      obtain ⟨ez, p, hez, hp⟩ := hplaced z List.mem_cons_self
      have hrest := fun y hy => hplaced y (List.mem_cons_of_mem _ hy)
      have hne : ∀ {y}, y ∈ before ++ x :: after → y ≠ z := fun hy heq => hnot (heq ▸ hy)
      rw [List.cons_append, planMembers_cons hez hp]
      generalize t.neededName top reserved z p ez = needed
      -- what the first member takes away is reserved for the others
      obtain ⟨held, hheld, hgiven⟩ :=
        ih (((needed <|> ez.name).bind (t.reservation z p)).toList ++ reserved) hnd hrest
      have hplan := plans_planMembers t top target
        (((needed <|> ez.name).bind (t.reservation z p)).toList ++ reserved) hnd hrest
      have hnotplan := fun hmem => hnot (hplan.sublist.subset hmem)
      clear hplan
      generalize t.planMembers top target _ (before ++ x :: after) = plan
        at hheld hgiven hnotplan ⊢
      have hothers : ∀ y ∈ before, t.plannedClaim top target
          ((needed.map (Rename.mk z ez.name)).toList ++ plan) y =
            t.plannedClaim top target plan y := fun y hy =>
        plannedClaim_append_ne (hne (List.mem_append_left _ hy)) ez.name
      refine ⟨held, fun w => ?_, ?_⟩
      · rw [hheld, List.exists_mem_cons_iff, plannedClaim_append_self hnotplan hez hp,
          List.mem_append, Option.mem_toList]
        have hclaims : (∃ y ∈ before, t.plannedClaim top target
            ((needed.map (Rename.mk z ez.name)).toList ++ plan) y = some w) ↔
            ∃ y ∈ before, t.plannedClaim top target plan y = some w :=
          exists_congr fun y => and_congr_right fun hy => by rw [hothers y hy]
        rw [hclaims, or_assoc, or_left_comm]
      · rw [find?_append_ne (hne (by simp))]
        exact hgiven

theorem Forest.exists_held (hf : t.Forest) (hwalk : t.walk top = before ++ x :: after)
    (he : t.get? x = some e) (hplace : settled top target x e = some place) :
    ∃ held, (∀ w, w ∈ held ↔
        ∃ y ∈ before, t.plannedClaim top target (t.planNames top target) y = some w) ∧
      ((t.planNames top target).find? (·.element = x)).map (·.new) =
        t.neededName top held x place e := by
  have hnd : (before ++ x :: after).Nodup := hwalk ▸ hf.nodup_walk top
  have hheld := Tree.exists_held [] hnd
    (fun y hy => hf.exists_settled target (hwalk ▸ hy)) he hplace
  simpa only [planNames, hwalk, List.not_mem_nil, false_or] using hheld

theorem neededName_eq_some_iff {held : List Reservation} (hname : e.name = some name) :
    (t.neededName top held x place e <|> e.name) = some name ↔
      t.isTaken top held x place name = false := by
  simp only [neededName, hname]
  split
  · next htaken =>
    refine iff_of_false (fun heq => ?_) (by simp [htaken])
    have hfree := isTaken_freeName t top held x place name
    have hsame : t.freeName top held x place name = name := by simpa using heq
    rw [hsame, htaken] at hfree
    cases hfree
  · next hfree => exact iff_of_true rfl (by simpa using hfree)

theorem WellFormed.exists_claim_of_nameConflicts (h : t.WellFormed)
    (hconflict : t.nameConflicts x place name = true) (hres : t.reservation x place name = some w)
    (hslot : w = .inSlot place name → t.isAttached place.container = true) :
    ∃ y, y ≠ x ∧ t.isAttached y = true ∧ t.claim y = some w := by
  cases w with
  | inModule key =>
      have hkey := reservation_eq_inModule_iff.1 hres
      simp only [nameConflicts, (nameKey_eq_some_iff.1 hkey).1, hkey, Option.bind_some] at hconflict
      obtain ⟨y, hfound, hne⟩ := (Option.any_eq_true _ _).1 hconflict
      exact ⟨y, of_decide_eq_true hne, (h.indexed key y).1 hfound⟩
  | inSlot q n =>
      obtain ⟨hscope, rfl, rfl⟩ := reservation_eq_inSlot_iff.1 hres
      simp only [nameConflicts, hscope] at hconflict
      obtain ⟨y, hmem, hy⟩ := List.any_eq_true.1 hconflict
      simp only [Bool.and_eq_true, decide_eq_true_eq] at hy
      obtain ⟨e, he, hname⟩ := Option.bind_eq_some_iff.1 hy.2
      obtain ⟨e', he', hp⟩ := h.forest.mem_contents_iff_place.1 hmem
      obtain rfl := Option.some.inj (he.symm.trans he')
      have hparent := parent_eq_some_iff.2 ⟨e, place, he, hp, rfl⟩
      refine ⟨y, hy.1, (h.forest.isAttached_of_parent hparent).2 (hslot rfl), ?_⟩
      exact claim_eq_some_iff.2 ⟨e, name, place, he, hname, hp,
        reservation_eq_inSlot_iff.2 ⟨hscope, rfl, rfl⟩⟩

/-! ## What an addition does to names -/

def name? (t : Tree) (id : ElementId) : Option String :=
  (t.get? id).bind (·.name)

def claimUnder (t : Tree) (id : ElementId) (name : String) : Option Reservation :=
  (t.get? id).bind fun e => e.place.bind fun place => t.reservation id place name

theorem claim_eq_bind (t : Tree) (id : ElementId) :
    t.claim id = (t.name? id).bind (t.claimUnder id) := by
  cases he : t.get? id with
  | none => simp [claim, name?, he]
  | some e => cases hname : e.name <;> simp [claim, name?, claimUnder, he, hname]

/-- Under the names of an earlier tree, no other attached element of a later one would have the name
of an element in its scope. -/
def Alone (earlier later : Tree) (x : ElementId) : Prop :=
  ∀ y w, later.isAttached y = true → (earlier.name? x).bind (later.claimUnder x) = some w →
    (earlier.name? y).bind (later.claimUnder y) = some w → y = x

theorem Forest.alone_iff {earlier later : Tree} (hf : later.Forest) : Alone earlier later x ↔
    ∀ y ∈ later.attached, (earlier.name? x).bind (later.claimUnder x) ≠ none →
      (earlier.name? y).bind (later.claimUnder y) =
        (earlier.name? x).bind (later.claimUnder x) → y = x := by
  constructor
  · intro halone y hy hsome hsame
    obtain ⟨w, hw⟩ := Option.ne_none_iff_exists'.1 hsome
    exact halone y w (hf.mem_attached.1 hy) hw (hsame.trans hw)
  · intro h y w hat hx hy
    exact h y (hf.mem_attached.2 hat) (by simp [hx]) (hy.trans hx.symm)

/-- An element with all in it has come into a slot of an attached one, under the names planned. -/
structure Adds (top : ElementId) (target : Place) (t t' : Tree) : Prop where
  before : t.WellFormed
  canLink : ∃ index, t.CanLink top target index
  container_attached : t.isAttached target.container = true
  isAttached : ∀ {x}, t'.isAttached x = true ↔ t.isAttached x = true ∨ x ∈ t.walk top
  name? : ∀ {x e}, t.get? x = some e → t'.name? x = plannedName (t.planNames top target) x e
  claimUnder : ∀ {x e}, t.get? x = some e → ∀ name, t'.claimUnder x name =
    (settled top target x e).bind fun place => t.reservation x place name

theorem WellFormed.adds (h : t.WellFormed) (hc : t.CanLink top target index)
    (hat : t.isAttached target.container = true) (hlinks : SameLinks t t')
    (hnames : ∀ {x e}, t.get? x = some e → ∃ e', t'.get? x = some e' ∧
      e'.name = plannedName (t.planNames top target) x e) (names : SortedMap NameKey ElementId) :
    Adds top target t ((t'.link top target index).withNames names) where
  before := h
  canLink := ⟨index, hc⟩
  container_attached := hat
  isAttached {x} := by
    rw [isAttached_withNames]
    exact hc.isAttached_sameLinks_link h.forest hlinks hat
  name? {x e} he := by
    obtain ⟨e', he', hname, -⟩ := hlinks.exists_get?_link hnames top target index he
    have hlinked : ((t'.link top target index).withNames names).get? x = some e' := he'
    simp only [Tree.name?, hlinked, Option.bind_some, hname]
  claimUnder {x e} he name := by
    obtain ⟨e', he', -, hplace⟩ := hlinks.exists_get?_link hnames top target index he
    have hlinked : ((t'.link top target index).withNames names).get? x = some e' := he'
    have hreservation : ∀ place, ((t'.link top target index).withNames names).reservation x place
        name = t.reservation x place name := fun place => hlinks.reservation_link x place name
    simp only [Tree.claimUnder, hlinked, Option.bind_some, hplace, hreservation]

namespace Adds

variable (h : Adds top target t t')

include h

theorem claim_eq (hx : t.contains x = true) :
    t'.claim x = t.plannedClaim top target (t.planNames top target) x := by
  obtain ⟨e, he⟩ := contains_iff.1 hx
  have hunder := funext (h.claimUnder he)
  simp only [claim_eq_bind, h.name? he, hunder, plannedClaim, he, Option.bind_some]

theorem name?_of_isAttached (hx : t.isAttached x = true) : t'.name? x = t.name? x := by
  obtain ⟨index, hc⟩ := h.canLink
  have hf := h.before.forest
  obtain ⟨e, he⟩ := contains_iff.1 (Forest.contained_of_isAttached hx)
  rw [h.name? he, (plans_planNames hf top target).plannedName_of_isAttached hf hc hx]
  simp only [Tree.name?, he, Option.bind_some]

theorem claim_of_isAttached (hx : t.isAttached x = true) : t'.claim x = t.claim x := by
  obtain ⟨index, hc⟩ := h.canLink
  have hf := h.before.forest
  rw [h.claim_eq (Forest.contained_of_isAttached hx)]
  exact (plans_planNames hf top target).plannedClaim_of_isAttached hf hc hx

theorem exists_held (hwalk : t.walk top = before ++ x :: after) :
    ∃ e place held, t.get? x = some e ∧ settled top target x e = some place ∧
      (∀ w, w ∈ held ↔ ∃ y ∈ before, t'.claim y = some w) ∧
      t'.name? x = (t.neededName top held x place e <|> e.name) := by
  have hf := h.before.forest
  have hmem : ∀ y ∈ before ++ x :: after, y ∈ t.walk top := fun y hy => hwalk ▸ hy
  obtain ⟨e, place, he, hplace⟩ := hf.exists_settled target (hmem x (by simp))
  obtain ⟨held, hheld, hplanned⟩ := hf.exists_held hwalk he hplace
  refine ⟨e, place, held, he, hplace, fun w => ?_, ?_⟩
  · rw [hheld]
    refine exists_congr fun y => and_congr_right fun hy => ?_
    rw [h.claim_eq (hf.mem_walk.1 (hmem y (List.mem_append_left _ hy))).1]
  · rw [h.name? he, plannedName, hplanned]

/-- A member that alone has its name keeps it if and only if no member in front has been given
it. -/
theorem name?_eq_some_iff (hwalk : t.walk top = before ++ x :: after)
    (hname : t.name? x = some name) (halone : Alone t t' x) : t'.name? x = some name ↔
      ∀ y ∈ before, t'.name? y ≠ t.name? y → ∀ w, t'.claim y = some w →
        t'.claimUnder x name ≠ some w := by
  have hnd : (before ++ x :: after).Nodup := hwalk ▸ h.before.forest.nodup_walk top
  obtain ⟨e, place, held, he, hplace, hheld, hplanned⟩ := h.exists_held hwalk
  have hown : e.name = some name := by simpa [Tree.name?, he] using hname
  have hunder : t'.claimUnder x name = t.reservation x place name := by
    rw [h.claimUnder he, hplace, Option.bind_some]
  rw [hplanned, neededName_eq_some_iff hown, ← Bool.not_eq_true, isTaken_iff, hunder]
  constructor
  · intro hfree y hy _ w hclaim hres
    exact hfree ⟨w, hres, Or.inl ((hheld w).2 ⟨y, hy, hclaim⟩)⟩
  · rintro hapart ⟨w, hres, htaken⟩
    -- whoever claims the name without having been given it would have had it before
    have hgiven : ∀ {y}, t'.isAttached y = true → t'.claim y = some w →
        t'.name? y = t.name? y → y = x := by
      intro y hat hclaim hkept
      rw [claim_eq_bind, hkept] at hclaim
      refine halone y w hat ?_ hclaim
      rw [hname, Option.bind_some, hunder, hres]
    rcases htaken with hin | ⟨hconflict, htop⟩
    · obtain ⟨y, hy, hclaim⟩ := (hheld w).1 hin
      by_cases hkept : t'.name? y = t.name? y
      · have hmem : y ∈ t.walk top := hwalk ▸ List.mem_append_left _ hy
        obtain rfl := hgiven (h.isAttached.2 (Or.inr hmem)) hclaim hkept
        exact (List.nodup_append.1 hnd).2.2 y hy y List.mem_cons_self rfl
      · exact hapart y hy hkept w hclaim hres
    · obtain ⟨y, hne, hat, hclaim⟩ := h.before.exists_claim_of_nameConflicts hconflict hres
        fun hslot => by
          have hplace' : some target = some place := (if_pos (htop hslot)).symm.trans hplace
          exact Option.some.inj hplace' ▸ h.container_attached
      exact hne (hgiven (h.isAttached.2 (Or.inl hat)) ((h.claim_of_isAttached hat).trans hclaim)
        (h.name?_of_isAttached hat))

theorem name?_of_forall_alone (hall : ∀ x ∈ t.walk top, Alone t t' x)
    (hneeds : ∀ x ∈ t.walk top, ∀ e, t.get? x = some e → e.name = none →
      t.dictionary.nameRequired e.typeName = false) :
    ∀ x ∈ t.walk top, t'.name? x = t.name? x := by
  have hprefix : ∀ before, before <+: t.walk top → ∀ x ∈ before, t'.name? x = t.name? x := by
    intro before
    induction before using List.reverseRecOn with
    | nil => simp
    | append_singleton before x ih =>
        rintro ⟨after, hwalk⟩
        have hwalk' : t.walk top = before ++ x :: after := by simp [← hwalk]
        have hmem : x ∈ t.walk top := by simp [hwalk']
        have hfront := ih ⟨x :: after, hwalk'.symm⟩
        refine List.forall_mem_append.2 ⟨hfront, List.forall_mem_singleton.2 ?_⟩
        cases hname : t.name? x with
        | some name =>
            refine (h.name?_eq_some_iff hwalk' hname (hall x hmem)).2 fun y hy hne => ?_
            exact absurd (hfront y hy) hne
        | none =>
            obtain ⟨e, place, held, he, -, -, hplanned⟩ := h.exists_held hwalk'
            have hown : e.name = none := by simpa [Tree.name?, he] using hname
            rw [hplanned, neededName, hown]
            simp [hneeds x hmem e he hown]
  exact hprefix _ (List.prefix_refl _)

end Adds

end ReportModel.Tree
