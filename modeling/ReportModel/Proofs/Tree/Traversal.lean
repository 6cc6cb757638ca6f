import ReportModel.Proofs.Tree.Growth
import ReportModel.Proofs.Tree.Searches

/-!
# The two walks

Both walks from an element list the elements that lie within it, each once and each behind its
container. In the one that goes down first, an element is followed by the walks from what is
directly inside it, slot by slot; in the other the elements further down come later.
-/

namespace ReportModel.Tree

variable {t : Tree} {x y c start : ElementId} {fuel : Nat} {l level : List ElementId}

/-- A list of all elements within an element, each once and each behind its container. -/
structure Traverses (t : Tree) (start : ElementId) (l : List ElementId) : Prop where
  mem_iff : ∀ x, x ∈ l ↔ t.contains x = true ∧ t.isWithin x start = true
  nodup : l.Nodup
  container : ∀ before x after, l = before ++ x :: after →
    x = start ∨ ∃ p ∈ before, t.parent x = some p

/-- If no element stands in front of its container, each stands somewhere behind it: for of what is
within the start, containers are within it too. -/
theorem Forest.traverses (hf : t.Forest)
    (hmem : ∀ x, x ∈ l ↔ t.contains x = true ∧ t.isWithin x start = true) (hnodup : l.Nodup)
    (horder : l.Pairwise fun x y => t.parent x ≠ some y) : t.Traverses start l where
  mem_iff := hmem
  nodup := hnodup
  container := by
    intro before x after hsplit
    obtain ⟨-, hw⟩ := (hmem x).1 (by simp [hsplit])
    cases hp : t.parent x with
    | none => exact Or.inl ((hf.isWithin_of_top hp).1 hw)
    | some p =>
        refine ((hf.isWithin_of_parent hp).1 hw).imp_right fun hpw => ⟨p, ?_, rfl⟩
        have hpl := (hmem p).2 ⟨hf.container_contained hp, hpw⟩
        rw [hsplit] at hpl horder
        have hafter : ∀ y ∈ after, t.parent x ≠ some y :=
          (List.pairwise_cons.1 (List.pairwise_append.1 horder).2.1).1
        rcases List.mem_append.1 hpl with hpl | hpl
        · exact hpl
        · rcases List.mem_cons.1 hpl with rfl | hpl
          · exact absurd (isWithin_refl p) (hf.not_isWithin_parent hp)
          · exact absurd hp (hafter p hpl)

/-! ## The walk that goes down first -/

theorem Forest.walk_eq_cons (hf : t.Forest) (hstart : t.contains start = true) :
    t.walk start = start :: (t.children start).flatMap t.walk := by
  have hwalk : searchUpTo t.walkStep t.elements.capacity = t.walk :=
    funext fun x => (t.walkUpTo_eq _ x).symm
  rw [← hwalk, hf.search_eq t.inward_walkStep, walkStep, if_pos hstart]
  rfl

theorem Forest.exhausts_walk (hf : t.Forest) (start : ElementId) :
    Exhausts t.walkStep onTop [start] (t.walk start) := by
  have hloop := hf.exhausts_onTop t.inward_walkStep [start]
  rwa [List.flatMap_singleton, ← t.walkUpTo_eq] at hloop

theorem walk_eq_nil (h : ¬ t.contains start = true) : t.walk start = [] := by
  rw [walk]
  cases t.elements.capacity with
  | zero => rfl
  | succ fuel => rw [walkUpTo, if_neg h]

/-- The walk from an element is one piece of the walk from any other that leads to it. -/
theorem Forest.walk_infix (hf : t.Forest) (hx : x ∈ t.walk start) :
    t.walk x <:+: t.walk start := by
  induction start using hf.inward_induction with
  | h start ih =>
      by_cases hstart : t.contains start = true
      · rw [hf.walk_eq_cons hstart] at hx
        rcases List.mem_cons.1 hx with rfl | hx
        · exact List.infix_refl _
        · obtain ⟨c, hc, hxc⟩ := List.mem_flatMap.1 hx
          have hpiece : t.walk c <:+: (t.children start).flatMap t.walk := by
            obtain ⟨before, after, hsplit⟩ := List.append_of_mem hc
            rw [hsplit, List.flatMap_append, List.flatMap_cons]
            exact ⟨_, _, List.append_assoc _ _ _⟩
          rw [hf.walk_eq_cons hstart]
          exact (ih c hc hxc).trans (hpiece.trans (List.suffix_cons _ _).isInfix)
      · simp [walk_eq_nil hstart] at hx

theorem Forest.walk_ordered (hf : t.Forest) (start : ElementId) :
    (t.walk start).Pairwise fun x y => t.parent x ≠ some y := by
  induction start using hf.inward_induction with
  | h start ih =>
      by_cases hstart : t.contains start = true
      · have hinside : ∀ y ∈ (t.children start).flatMap t.walk, t.isWithin y start = true := by
          intro y hy
          have hwalk : y ∈ t.walk start := by
            rw [hf.walk_eq_cons hstart]
            exact List.mem_cons_of_mem _ hy
          exact (hf.mem_walk.1 hwalk).2
        rw [hf.walk_eq_cons hstart]
        refine List.pairwise_cons.2 ⟨?_, List.pairwise_flatMap.2 ⟨ih, ?_⟩⟩
        · intro y hy hp
          exact hf.not_isWithin_parent hp (hinside y hy)
        · refine (hf.nodup_children start).imp_of_mem fun {c c'} hc hc' hne => ?_
          intro x hx y hy hp
          have hpc := hf.parent_of_mem hc
          have hpc' := hf.parent_of_mem hc'
          have hyc' := (hf.mem_walk.1 hy).2
          rcases (hf.isWithin_of_parent hp).1 (hf.mem_walk.1 hx).2 with rfl | hyc
          · obtain rfl := Option.some.inj (hp.symm.trans hpc)
            exact hf.not_isWithin_parent hpc' hyc'
          · exact hne (hf.eq_of_isWithin hpc hpc' hyc hyc')
      · rw [walk_eq_nil hstart]
        exact List.Pairwise.nil

theorem Forest.traverses_walk (hf : t.Forest) (start : ElementId) :
    t.Traverses start (t.walk start) :=
  hf.traverses (fun _ => hf.mem_walk) (hf.nodup_walk start) (hf.walk_ordered start)

/-! ## The walk level by level -/

theorem flatMap_listed_walkStep (t : Tree) (level : List ElementId) :
    (level.flatMap fun x => (t.walkStep x).listed) = level.filter t.contains := by
  simp only [listed_walkStep, flatMap_ite_nil, List.flatMap_singleton']

theorem flatMap_next_walkStep (t : Tree) (level : List ElementId) :
    (level.flatMap fun x => (t.walkStep x).next) =
      (level.filter t.contains).flatMap t.children := by
  simp only [next_walkStep, flatMap_ite_nil]

theorem levelsUpTo_succ (t : Tree) (fuel : Nat) (level : List ElementId) :
    t.levelsUpTo (fuel + 1) level = (level.flatMap fun x => (t.walkStep x).listed) ++
      t.levelsUpTo fuel (level.flatMap fun x => (t.walkStep x).next) := by
  rw [flatMap_listed_walkStep, flatMap_next_walkStep]
  rfl

theorem perm_levelsUpTo (t : Tree) (fuel : Nat) (level : List ElementId) :
    (t.levelsUpTo fuel level).Perm (level.flatMap (t.walkUpTo fuel)) := by
  induction fuel generalizing level with
  | zero => simp [levelsUpTo, walkUpTo]
  | succ fuel ih =>
      have hwalk : t.walkUpTo (fuel + 1) = fun x =>
          (t.walkStep x).listed ++ (t.walkStep x).next.flatMap (t.walkUpTo fuel) := by
        funext x
        rw [walkUpTo_eq, searchUpTo, funext (t.walkUpTo_eq fuel)]
      rw [levelsUpTo_succ, hwalk]
      refine ((ih _).append_left _).trans ?_
      rw [List.flatMap_assoc]
      exact List.flatMap_append_perm _ _ _

theorem perm_walkLevels (t : Tree) (start : ElementId) :
    (t.walkLevels start).Perm (t.walk start) := by
  have hperm := t.perm_levelsUpTo t.elements.capacity [start]
  rwa [List.flatMap_singleton] at hperm

namespace Forest

theorem length_ancestors_of_level (hf : t.Forest) {depth : Nat}
    (h : ∀ x ∈ level, (t.ancestors x).length = depth) :
    ∀ x ∈ level.flatMap fun x => (t.walkStep x).next, (t.ancestors x).length = depth + 1 := by
  intro c hc
  obtain ⟨x, hx, hcx⟩ := List.mem_flatMap.1 hc
  rw [hf.length_ancestors_of_mem (t.inward_walkStep.next hcx), h x hx]

theorem levelsUpTo_sorted (hf : t.Forest) {depth : Nat}
    (h : ∀ x ∈ level, (t.ancestors x).length = depth) :
    (∀ x ∈ t.levelsUpTo fuel level, depth ≤ (t.ancestors x).length) ∧
    (t.levelsUpTo fuel level).Pairwise fun x y =>
      (t.ancestors x).length ≤ (t.ancestors y).length := by
  induction fuel generalizing level depth with
  | zero => simp [levelsUpTo]
  | succ fuel ih =>
      obtain ⟨hdeeper, hsorted⟩ := ih (hf.length_ancestors_of_level h)
      have hlive : ∀ x ∈ level.flatMap fun x => (t.walkStep x).listed,
          (t.ancestors x).length = depth := by
        intro x hx
        rw [flatMap_listed_walkStep] at hx
        exact h x (List.mem_of_mem_filter hx)
      rw [levelsUpTo_succ]
      constructor
      · intro x hx
        rcases List.mem_append.1 hx with hx | hx
        · have := hlive x hx
          omega
        · have := hdeeper x hx
          omega
      · refine List.pairwise_append.2 ⟨?_, hsorted, ?_⟩
        · refine List.pairwise_of_forall_mem_list fun x hx y hy => ?_
          have := hlive x hx
          have := hlive y hy
          omega
        · intro x hx y hy
          have := hlive x hx
          have := hdeeper y hy
          omega

theorem walkLevels_sorted (hf : t.Forest) (start : ElementId) :
    (t.walkLevels start).Pairwise fun x y =>
      (t.ancestors x).length ≤ (t.ancestors y).length :=
  (hf.levelsUpTo_sorted fun _ hx => by rw [List.mem_singleton.1 hx]).2

theorem traverses_walkLevels (hf : t.Forest) (start : ElementId) :
    t.Traverses start (t.walkLevels start) := by
  have hperm := t.perm_walkLevels start
  refine hf.traverses (fun x => hperm.mem_iff.trans hf.mem_walk)
    (hperm.nodup_iff.2 (hf.nodup_walk start)) ?_
  refine (hf.walkLevels_sorted start).imp fun {x y} hle hp => ?_
  rw [hf.ancestors_step hp, List.length_cons] at hle
  omega

theorem exhausts_levelsUpTo (hf : t.Forest)
    (h : ∀ x ∈ level, t.elements.capacity ≤ fuel + (t.ancestors x).length) :
    Exhausts t.walkStep atEnd level (t.levelsUpTo fuel level) := by
  induction fuel generalizing level with
  | zero =>
      have hdead : ∀ x ∈ level, ¬ t.contains x = true := by
        intro x hx hlive
        have := h x hx
        have := hf.length_ancestors_lt_capacity hlive
        omega
      have hnone : level.filter t.contains = [] := List.filter_eq_nil_iff.2 hdead
      have hend : Exhausts t.walkStep atEnd (level.flatMap fun x => (t.walkStep x).next) [] := by
        rw [flatMap_next_walkStep, hnone]
        exact .done
      have hloop := hend.level
      rwa [flatMap_listed_walkStep, hnone, List.append_nil] at hloop
  | succ fuel ih =>
      have hnext : ∀ c ∈ level.flatMap fun x => (t.walkStep x).next,
          t.elements.capacity ≤ fuel + (t.ancestors c).length := by
        intro c hc
        obtain ⟨x, hx, hcx⟩ := List.mem_flatMap.1 hc
        have := h x hx
        have := hf.length_ancestors_of_mem (t.inward_walkStep.next hcx)
        omega
      rw [levelsUpTo_succ]
      exact .level (ih hnext)

theorem exhausts_walkLevels (hf : t.Forest) (start : ElementId) :
    Exhausts t.walkStep atEnd [start] (t.walkLevels start) :=
  hf.exhausts_levelsUpTo (by simp)

end Forest

end ReportModel.Tree
