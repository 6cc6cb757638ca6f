import ReportModel.Proofs.Element
import ReportModel.Proofs.Tree.Ascent

/-!
# Forests

A tree is a forest if links to containers and contents of slots say the same, and every way up ends.
In a forest a walk from an element meets exactly the elements whose way up leads through it, each of
them once.
-/

namespace ReportModel.Tree

/-- Links to containers and contents of slots agree, and contents are what the slots allow. -/
structure Forest (t : Tree) : Prop where
  root_top : ∃ e, t.get? t.root = some e ∧ e.place = none
  ascends : ∀ id, ∃ l, t.Ascends id l
  parent_of_mem : ∀ {c x}, x ∈ t.children c → t.parent x = some c
  mem_of_place : ∀ {x e p}, t.get? x = some e → e.place = some p →
    x ∈ t.contents p.container p.slot
  nodup_children : ∀ c, (t.children c).Nodup
  slots_defined : ∀ {c e}, t.get? c = some e →
    e.slots.map (·.name) = (t.dictionary.slots e.typeName).map (·.name)
  accepted : ∀ {x e p host}, t.get? x = some e → e.place = some p →
    t.get? p.container = some host →
    ∃ definition, t.dictionary.slot? host.typeName p.slot = some definition ∧
      definition.allowed.any (t.dictionary.isKindOf e.typeName) = true
  single : ∀ {c host slot definition}, t.get? c = some host →
    t.dictionary.slot? host.typeName slot = some definition → definition.multiple = false →
    (t.contents c slot).length ≤ 1

theorem contents_sublist_children (t : Tree) (c : ElementId) (slot : String) :
    (t.contents c slot).Sublist (t.children c) := by
  cases hc : t.get? c with
  | none => simp [contents, hc]
  | some e =>
      cases hs : e.slot? slot with
      | none => simp [contents, hc, hs]
      | some l =>
          rw [contents_eq hc hs, children_eq hc]
          exact Element.contents_sublist_children hs

namespace Forest

variable {t : Tree} {x y c p : ElementId}

theorem root_contained (hf : t.Forest) : t.contains t.root = true := by
  obtain ⟨e, he, -⟩ := hf.root_top
  exact contains_of_get? he

theorem parent_root (hf : t.Forest) : t.parent t.root = none := by
  obtain ⟨e, he, hplace⟩ := hf.root_top
  simp [parent, he, hplace]

theorem ne_root_of_parent (hf : t.Forest) (h : t.parent x = some p) : x ≠ t.root := by
  rintro rfl
  simp [hf.parent_root] at h

theorem parent_of_mem_contents (hf : t.Forest) {slot : String} (h : x ∈ t.contents c slot) :
    t.parent x = some c :=
  hf.parent_of_mem ((contents_sublist_children t c slot).subset h)

theorem container_contained (hf : t.Forest) (h : t.parent x = some p) :
    t.contains p = true := by
  obtain ⟨e, place, he, hplace, rfl⟩ := parent_eq_some_iff.1 h
  obtain ⟨ec, -, hec, -⟩ := mem_contents_iff.1 (hf.mem_of_place he hplace)
  exact contains_of_get? hec

theorem contained_of_mem (hf : t.Forest) {l : List ElementId} (h : t.Ascends x l)
    (hx : t.contains x = true) : ∀ y ∈ x :: l, t.contains y = true := by
  induction h with
  | top =>
      intro y hy
      rw [List.mem_singleton.1 hy]
      exact hx
  | step hp _ ih =>
      intro y hy
      rcases List.mem_cons.1 hy with rfl | hy
      · exact hx
      · exact ih (hf.container_contained hp) y hy

theorem length_lt_capacity (hf : t.Forest) {l : List ElementId} (h : t.Ascends x l)
    (hx : t.contains x = true) : l.length < t.elements.capacity :=
  Arena.length_le_capacity h.nodup (hf.contained_of_mem h hx)

theorem parent_eq_none_of_not_contains (h : ¬ t.contains x = true) : t.parent x = none := by
  cases hp : t.parent x with
  | none => rfl
  | some p => exact absurd (contains_of_parent hp) h

theorem ascends_ancestors (hf : t.Forest) (x : ElementId) : t.Ascends x (t.ancestors x) := by
  obtain ⟨l, hl⟩ := hf.ascends x
  have heq : t.ancestors x = l := by
    by_cases hx : t.contains x = true
    · exact hl.ancestorsUpTo_eq (Nat.le_of_lt (hf.length_lt_capacity hl hx))
    · cases hl with
      | top => exact (Ascends.top (parent_eq_none_of_not_contains hx)).ancestorsUpTo_eq (by simp)
      | step hp => simp [parent_eq_none_of_not_contains hx] at hp
  exact heq ▸ hl

theorem ancestors_eq (hf : t.Forest) {l : List ElementId} (h : t.Ascends x l) :
    t.ancestors x = l :=
  (hf.ascends_ancestors x).unique h

theorem ancestors_top (hf : t.Forest) (h : t.parent x = none) : t.ancestors x = [] :=
  hf.ancestors_eq (.top h)

theorem ancestors_step (hf : t.Forest) (h : t.parent x = some p) :
    t.ancestors x = p :: t.ancestors p :=
  hf.ancestors_eq (.step h (hf.ascends_ancestors p))

theorem isWithin_of_parent (hf : t.Forest) (h : t.parent x = some p) :
    t.isWithin x y = true ↔ x = y ∨ t.isWithin p y = true := by
  rw [isWithin_iff, isWithin_iff_mem, hf.ancestors_step h]

theorem isWithin_of_top (hf : t.Forest) (h : t.parent x = none) :
    t.isWithin x y = true ↔ x = y := by
  simp [isWithin_iff, hf.ancestors_top h]

theorem not_isWithin_parent (hf : t.Forest) (h : t.parent x = some p) :
    ¬ t.isWithin p x = true := by
  intro hw
  have hnd := (hf.ascends_ancestors x).nodup
  rw [hf.ancestors_step h] at hnd
  rcases isWithin_iff.1 hw with rfl | hw
  · simp at hnd
  · exact (List.nodup_cons.1 hnd).1 (List.mem_cons_of_mem _ hw)

theorem eq_of_isWithin (hf : t.Forest) {c' : ElementId} (hc : t.parent c = some p)
    (hc' : t.parent c' = some p) (hx : t.isWithin x c = true) (hx' : t.isWithin x c' = true) :
    c = c' := by
  have hup := hf.ascends_ancestors x
  obtain ⟨k, hk⟩ := List.getElem?_of_mem (isWithin_iff_mem.1 hx)
  obtain ⟨k', hk'⟩ := List.getElem?_of_mem (isWithin_iff_mem.1 hx')
  -- both stand one step in front of their container on the way up
  have hnext := hup.getElem?_succ hk
  have hnext' := hup.getElem?_succ hk'
  rw [hc] at hnext
  rw [hc'] at hnext'
  obtain ⟨hlt, hget⟩ := List.getElem?_eq_some_iff.1 hnext
  obtain ⟨hlt', hget'⟩ := List.getElem?_eq_some_iff.1 hnext'
  have hkk : k + 1 = k' + 1 := (hup.nodup.getElem_inj_iff).1 (hget.trans hget'.symm)
  obtain rfl : k = k' := by omega
  exact Option.some.inj (hk.symm.trans hk')

theorem isAttached_iff (hf : t.Forest) :
    t.isAttached x = true ↔ t.contains x = true ∧ t.isWithin x t.root = true := by
  simp only [isAttached, Bool.and_eq_true, Bool.or_eq_true, decide_eq_true_eq, isWithin_iff]
  refine and_congr_right fun _ => or_congr_right ⟨List.mem_of_getLast?, fun hroot => ?_⟩
  obtain ⟨before, after, hsplit, hafter⟩ := (hf.ascends_ancestors x).of_mem hroot
  obtain rfl := hafter.unique (.top hf.parent_root)
  rw [hsplit, List.getLast?_append, List.getLast?_singleton, Option.some_or]

theorem isAttached_root (hf : t.Forest) : t.isAttached t.root = true :=
  hf.isAttached_iff.2 ⟨hf.root_contained, isWithin_refl t.root⟩

theorem isAttached_of_parent (hf : t.Forest) (h : t.parent x = some p) :
    t.isAttached x = true ↔ t.isAttached p = true := by
  rw [hf.isAttached_iff, hf.isAttached_iff, hf.isWithin_of_parent h]
  simp [hf.ne_root_of_parent h, contains_of_parent h, hf.container_contained h]

theorem contained_of_isAttached (h : t.isAttached x = true) : t.contains x = true := by
  simp only [isAttached, Bool.and_eq_true] at h
  exact h.1

theorem contents_nodup (hf : t.Forest) (c : ElementId) (slot : String) :
    (t.contents c slot).Nodup :=
  (hf.nodup_children c).sublist (contents_sublist_children t c slot)

theorem mem_children_iff (hf : t.Forest) : x ∈ t.children c ↔ t.parent x = some c := by
  refine ⟨hf.parent_of_mem, fun hx => ?_⟩
  obtain ⟨e, place, he, hplace, rfl⟩ := parent_eq_some_iff.1 hx
  exact (contents_sublist_children t _ _).subset (hf.mem_of_place he hplace)

theorem place_of_mem (hf : t.Forest) {e : Element} {s : Slot} (hc : t.get? c = some e)
    (hs : s ∈ e.slots) (hx : x ∈ s.contents) :
    ∃ ex, t.get? x = some ex ∧ ex.place = some ⟨c, s.name⟩ := by
  have hchild : x ∈ t.children c := by
    rw [children_eq hc, Element.mem_children]
    exact ⟨s, hs, hx⟩
  obtain ⟨ex, place, hex, hplace, rfl⟩ := parent_eq_some_iff.1 (hf.parent_of_mem hchild)
  obtain ⟨e', l, he', hl, hxl⟩ := mem_contents_iff.1 (hf.mem_of_place hex hplace)
  obtain rfl := Option.some.inj (hc.symm.trans he')
  have hnd := hf.nodup_children place.container
  rw [children_eq hc] at hnd
  have hsame := Element.slot_eq_of_mem hnd (Element.mem_slots_of_slot? hl) hs hxl hx
  exact ⟨ex, hex, by rw [hplace, ← hsame]⟩

theorem mem_contents_iff_place (hf : t.Forest) {slot : String} :
    x ∈ t.contents c slot ↔ ∃ e, t.get? x = some e ∧ e.place = some ⟨c, slot⟩ := by
  constructor
  · intro hx
    obtain ⟨e, l, he, hl, hxl⟩ := mem_contents_iff.1 hx
    exact hf.place_of_mem he (Element.mem_slots_of_slot? hl) hxl
  · intro h
    obtain ⟨e, he, hplace⟩ := h
    exact hf.mem_of_place he hplace

/-- `fuel` levels of a walk reach the elements that are less than `fuel` links below its start. -/
theorem mem_walkUpTo (hf : t.Forest) {fuel : Nat} {start : ElementId} :
    x ∈ t.walkUpTo fuel start ↔
      t.contains x = true ∧ ∃ k < fuel, (x :: t.ancestors x)[k]? = some start := by
  induction fuel generalizing start with
  | zero => simp [walkUpTo]
  | succ fuel ih =>
      have hup := hf.ascends_ancestors x
      simp only [walkUpTo]
      constructor
      · intro hx
        split at hx
        · next hstart =>
          rcases List.mem_cons.1 hx with rfl | hx
          · exact ⟨hstart, 0, by omega, rfl⟩
          · obtain ⟨c, hc, hxc⟩ := List.mem_flatMap.1 hx
            obtain ⟨hlive, k, hk, hget⟩ := ih.1 hxc
            refine ⟨hlive, k + 1, by omega, ?_⟩
            rw [hup.getElem?_succ hget, hf.mem_children_iff.1 hc]
        · simp at hx
      · intro h
        obtain ⟨hlive, k, hk, hget⟩ := h
        have hstart : t.contains start = true :=
          hf.contained_of_mem hup hlive start (List.mem_of_getElem? hget)
        rw [if_pos hstart]
        cases k with
        | zero =>
            obtain rfl : x = start := by simpa using hget
            exact List.mem_cons_self
        | succ k =>
            -- the element before `start` on the way up is a child of `start`
            have hlt : k < (x :: t.ancestors x).length := by
              have := (List.getElem?_eq_some_iff.1 hget).1
              omega
            have hbelow := List.getElem?_eq_getElem hlt
            have hparent := hup.getElem?_succ hbelow
            rw [hget] at hparent
            refine List.mem_cons_of_mem _ (List.mem_flatMap.2 ⟨_, ?_, ih.2 ⟨hlive, k, by omega,
              hbelow⟩⟩)
            exact hf.mem_children_iff.2 hparent.symm

theorem mem_walk (hf : t.Forest) {start : ElementId} :
    x ∈ t.walk start ↔ t.contains x = true ∧ t.isWithin x start = true := by
  rw [walk, hf.mem_walkUpTo, isWithin_iff_mem]
  refine and_congr_right fun hlive => ⟨fun ⟨k, _, hk⟩ => List.mem_of_getElem? hk, fun hmem => ?_⟩
  obtain ⟨k, hk⟩ := List.getElem?_of_mem hmem
  have hlt := (List.getElem?_eq_some_iff.1 hk).1
  have := hf.length_lt_capacity (hf.ascends_ancestors x) hlive
  simp only [List.length_cons] at hlt
  exact ⟨k, by omega, hk⟩

theorem mem_walk_self (hf : t.Forest) (h : t.contains x = true) : x ∈ t.walk x :=
  hf.mem_walk.2 ⟨h, isWithin_refl x⟩

theorem mem_attached (hf : t.Forest) : x ∈ t.attached ↔ t.isAttached x = true := by
  rw [attached, hf.mem_walk, hf.isAttached_iff]

theorem nodup_walkUpTo (hf : t.Forest) (fuel : Nat) (start : ElementId) :
    (t.walkUpTo fuel start).Nodup := by
  induction fuel generalizing start with
  | zero => simp [walkUpTo]
  | succ fuel ih =>
      simp only [walkUpTo]
      split
      · refine List.nodup_cons.2 ⟨fun hmem => ?_, List.nodup_flatMap.2 ⟨fun c _ => ih c, ?_⟩⟩
        · obtain ⟨c, hc, hstart⟩ := List.mem_flatMap.1 hmem
          obtain ⟨-, k, -, hk⟩ := hf.mem_walkUpTo.1 hstart
          have hw : t.isWithin start c = true := isWithin_iff_mem.2 (List.mem_of_getElem? hk)
          exact hf.not_isWithin_parent (hf.mem_children_iff.1 hc) hw
        · refine (hf.nodup_children start).imp_of_mem fun {c c'} hc hc' hne => ?_
          intro x hx hx'
          obtain ⟨-, k, -, hk⟩ := hf.mem_walkUpTo.1 hx
          obtain ⟨-, k', -, hk'⟩ := hf.mem_walkUpTo.1 hx'
          exact hne (hf.eq_of_isWithin (hf.mem_children_iff.1 hc) (hf.mem_children_iff.1 hc')
            (isWithin_iff_mem.2 (List.mem_of_getElem? hk))
            (isWithin_iff_mem.2 (List.mem_of_getElem? hk')))
      · simp

theorem nodup_walk (hf : t.Forest) (start : ElementId) : (t.walk start).Nodup :=
  hf.nodup_walkUpTo _ start

end Forest

theorem walk_of_children_eq_nil {t : Tree} {x : ElementId} (hlive : t.contains x = true)
    (h : t.children x = []) : t.walk x = [x] := by
  have hcapacity : [x].length ≤ t.elements.capacity :=
    Arena.length_le_capacity (List.nodup_singleton x) fun y hy => by rwa [List.mem_singleton.1 hy]
  obtain ⟨n, hn⟩ : ∃ n, t.elements.capacity = n + 1 :=
    Nat.exists_eq_succ_of_ne_zero (by simp at hcapacity; omega)
  rw [walk, hn, walkUpTo, if_pos hlive, h, List.flatMap_nil]

/-- Walks agree in trees of the same capacity in which what is walked has the same contents. -/
theorem walk_congr {t t' : Tree} {start : ElementId}
    (hcap : t'.elements.capacity = t.elements.capacity)
    (hlive : ∀ x, t'.contains x = t.contains x)
    (h : ∀ x ∈ t.walk start, t'.children x = t.children x) : t'.walk start = t.walk start := by
  have hwalk : ∀ fuel start, (∀ x ∈ t.walkUpTo fuel start, t'.children x = t.children x) →
      t'.walkUpTo fuel start = t.walkUpTo fuel start := by
    intro fuel
    induction fuel with
    | zero => intros; rfl
    | succ fuel ih =>
        intro start h
        simp only [walkUpTo] at h ⊢
        rw [hlive]
        split
        · next hstart =>
          rw [if_pos hstart] at h
          rw [h start List.mem_cons_self]
          refine congrArg (start :: ·) (List.flatMap_congr fun c hc => ih c fun x hx => ?_)
          exact h x (List.mem_cons_of_mem _ (List.mem_flatMap.2 ⟨c, hc, hx⟩))
        · rfl
  rw [walk, hcap]
  exact hwalk _ _ h

end ReportModel.Tree
