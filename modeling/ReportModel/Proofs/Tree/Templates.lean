import ReportModel.Proofs.Tree.Traversal

/-!
# Items made from templates

The search for items made from templates does not go on below an item that it finds. So it lists the
outermost of them, in the order in which the walk from the root meets them.
-/

namespace ReportModel

theorem filter_mem_of_sublist {α : Type} [DecidableEq α] {part l : List α} (h : part.Sublist l)
    (hnodup : l.Nodup) : (l.filter fun a => decide (a ∈ part)) = part := by
  induction h with
  | slnil => rfl
  | @cons part l a h ih =>
      obtain ⟨hnot, hnodup⟩ := List.nodup_cons.1 hnodup
      have hout : a ∉ part := fun ha => hnot (h.subset ha)
      rw [List.filter_cons_of_neg (by simpa using hout), ih hnodup]
  | @cons_cons part l a h ih =>
      obtain ⟨hnot, hnodup⟩ := List.nodup_cons.1 hnodup
      have hrest : ∀ b ∈ l, decide (b ∈ a :: part) = decide (b ∈ part) := by
        intro b hb
        have hne : b ≠ a := fun hba => hnot (hba ▸ hb)
        simp [hne]
      rw [List.filter_cons_of_pos (by simp), List.filter_congr hrest, ih hnodup]

namespace Tree

variable {t : Tree} {x : ElementId} {slot slot' : String}

def isTemplated (t : Tree) (id : ElementId) : Bool :=
  (t.get? id).any fun e => (e.value? Vocabulary.templateProperty).isSome

/-- Whether an element stands in a slot of the root or lies in what stands there. -/
def isBelow (t : Tree) (slot : String) (id : ElementId) : Bool :=
  (t.contents t.root slot).any (t.isWithin id)

/-- Whether an element is made from a template and nothing around it is, the root apart. -/
def isOutermost (t : Tree) (id : ElementId) : Bool :=
  t.isTemplated id && (t.ancestors id).all fun outer => outer = t.root || !t.isTemplated outer

/-- The outermost items made from templates below a slot of the root, in the order in which the walk
from the root meets them. -/
def outermostBelow (t : Tree) (slot : String) : List ElementId :=
  t.attached.filter fun id => t.isBelow slot id && t.isOutermost id

theorem isOutermost_iff : t.isOutermost x = true ↔ t.isTemplated x = true ∧
    ∀ outer ∈ t.ancestors x, outer ≠ t.root → t.isTemplated outer = false := by
  simp only [isOutermost, Bool.and_eq_true, List.all_eq_true, Bool.or_eq_true, decide_eq_true_eq,
    Bool.not_eq_true']
  refine and_congr_right fun _ => forall₂_congr fun outer _ => ?_
  by_cases houter : outer = t.root <;> simp [houter]

namespace Forest

theorem not_isOutermost_of_mem_walkUpTo (hf : t.Forest) {c y : ElementId} {fuel : Nat}
    (hroot : x ≠ t.root) (hx : t.isTemplated x = true) (hc : c ∈ t.children x)
    (hy : y ∈ t.walkUpTo fuel c) : ¬ t.isOutermost y = true := by
  intro hout
  obtain ⟨-, k, -, hk⟩ := hf.mem_walkUpTo.1 hy
  have hup := (hf.ascends_ancestors y).getElem?_succ hk
  rw [hf.parent_of_mem hc] at hup
  have hplain := (isOutermost_iff.1 hout).2 x (List.mem_of_getElem? hup) hroot
  rw [hplain] at hx
  cases hx

theorem templateItemsUpTo_eq_filter (hf : t.Forest) (fuel : Nat) (hroot : x ≠ t.root)
    (houter : ∀ outer ∈ t.ancestors x, outer ≠ t.root → t.isTemplated outer = false) :
    t.templateItemsUpTo fuel x = (t.walkUpTo fuel x).filter t.isOutermost := by
  induction fuel generalizing x with
  | zero => rfl
  | succ fuel ih =>
      cases he : t.get? x with
      | none =>
          have hdead : ¬ t.contains x = true := by
            simp [contains_iff, he]
          rw [templateItemsUpTo, he, walkUpTo, if_neg hdead]
          rfl
      | some e =>
          have hmarked : t.isTemplated x = (e.value? Vocabulary.templateProperty).isSome := by
            rw [isTemplated, he]
            rfl
          rw [templateItemsUpTo, he, walkUpTo, if_pos (contains_of_get? he)]
          dsimp only
          rw [← hmarked]
          split
          · -- the search ends at an item, and nothing inside it is outermost
            next hx =>
            have hinside : ∀ y ∈ (t.children x).flatMap (t.walkUpTo fuel),
                ¬ t.isOutermost y = true := by
              intro y hy
              obtain ⟨c, hc, hyc⟩ := List.mem_flatMap.1 hy
              exact hf.not_isOutermost_of_mem_walkUpTo hroot hx hc hyc
            rw [List.filter_cons_of_pos (isOutermost_iff.2 ⟨hx, houter⟩),
              List.filter_eq_nil_iff.2 hinside]
          · next hx =>
            have hnot : ¬ t.isOutermost x = true := fun hout => hx (isOutermost_iff.1 hout).1
            rw [List.filter_cons_of_neg hnot, List.filter_flatMap, children_eq he]
            refine List.flatMap_congr fun c hc => ?_
            rw [← children_eq he] at hc
            have hparent := hf.parent_of_mem hc
            refine ih (hf.ne_root_of_parent hparent) ?_
            intro outer hmem hne
            rw [hf.ancestors_step hparent] at hmem
            rcases List.mem_cons.1 hmem with rfl | hmem
            · simpa using hx
            · exact houter outer hmem hne

theorem filter_isBelow_attached (hf : t.Forest) (slot : String) :
    t.attached.filter (t.isBelow slot) = t.slotDescendants slot := by
  have hroot : ¬ t.isBelow slot t.root = true := by
    intro hbelow
    obtain ⟨top, htop, hw⟩ := List.any_eq_true.1 hbelow
    exact hf.not_isWithin_parent (hf.parent_of_mem_contents htop) hw
  have hchild : ∀ c ∈ t.children t.root, (t.walk c).filter (t.isBelow slot) =
      if decide (c ∈ t.contents t.root slot) then t.walk c else [] := by
    intro c hc
    split
    · next hmem =>
      refine List.filter_eq_self.2 fun x hx => ?_
      exact List.any_eq_true.2 ⟨c, of_decide_eq_true hmem, (hf.mem_walk.1 hx).2⟩
    · next hmem =>
      refine List.filter_eq_nil_iff.2 fun x hx hbelow => ?_
      obtain ⟨top, htop, hw⟩ := List.any_eq_true.1 hbelow
      have heq := hf.eq_of_isWithin (hf.parent_of_mem hc) (hf.parent_of_mem_contents htop)
        (hf.mem_walk.1 hx).2 hw
      exact hmem (decide_eq_true (heq ▸ htop))
  rw [attached, hf.walk_eq_cons hf.root_contained, List.filter_cons_of_neg hroot,
    List.filter_flatMap, List.flatMap_congr hchild, flatMap_ite_nil,
    filter_mem_of_sublist (contents_sublist_children t t.root slot) (hf.nodup_children t.root)]
  rfl

theorem flatMap_templateItemsUpTo (hf : t.Forest) (slot : String) :
    (t.contents t.root slot).flatMap (t.templateItemsUpTo t.elements.capacity) =
      t.outermostBelow slot := by
  have htop : ∀ top ∈ t.contents t.root slot,
      t.templateItemsUpTo t.elements.capacity top = (t.walk top).filter t.isOutermost := by
    intro top htop
    have hparent := hf.parent_of_mem_contents htop
    refine hf.templateItemsUpTo_eq_filter _ (hf.ne_root_of_parent hparent) ?_
    intro outer hmem hne
    rw [hf.ancestors_step hparent, hf.ancestors_top hf.parent_root] at hmem
    exact absurd (List.mem_singleton.1 hmem) hne
  rw [List.flatMap_congr htop, ← List.filter_flatMap, ← slotDescendants,
    ← hf.filter_isBelow_attached, List.filter_filter, outermostBelow]
  simp only [Bool.and_comm]

theorem exhausts_outermostBelow (hf : t.Forest) (slot : String) :
    Exhausts t.templateStep onTop (t.contents t.root slot) (t.outermostBelow slot) := by
  have hloop := hf.exhausts_onTop t.inward_templateStep (t.contents t.root slot)
  rwa [← funext (t.templateItemsUpTo_eq t.elements.capacity), hf.flatMap_templateItemsUpTo] at hloop

theorem templateItems_eq (hf : t.Forest) (slots : List String) :
    t.templateItems slots = slots.flatMap t.outermostBelow :=
  List.flatMap_congr fun slot _ => hf.flatMap_templateItemsUpTo slot

theorem slot_eq_of_isBelow (hf : t.Forest) (h : t.isBelow slot x = true)
    (h' : t.isBelow slot' x = true) : slot = slot' := by
  obtain ⟨top, htop, hw⟩ := List.any_eq_true.1 h
  obtain ⟨top', htop', hw'⟩ := List.any_eq_true.1 h'
  obtain rfl := hf.eq_of_isWithin (hf.parent_of_mem_contents htop)
    (hf.parent_of_mem_contents htop') hw hw'
  obtain ⟨e, he, hplace⟩ := hf.mem_contents_iff_place.1 htop
  obtain ⟨e', he', hplace'⟩ := hf.mem_contents_iff_place.1 htop'
  obtain rfl := Option.some.inj (he.symm.trans he')
  simpa using hplace.symm.trans hplace'

theorem contains_of_isWithin (hf : t.Forest) {y : ElementId} (hy : t.contains y = true)
    (hw : t.isWithin x y = true) : t.contains x = true := by
  cases hp : t.parent x with
  | none => rwa [(hf.isWithin_of_top hp).1 hw]
  | some p => exact contains_of_parent hp

theorem isAttached_of_isBelow (hf : t.Forest) (h : t.isBelow slot x = true) :
    t.isAttached x = true := by
  obtain ⟨top, htop, hw⟩ := List.any_eq_true.1 h
  have hparent := hf.parent_of_mem_contents htop
  have htop := (hf.isAttached_of_parent hparent).2 hf.isAttached_root
  have hlive := hf.contains_of_isWithin (contained_of_isAttached htop) hw
  exact (hf.isAttached_of_isWithin hlive hw).2 htop

theorem mem_outermostBelow (hf : t.Forest) : x ∈ t.outermostBelow slot ↔
    t.isBelow slot x = true ∧ t.isOutermost x = true := by
  rw [outermostBelow, List.mem_filter, Bool.and_eq_true, hf.mem_attached]
  exact and_iff_right_of_imp fun h => hf.isAttached_of_isBelow h.1

theorem nodup_outermostBelow (hf : t.Forest) (slots : List String) (h : slots.Nodup) :
    (slots.flatMap t.outermostBelow).Nodup := by
  refine List.nodup_flatMap.2 ⟨fun slot _ => (hf.nodup_walk t.root).sublist List.filter_sublist, ?_⟩
  refine h.imp fun {slot slot'} hne => ?_
  intro x hx hx'
  exact hne (hf.slot_eq_of_isBelow (hf.mem_outermostBelow.1 hx).1 (hf.mem_outermostBelow.1 hx').1)

end Forest

end Tree

end ReportModel
