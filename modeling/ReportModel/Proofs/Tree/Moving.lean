import ReportModel.Proofs.Tree.Bare
import ReportModel.Proofs.Tree.Renaming

/-!
# Moves

An element that moves is taken out of the slot it stands in and put at an index of another slot, or
of the same one; the index counts without the element. But for names the tree is then the one with
the element linked anew. The names of attached elements stay as they are if the element claims in
its new place what it claimed in the old one, so that a move to where the element stands changes
nothing at all.
-/

namespace ReportModel.Tree

variable {t t' : Tree} {id x : ElementId} {old place : Place} {index : Nat} {e : Element}

def contentsWithout (t : Tree) (id : ElementId) (old p : Place) : List ElementId :=
  if p = old then (t.contents p.container p.slot).erase id else t.contents p.container p.slot

theorem contents_relink (t : Tree) (id : ElementId) (place : Place)
    (f : List ElementId → List ElementId) (new : Option Place) {host : Element}
    {l : List ElementId} (hhost : t.get? place.container = some host)
    (hl : host.slot? place.slot = some l) (p : Place) :
    (t.relink id place f new).contents p.container p.slot =
      if p = place then f (t.contents p.container p.slot)
      else t.contents p.container p.slot := by
  split
  · next hp =>
    subst hp
    rw [contents_relink_self t id p _ _ hhost hl, contents_eq hhost hl]
  · next hp =>
    refine contents_relink_ne t id place _ _ fun hsame => hp ?_
    cases p
    cases place
    simpa using hsame

theorem CanLink.contents_link (hf : t.Forest) (h : t.CanLink id place index) (p : Place) :
    (t.link id place index).contents p.container p.slot =
      if p = place then insertAt index id (t.contents p.container p.slot)
      else t.contents p.container p.slot := by
  obtain ⟨host, l, hhost, hl⟩ := h.exists_slot hf
  exact contents_relink t id place _ _ hhost hl p

theorem CanUnlink.contents_unlink (h : t.CanUnlink id old index) (p : Place) :
    (t.unlink id old).contents p.container p.slot = t.contentsWithout id old p := by
  obtain ⟨host, l, hhost, hl, -⟩ := h.exists_slot
  exact contents_relink t id old _ _ hhost hl p

theorem reservation_relink (t : Tree) (id : ElementId) (place : Place)
    (f : List ElementId → List ElementId) (new : Option Place) (x : ElementId) (p : Place)
    (name : String) : (t.relink id place f new).reservation x p name =
      t.reservation x p name := by
  have hdictionary : (t.relink id place f new).dictionary = t.dictionary := rfl
  refine reservation_congr hdictionary ?_ (slotScope_relink ..) name
  simp [get?_relink, relinked, Function.comp_def]

theorem name?_relink (t : Tree) (id : ElementId) (place : Place)
    (f : List ElementId → List ElementId) (new : Option Place) (x : ElementId) :
    (t.relink id place f new).name? x = t.name? x := by
  simp only [name?, get?_relink]
  cases t.get? x <;> rfl

theorem SameLinks.link (h : SameLinks t t') :
    SameLinks (t.link id place index) (t'.link id place index) where
  root := h.root
  dictionary := h.dictionary
  links x := by
    have hlinks := congrArg (Option.map fun l : String × Option Place × List Slot =>
      (l.1, if x = id then some place else l.2.1,
        if x = place.container then Element.updateSlot place.slot (insertAt index id) l.2.2
        else l.2.2)) (h.links x)
    simpa [Tree.link, get?_relink, relinked, Function.comp_def] using hlinks

theorem WellFormed.eq_of_same (h : t.WellFormed) (h' : t'.WellFormed) (hlinks : SameLinks t t')
    (hbare : t.SameBare t') (hshape : t'.elements.shape = t.elements.shape)
    (hnames : ∀ x, t'.name? x = t.name? x) : t' = t := by
  have hget : ∀ x, t'.get? x = t.get? x := by
    intro x
    cases he : t.get? x with
    | none =>
        have hsame := hbare.bare x
        rw [he, Option.map_none, Option.map_eq_none_iff] at hsame
        exact hsame
    | some e =>
        obtain ⟨e', he', hsame⟩ := hbare.exists_get? he
        obtain ⟨e₁, he₁, -, hplace, hslots⟩ := hlinks.get?_eq he'
        obtain rfl := Option.some.inj (he.symm.trans he₁)
        have hname : e'.name = e.name := by simpa [name?, he, he'] using hnames x
        rw [he']
        cases e
        cases e'
        simp_all [Element.bare]
  have helements : t'.elements = t.elements := Arena.eq_of_get? hshape hget
  have heq : t' = t.withNames t'.names := by
    have hroot := hlinks.root
    have hdictionary := hlinks.dictionary
    cases t
    cases t'
    simp_all [withNames]
  rw [heq] at h' ⊢
  exact h.eq_withNames h'

/-- An element has moved from its place to an index of another one, under the names planned. -/
structure Moves (id : ElementId) (old place : Place) (index : Nat) (t t' : Tree) : Prop where
  before : t.WellFormed
  after : t'.WellFormed
  canUnlink : ∃ index, t.CanUnlink id old index
  canLink : (t.unlink id old).CanLink id place index
  sameLinks : SameLinks ((t.unlink id old).link id place index) t'
  sameBare : t.SameBare t'
  shape : t'.elements.shape = t.elements.shape
  adds : ∃ names, Adds id place ((t.unlink id old).withNames names) t'

namespace Moves

variable (h : Moves id old place index t t')

include h

theorem forest_unlink : (t.unlink id old).Forest := by
  obtain ⟨j, hunlink⟩ := h.canUnlink
  exact hunlink.forest_unlink h.before.forest

theorem contents_eq (p : Place) : t'.contents p.container p.slot =
    if p = place then insertAt index id (t.contentsWithout id old p)
    else t.contentsWithout id old p := by
  obtain ⟨j, hunlink⟩ := h.canUnlink
  rw [h.sameLinks.contents_eq, h.canLink.contents_link h.forest_unlink, hunlink.contents_unlink]

theorem notMem_contentsWithout (p : Place) : id ∉ t.contentsWithout id old p := by
  obtain ⟨j, hunlink⟩ := h.canUnlink
  intro hmem
  rw [← hunlink.contents_unlink] at hmem
  have hparent := h.forest_unlink.parent_of_mem_contents hmem
  rw [parent_unlink_self] at hparent
  cases hparent

theorem index_le : index ≤ (t.contentsWithout id old place).length := by
  obtain ⟨j, hunlink⟩ := h.canUnlink
  rw [← hunlink.contents_unlink]
  exact h.canLink.index_le

/-- An element keeps everything but its name and what is in its slots, and only the one that moves
gets another place. -/
theorem exists_get? (he : t.get? x = some e) : ∃ e', t'.get? x = some e' ∧ e'.bare = e.bare ∧
    e'.place = (if x = id then some place else e.place) ∧
    e'.slots.map (·.name) = e.slots.map (·.name) := by
  obtain ⟨e', he', hbare⟩ := h.sameBare.exists_get? he
  obtain ⟨e₂, he₂, -, hplace, -⟩ := h.sameLinks.get?_eq he'
  have hlinked : ((t.unlink id old).link id place index).get? x =
      some (relinked id place (insertAt index id) (some place) x
        (relinked id old (·.erase id) none x e)) := by
    rw [link, get?_relink, unlink, get?_relink, he, Option.map_some, Option.map_some]
  obtain rfl := Option.some.inj (hlinked.symm.trans he₂)
  have htype : e'.bare.typeName = e.bare.typeName := by rw [hbare]
  refine ⟨e', he', hbare, ?_, ?_⟩
  · rw [← hplace]
    by_cases hx : x = id <;> simp [relinked, hx]
  · rw [h.after.forest.slots_defined he', h.before.forest.slots_defined he,
      h.sameBare.dictionary]
    exact congrArg (fun type => (t.dictionary.slots type).map (·.name)) htype

theorem contains_eq (x : ElementId) : t'.contains x = t.contains x := by
  rw [h.sameLinks.contains_eq, link, contains_relink, unlink, contains_relink]

theorem name?_of_notMem (hx : x ∉ t.walk id) : t'.name? x = t.name? x := by
  obtain ⟨j, hunlink⟩ := h.canUnlink
  obtain ⟨names, hadds⟩ := h.adds
  cases he : t.get? x with
  | none =>
      have hnone : t'.get? x = none := by
        simpa [he] using h.sameBare.bare x
      simp only [name?, he, hnone]
  | some e =>
      have he₁ : ((t.unlink id old).withNames names).get? x =
          some (relinked id old (·.erase id) none x e) :=
        (get?_relink ..).trans (congrArg _ he)
      have hplan := plans_planNames hadds.before.forest id place
      have hnotplan : x ∉ (((t.unlink id old).withNames names).planNames id place).map
          (·.element) := by
        intro hmem
        have hin := hplan.sublist.subset hmem
        rw [walk_withNames] at hin
        exact hx ((hunlink.mem_walk_unlink h.before.forest).1 hin)
      rw [hadds.name? he₁, plannedName_of_notMem hnotplan]
      simp only [name?, he, Option.bind_some, relinked]

/-- Under its old name an element claims in the new tree what it claimed in the old one, if the
element that moves does so in its two places. -/
theorem bind_claimUnder
    (hsame : ∀ name, t.reservation id place name = t.reservation id old name)
    (hx : t.contains x = true) : (t.name? x).bind (t'.claimUnder x) = t.claim x := by
  obtain ⟨j, hunlink⟩ := h.canUnlink
  obtain ⟨names, hadds⟩ := h.adds
  obtain ⟨e, he⟩ := contains_iff.1 hx
  have he₁ : ((t.unlink id old).withNames names).get? x =
      some (relinked id old (·.erase id) none x e) :=
    (get?_relink ..).trans (congrArg _ he)
  have hreservation : ∀ p name, ((t.unlink id old).withNames names).reservation x p name =
      t.reservation x p name := fun p name => reservation_relink ..
  rw [claim_eq_bind]
  refine congrArg _ (funext fun name => ?_)
  rw [hadds.claimUnder he₁, claimUnder, he, Option.bind_some]
  simp only [hreservation, settled, relinked]
  by_cases hxid : x = id
  · subst hxid
    obtain ⟨e₂, he₂, hplace⟩ := hunlink.placed
    obtain rfl := Option.some.inj (he.symm.trans he₂)
    simp [hplace, hsame]
  · simp [hxid]

theorem nameRequired_eq_false (hat : t.isAttached id = true) (hx : x ∈ t.walk id)
    (he : t.get? x = some e) (hnone : e.name = none) :
    t.dictionary.nameRequired e.typeName = false := by
  obtain ⟨j, hunlink⟩ := h.canUnlink
  have hf := h.before.forest
  have hroot : x ≠ t.root := by
    rintro rfl
    have htop := (hf.isWithin_of_top hf.parent_root).1 (hf.mem_walk.1 hx).2
    exact hunlink.ne_root hf htop.symm
  by_contra hrequired
  exact h.before.named.required ((hf.isAttached_of_mem_walk hx).2 hat) hroot he
    (by simpa using hrequired) hnone

/-- Where the element that moves claims in its new place what it claimed in the old one, no name
changes. -/
theorem name?_eq (hat : t.isAttached id = true)
    (hsame : ∀ name, t.reservation id place name = t.reservation id old name) (x : ElementId) :
    t'.name? x = t.name? x := by
  obtain ⟨j, hunlink⟩ := h.canUnlink
  obtain ⟨names, hadds⟩ := h.adds
  have hf := h.before.forest
  have hwalk : ∀ {x}, x ∈ ((t.unlink id old).withNames names).walk id → x ∈ t.walk id := by
    intro x hx
    rw [walk_withNames] at hx
    exact (hunlink.mem_walk_unlink hf).1 hx
  have hattached : ∀ {x}, x ∈ ((t.unlink id old).withNames names).walk id →
      t.isAttached x = true := fun hx => (hf.isAttached_of_mem_walk (hwalk hx)).2 hat
  have hname : ∀ x, ((t.unlink id old).withNames names).name? x = t.name? x :=
    fun x => name?_relink ..
  -- every member has its name alone and has one if it needs one, so the plan renames none
  have halone : ∀ x ∈ ((t.unlink id old).withNames names).walk id,
      Alone ((t.unlink id old).withNames names) t' x := by
    intro x hx y w hy hwx hwy
    have hx' := hattached hx
    have hy' : t.isAttached y = true := by
      rcases hadds.isAttached.1 hy with hy | hy
      · rw [isAttached_withNames] at hy
        exact ((hunlink.isAttached_unlink hf).1 hy).1
      · exact hattached hy
    rw [hname, h.bind_claimUnder hsame (Forest.contained_of_isAttached hx')] at hwx
    rw [hname, h.bind_claimUnder hsame (Forest.contained_of_isAttached hy')] at hwy
    exact h.before.named.unique hy' hx' hwy hwx
  have hneeds : ∀ x ∈ ((t.unlink id old).withNames names).walk id, ∀ e,
      ((t.unlink id old).withNames names).get? x = some e → e.name = none →
      t.dictionary.nameRequired e.typeName = false := by
    intro x hx e₁ he₁ hnone
    obtain ⟨e, he, rfl⟩ := Option.map_eq_some_iff.1 ((get?_relink ..).symm.trans he₁)
    have hfree : t.dictionary.nameRequired e.typeName = false :=
      h.nameRequired_eq_false hat (hwalk hx) he hnone
    exact hfree
  by_cases hx : x ∈ ((t.unlink id old).withNames names).walk id
  · rw [hadds.name?_of_forall_alone halone hneeds x hx, hname]
  · refine h.name?_of_notMem fun hmem => hx ?_
    rw [walk_withNames]
    exact (hunlink.mem_walk_unlink hf).2 hmem

/-- No name changes between slots in which names are unique in the module. -/
theorem name?_eq_of_module (hat : t.isAttached id = true)
    (hold : t.slotScope old.container old.slot = .module)
    (hplace : t.slotScope place.container place.slot = .module) (x : ElementId) :
    t'.name? x = t.name? x :=
  h.name?_eq hat (fun name => by simp only [reservation, nameKey, hold, hplace]) x

theorem eq_of_stays (hat : t.isAttached id = true) (hstays : t.CanUnlink id place index)
    (hplace : place = old) : t' = t := by
  subst hplace
  have hlinks := h.sameLinks
  rw [hstays.link_unlink h.before.forest] at hlinks
  exact h.before.eq_of_same h.after hlinks h.sameBare h.shape (h.name?_eq hat fun _ => rfl)

end Moves

end ReportModel.Tree
