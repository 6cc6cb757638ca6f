import ReportModel.Proofs.Listing
import ReportModel.Proofs.Tree.Forest

/-!
# Links between elements

What attaching and detaching do to the containment, apart from the name index: an element gets a
container and stands in a slot of it, or neither any more. Both keep a forest a forest, and each
takes the other back.
-/

namespace ReportModel

namespace Tree

variable {t : Tree} {id x y : ElementId} {place : Place} {index : Nat}

/-- The tree with the contents of a slot changed, and the place of an element replaced. -/
def relink (t : Tree) (id : ElementId) (place : Place)
    (f : List ElementId → List ElementId) (new : Option Place) : Tree :=
  (t.modify place.container (·.withSlot place.slot f)).modify id fun e => { e with place := new }

/-- The tree with an element put into a slot, its index left as it was. -/
def link (t : Tree) (id : ElementId) (place : Place) (index : Nat) : Tree :=
  t.relink id place (insertAt index id) (some place)

/-- The tree with an element taken out of its slot, its index left as it was. -/
def unlink (t : Tree) (id : ElementId) (place : Place) : Tree :=
  t.relink id place (·.erase id) none

def relinked (id : ElementId) (place : Place) (f : List ElementId → List ElementId)
    (new : Option Place) (x : ElementId) (e : Element) : Element :=
  { e with
    place := if x = id then new else e.place
    slots := if x = place.container then Element.updateSlot place.slot f e.slots else e.slots }

theorem get?_relink (t : Tree) (id : ElementId) (place : Place)
    (f : List ElementId → List ElementId) (new : Option Place) (x : ElementId) :
    (t.relink id place f new).get? x = (t.get? x).map (relinked id place f new x) := by
  simp only [relink, get?_modify]
  by_cases hid : x = id <;> by_cases hc : x = place.container
  · subst hid
    rw [if_pos rfl, if_pos hc, ← hc, Option.map_map]
    apply Option.map_congr
    intro e _
    simp [relinked, Element.withSlot, hc]
  · subst hid
    rw [if_pos rfl, if_neg hc]
    apply Option.map_congr
    intro e _
    simp [relinked, hc]
  · rw [if_neg hid, if_pos hc, hc]
    apply Option.map_congr
    intro e _
    have : ¬ place.container = id := fun h => hid (hc.trans h)
    simp [relinked, Element.withSlot, this]
  · rw [if_neg hid, if_neg hc]
    cases t.get? x <;> simp [relinked, hid, hc]

theorem parent_relink (t : Tree) (id : ElementId) (place : Place)
    (f : List ElementId → List ElementId) (new : Option Place) (h : x ≠ id) :
    (t.relink id place f new).parent x = t.parent x := by
  simp only [parent, get?_relink]
  cases t.get? x <;> simp [relinked, h]

theorem contains_relink (t : Tree) (id : ElementId) (place : Place)
    (f : List ElementId → List ElementId) (new : Option Place) (x : ElementId) :
    (t.relink id place f new).contains x = t.contains x := by
  simp only [relink, contains_modify]

theorem slot?_relinked (id : ElementId) (place : Place) (f : List ElementId → List ElementId)
    (new : Option Place) (c : ElementId) (e : Element) (slot : String) :
    (relinked id place f new c e).slot? slot =
      if c = place.container ∧ slot = place.slot then (e.slot? slot).map f else e.slot? slot := by
  by_cases hc : c = place.container
  · have hslots : (relinked id place f new c e).slot? slot =
        (e.withSlot place.slot f).slot? slot := by
      simp [Element.slot?, relinked, Element.withSlot, hc]
    rw [hslots, Element.slot?_withSlot]
    by_cases hs : slot = place.slot <;> simp [hc, hs]
  · simp [Element.slot?, relinked, hc]

theorem contents_relink_ne (t : Tree) (id : ElementId) (place : Place)
    (f : List ElementId → List ElementId) (new : Option Place) {c : ElementId} {slot : String}
    (h : ¬ (c = place.container ∧ slot = place.slot)) :
    (t.relink id place f new).contents c slot = t.contents c slot := by
  simp only [contents, get?_relink]
  cases t.get? c with
  | none => rfl
  | some e =>
      simp only [Option.map_some, Option.bind_some]
      rw [slot?_relinked, if_neg h]

theorem contents_relink_self (t : Tree) (id : ElementId) (place : Place)
    (f : List ElementId → List ElementId) (new : Option Place) {e : Element} {l : List ElementId}
    (he : t.get? place.container = some e) (hl : e.slot? place.slot = some l) :
    (t.relink id place f new).contents place.container place.slot = f l := by
  have hget : (t.relink id place f new).get? place.container =
      some (relinked id place f new place.container e) := by
    rw [get?_relink, he, Option.map_some]
  apply contents_eq hget
  rw [slot?_relinked, if_pos ⟨rfl, rfl⟩, hl, Option.map_some]

theorem children_relink_ne (t : Tree) (id : ElementId) (place : Place)
    (f : List ElementId → List ElementId) (new : Option Place) {c : ElementId}
    (h : c ≠ place.container) : (t.relink id place f new).children c = t.children c := by
  simp only [children, get?_relink]
  cases t.get? c <;> simp [relinked, h, Element.children]

theorem children_relink_self (t : Tree) (id : ElementId) (place : Place)
    (f : List ElementId → List ElementId) (new : Option Place) {host : Element}
    (h : t.get? place.container = some host) :
    (t.relink id place f new).children place.container = (host.withSlot place.slot f).children := by
  simp [children, get?_relink, h, relinked, Element.children, Element.withSlot]

theorem relink_relink {f g : List ElementId → List ElementId} {new old : Option Place}
    (h : ∀ x e, t.get? x = some e →
      relinked id place g old x (relinked id place f new x e) = e) :
    (t.relink id place f new).relink id place g old = t := by
  have helements : ((t.relink id place f new).relink id place g old).elements = t.elements := by
    apply Arena.eq_of_get? (by simp [relink, modify])
    intro x
    have hget : ((t.relink id place f new).relink id place g old).get? x =
        (t.get? x).map (relinked id place g old x ∘ relinked id place f new x) := by
      rw [get?_relink, get?_relink, Option.map_map]
    apply hget.trans
    cases he : t.get? x with
    | none => exact he.symm
    | some e =>
        refine Eq.trans ?_ he.symm
        simp [h x e he]
  cases t
  simp only [relink, modify] at helements ⊢
  rw [helements]

/-- An element may be put into a slot: it stands nowhere, the slot takes elements of its type and
has room, and the container is not inside it. -/
structure CanLink (t : Tree) (id : ElementId) (place : Place) (index : Nat) : Prop where
  accepts : ∃ e host definition, t.get? id = some e ∧ e.place = none ∧
    t.get? place.container = some host ∧
    t.dictionary.slot? host.typeName place.slot = some definition ∧
    definition.allowed.any (t.dictionary.isKindOf e.typeName) = true ∧
    (definition.multiple = false → t.contents place.container place.slot = [])
  not_root : id ≠ t.root
  outside : ¬ t.isWithin place.container id = true
  index_le : index ≤ (t.contents place.container place.slot).length

namespace CanLink

theorem contained (h : t.CanLink id place index) : t.contains id = true := by
  obtain ⟨e, -, -, he, -⟩ := h.accepts
  exact contains_of_get? he

theorem container_contained (h : t.CanLink id place index) :
    t.contains place.container = true := by
  obtain ⟨-, host, -, -, -, hhost, -⟩ := h.accepts
  exact contains_of_get? hhost

theorem parent_eq_none (h : t.CanLink id place index) : t.parent id = none := by
  obtain ⟨e, -, -, he, hplace, -⟩ := h.accepts
  simp [parent, he, hplace]

theorem ne_of_parent (h : t.CanLink id place index) {p : ElementId} (hx : t.parent x = some p) :
    x ≠ id := by
  intro heq
  subst heq
  simp [h.parent_eq_none] at hx

theorem container_ne (h : t.CanLink id place index) : place.container ≠ id := fun heq =>
  h.outside (isWithin_iff.2 (Or.inl heq))

theorem exists_slot (hf : t.Forest) (h : t.CanLink id place index) :
    ∃ host l, t.get? place.container = some host ∧ host.slot? place.slot = some l := by
  obtain ⟨-, host, definition, -, -, hhost, hdef, -⟩ := h.accepts
  obtain ⟨hslot, hname⟩ := Dictionary.listed_of_slot? hdef
  have hmem := List.mem_map.2 ⟨definition, hslot, hname⟩
  rw [← hf.slots_defined hhost] at hmem
  obtain ⟨l, hl⟩ := Option.isSome_iff_exists.1 (Element.isSome_slot?_iff.2 hmem)
  exact ⟨host, l, hhost, hl⟩

end CanLink

theorem parent_link_self (h : t.contains id = true) :
    (t.link id place index).parent id = some place.container := by
  obtain ⟨e, he⟩ := contains_iff.1 h
  simp [link, parent, get?_relink, he, relinked]

theorem parent_unlink_self : (t.unlink id place).parent id = none := by
  simp only [unlink, parent, get?_relink]
  cases t.get? id <;> simp [relinked]

namespace CanLink

variable (hf : t.Forest) (h : t.CanLink id place index)

include hf h

theorem ascends_of_not_isWithin (hx : ¬ t.isWithin x id = true) :
    (t.link id place index).Ascends x (t.ancestors x) := by
  refine (hf.ascends_ancestors x).congr fun y hy => parent_relink _ _ _ _ _ ?_
  intro heq
  subst heq
  exact hx (isWithin_iff_mem.2 hy)

theorem ascends_of_isWithin (hx : t.isWithin x id = true) :
    (t.link id place index).Ascends x
      (t.ancestors x ++ place.container :: t.ancestors place.container) := by
  have hup := hf.ascends_ancestors x
  generalize t.ancestors x = l at hup
  induction hup with
  | top hp =>
      obtain rfl := (hf.isWithin_of_top hp).1 hx
      exact .step (parent_link_self h.contained) (h.ascends_of_not_isWithin hf h.outside)
  | step hp _ ih =>
      have hne := h.ne_of_parent hp
      have hpw := ((hf.isWithin_of_parent hp).1 hx).resolve_left hne
      exact .step ((parent_relink _ _ _ _ _ hne).trans hp) (ih hpw)

theorem mem_children_link {c : ElementId} :
    x ∈ (t.link id place index).children c ↔
      x ∈ t.children c ∨ (c = place.container ∧ x = id) := by
  obtain ⟨host, l, hhost, hl⟩ := h.exists_slot hf
  by_cases hc : c = place.container
  · subst hc
    rw [link, children_relink_self t id place _ _ hhost,
      (Element.children_insert_perm index id hl).mem_iff, List.mem_cons, children_eq hhost]
    simp [or_comm]
  · rw [link, children_relink_ne t id place _ _ hc]
    simp [hc]

theorem mem_contents_link {c : ElementId} {slot : String} :
    x ∈ (t.link id place index).contents c slot ↔
      x ∈ t.contents c slot ∨ (c = place.container ∧ slot = place.slot ∧ x = id) := by
  obtain ⟨host, l, hhost, hl⟩ := h.exists_slot hf
  by_cases hslot : c = place.container ∧ slot = place.slot
  · obtain ⟨rfl, rfl⟩ := hslot
    rw [link, contents_relink_self t id place _ _ hhost hl, mem_insertAt, contents_eq hhost hl]
    simp [or_comm]
  · rw [link, contents_relink_ne t id place _ _ hslot, ← and_assoc]
    simp [hslot]

theorem forest_link : (t.link id place index).Forest where
  root_top := by
    obtain ⟨e, he, hplace⟩ := hf.root_top
    refine ⟨_, (get?_relink ..).trans (congrArg _ he), ?_⟩
    exact (if_neg h.not_root.symm).trans hplace
  ascends x := by
    -- from inside the element put in, the way up goes on through its new container
    by_cases hx : t.isWithin x id = true
    · exact ⟨_, h.ascends_of_isWithin hf hx⟩
    · exact ⟨_, h.ascends_of_not_isWithin hf hx⟩
  parent_of_mem {c x} hx := by
    rcases (h.mem_children_link hf).1 hx with hx | ⟨rfl, rfl⟩
    · have hp := hf.parent_of_mem hx
      exact (parent_relink _ _ _ _ _ (h.ne_of_parent hp)).trans hp
    · exact parent_link_self h.contained
  mem_of_place {x e p} hx hp := by
    rw [link, get?_relink] at hx
    obtain ⟨e₁, he₁, rfl⟩ := Option.map_eq_some_iff.1 hx
    rw [h.mem_contents_link hf]
    by_cases hxid : x = id
    · obtain rfl : place = p := by simpa [relinked, hxid] using hp
      exact Or.inr ⟨rfl, rfl, hxid⟩
    · exact Or.inl (hf.mem_of_place he₁ (by simpa [relinked, hxid] using hp))
  nodup_children c := by
    obtain ⟨host, l, hhost, hl⟩ := h.exists_slot hf
    by_cases hc : c = place.container
    · subst hc
      rw [link, children_relink_self t id place _ _ hhost,
        (Element.children_insert_perm index id hl).nodup_iff, ← children_eq hhost]
      refine List.nodup_cons.2 ⟨fun hid => ?_, hf.nodup_children _⟩
      exact h.ne_of_parent (hf.parent_of_mem hid) rfl
    · rw [link, children_relink_ne t id place _ _ hc]
      exact hf.nodup_children c
  slots_defined {c e} hc := by
    rw [link, get?_relink] at hc
    obtain ⟨e₁, he₁, rfl⟩ := Option.map_eq_some_iff.1 hc
    have hnames := hf.slots_defined he₁
    simp only [relinked]
    split
    · rw [Element.map_name_updateSlot]
      exact hnames
    · exact hnames
  accepted {x e p host} hx hp hhost := by
    rw [link, get?_relink] at hx hhost
    obtain ⟨e₁, he₁, rfl⟩ := Option.map_eq_some_iff.1 hx
    obtain ⟨host₁, hhost₁, rfl⟩ := Option.map_eq_some_iff.1 hhost
    by_cases hxid : x = id
    · subst hxid
      obtain rfl : place = p := by simpa [relinked] using hp
      obtain ⟨e, host, definition, he, -, hc, hdef, hallowed, -⟩ := h.accepts
      obtain rfl := Option.some.inj (he₁.symm.trans he)
      obtain rfl := Option.some.inj (hhost₁.symm.trans hc)
      exact ⟨definition, hdef, hallowed⟩
    · have hold : e₁.place = some p := by simpa [relinked, hxid] using hp
      obtain ⟨definition, hdef, hallowed⟩ := hf.accepted he₁ hold hhost₁
      exact ⟨definition, hdef, hallowed⟩
  single {c host slot definition} hc hdef hmul := by
    rw [link, get?_relink] at hc
    obtain ⟨host₁, hhost₁, rfl⟩ := Option.map_eq_some_iff.1 hc
    have hdef₁ : t.dictionary.slot? host₁.typeName slot = some definition := hdef
    by_cases hslot : c = place.container ∧ slot = place.slot
    · obtain ⟨rfl, rfl⟩ := hslot
      obtain ⟨-, host, definition', -, -, hhost, hdef', -, hroom⟩ := h.accepts
      obtain ⟨host₂, l, hhost₂, hl⟩ := h.exists_slot hf
      obtain rfl := Option.some.inj (hhost₁.symm.trans hhost)
      obtain rfl := Option.some.inj (hhost₁.symm.trans hhost₂)
      obtain rfl := Option.some.inj (hdef₁.symm.trans hdef')
      have hempty := hroom hmul
      rw [contents_eq hhost hl] at hempty
      rw [link, contents_relink_self t id place _ _ hhost hl, length_insertAt, hempty]
      simp
    · rw [link, contents_relink_ne t id place _ _ hslot]
      exact hf.single hhost₁ hdef₁ hmul

theorem ancestors_link_of_not_isWithin (hx : ¬ t.isWithin x id = true) :
    (t.link id place index).ancestors x = t.ancestors x :=
  (h.forest_link hf).ancestors_eq (h.ascends_of_not_isWithin hf hx)

theorem isWithin_link : (t.link id place index).isWithin x y = true ↔
    t.isWithin x y = true ∨ (t.isWithin x id = true ∧ t.isWithin place.container y = true) := by
  by_cases hx : t.isWithin x id = true
  · rw [isWithin_iff_mem, (h.forest_link hf).ancestors_eq (h.ascends_of_isWithin hf hx),
      isWithin_iff_mem, @isWithin_iff_mem t place.container, ← List.cons_append, List.mem_append]
    simp only [hx, true_and]
  · rw [isWithin_iff, isWithin_iff, h.ancestors_link_of_not_isWithin hf hx]
    simp [hx]

theorem isWithin_link_self : (t.link id place index).isWithin x id = true ↔
    t.isWithin x id = true := by
  rw [h.isWithin_link hf]
  simp [h.outside]

theorem not_isAttached : ¬ t.isAttached id = true := by
  rw [hf.isAttached_iff, hf.isWithin_of_top h.parent_eq_none]
  exact fun hw => h.not_root hw.2

theorem isAttached_link : (t.link id place index).isAttached x = true ↔
    t.isAttached x = true ∨
      (x ∈ t.walk id ∧ t.isAttached place.container = true) := by
  rw [(h.forest_link hf).isAttached_iff, hf.isAttached_iff, hf.isAttached_iff, hf.mem_walk]
  have hlive : (t.link id place index).contains x = t.contains x := contains_relink ..
  have hcontainer := h.container_contained
  have hroot : (t.link id place index).root = t.root := rfl
  rw [hlive, hroot, h.isWithin_link hf]
  tauto

end CanLink

/-- An element may be taken out of a slot: it stands there at the index. -/
structure CanUnlink (t : Tree) (id : ElementId) (place : Place) (index : Nat) : Prop where
  placed : ∃ e, t.get? id = some e ∧ e.place = some place
  getElem?_contents : (t.contents place.container place.slot)[index]? = some id

namespace CanUnlink

variable (hf : t.Forest) (h : t.CanUnlink id place index)

include h

theorem parent_eq : t.parent id = some place.container := by
  obtain ⟨e, he, hplace⟩ := h.placed
  exact parent_eq_some_iff.2 ⟨e, place, he, hplace, rfl⟩

theorem contained : t.contains id = true := by
  obtain ⟨e, he, -⟩ := h.placed
  exact contains_of_get? he

theorem mem_contents : id ∈ t.contents place.container place.slot :=
  List.mem_of_getElem? h.getElem?_contents

theorem exists_slot : ∃ host l, t.get? place.container = some host ∧
    host.slot? place.slot = some l ∧ id ∈ l :=
  mem_contents_iff.1 h.mem_contents

include hf

theorem ne_root : id ≠ t.root :=
  hf.ne_root_of_parent h.parent_eq

theorem mem_children_unlink {c : ElementId} :
    x ∈ (t.unlink id place).children c ↔ x ∈ t.children c ∧ x ≠ id := by
  obtain ⟨host, l, hhost, hl, hid⟩ := h.exists_slot
  by_cases hc : c = place.container
  · subst hc
    have hnd := hf.nodup_children place.container
    rw [children_eq hhost, ← (Element.children_erase_perm hl hid).nodup_iff] at hnd
    rw [unlink, children_relink_self t id place _ _ hhost, children_eq hhost,
      ← (Element.children_erase_perm hl hid).mem_iff, List.mem_cons]
    constructor
    · intro hx
      exact ⟨Or.inr hx, fun heq => (List.nodup_cons.1 hnd).1 (heq ▸ hx)⟩
    · intro h
      rcases h with ⟨hx | hx, hne⟩
      · exact absurd hx hne
      · exact hx
  · rw [unlink, children_relink_ne t id place _ _ hc]
    refine ⟨fun hx => ⟨hx, ?_⟩, And.left⟩
    intro heq
    subst heq
    exact hc (Option.some.inj ((hf.parent_of_mem hx).symm.trans h.parent_eq))

theorem forest_unlink : (t.unlink id place).Forest where
  root_top := by
    obtain ⟨e, he, hplace⟩ := hf.root_top
    refine ⟨_, (get?_relink ..).trans (congrArg _ he), ?_⟩
    exact (if_neg (h.ne_root hf).symm).trans hplace
  ascends x := by
    -- the way up is cut off where it comes by the element taken out
    have hup := hf.ascends_ancestors x
    generalize t.ancestors x = l at hup
    induction hup with
    | @top x hp =>
        refine ⟨[], .top ?_⟩
        by_cases hx : x = id
        · rw [hx]
          exact parent_unlink_self
        · exact (parent_relink _ _ _ _ _ hx).trans hp
    | @step x p l hp _ ih =>
        by_cases hx : x = id
        · exact ⟨[], .top (hx ▸ parent_unlink_self)⟩
        · obtain ⟨l', hl'⟩ := ih
          exact ⟨p :: l', .step ((parent_relink _ _ _ _ _ hx).trans hp) hl'⟩
  parent_of_mem {c x} hx := by
    obtain ⟨hx, hne⟩ := (h.mem_children_unlink hf).1 hx
    exact (parent_relink _ _ _ _ _ hne).trans (hf.parent_of_mem hx)
  mem_of_place {x e p} hx hp := by
    rw [unlink, get?_relink] at hx
    obtain ⟨e₁, he₁, rfl⟩ := Option.map_eq_some_iff.1 hx
    have hne : x ≠ id := by
      intro heq
      subst heq
      simp [relinked] at hp
    have hold := hf.mem_of_place he₁ (by simpa [relinked, hne] using hp)
    by_cases hslot : p.container = place.container ∧ p.slot = place.slot
    · obtain ⟨host, l, hhost, hl, -⟩ := h.exists_slot
      rw [hslot.1, hslot.2] at hold ⊢
      rw [contents_eq hhost hl] at hold
      rw [unlink, contents_relink_self t id place _ _ hhost hl]
      exact (List.mem_erase_of_ne hne).2 hold
    · rwa [unlink, contents_relink_ne t id place _ _ hslot]
  nodup_children c := by
    by_cases hc : c = place.container
    · obtain ⟨host, l, hhost, hl, hid⟩ := h.exists_slot
      have hnd := hf.nodup_children place.container
      rw [children_eq hhost, ← (Element.children_erase_perm hl hid).nodup_iff] at hnd
      rw [hc, unlink, children_relink_self t id place _ _ hhost]
      exact (List.nodup_cons.1 hnd).2
    · rw [unlink, children_relink_ne t id place _ _ hc]
      exact hf.nodup_children c
  slots_defined {c e} hc := by
    rw [unlink, get?_relink] at hc
    obtain ⟨e₁, he₁, rfl⟩ := Option.map_eq_some_iff.1 hc
    have hnames := hf.slots_defined he₁
    simp only [relinked]
    split
    · rw [Element.map_name_updateSlot]
      exact hnames
    · exact hnames
  accepted {x e p host} hx hp hhost := by
    rw [unlink, get?_relink] at hx hhost
    obtain ⟨e₁, he₁, rfl⟩ := Option.map_eq_some_iff.1 hx
    obtain ⟨host₁, hhost₁, rfl⟩ := Option.map_eq_some_iff.1 hhost
    have hne : x ≠ id := by
      intro heq
      subst heq
      simp [relinked] at hp
    have hold : e₁.place = some p := by simpa [relinked, hne] using hp
    obtain ⟨definition, hdef, hallowed⟩ := hf.accepted he₁ hold hhost₁
    exact ⟨definition, hdef, hallowed⟩
  single {c host slot definition} hc hdef hmul := by
    rw [unlink, get?_relink] at hc
    obtain ⟨host₁, hhost₁, rfl⟩ := Option.map_eq_some_iff.1 hc
    have hsingle := hf.single hhost₁ hdef hmul
    by_cases hslot : c = place.container ∧ slot = place.slot
    · obtain ⟨host₂, l, hhost₂, hl, -⟩ := h.exists_slot
      obtain ⟨rfl, rfl⟩ := hslot
      rw [contents_eq hhost₂ hl] at hsingle
      rw [unlink, contents_relink_self t id place _ _ hhost₂ hl]
      exact Nat.le_trans List.length_erase_le hsingle
    · rwa [unlink, contents_relink_ne t id place _ _ hslot]

theorem canLink_unlink : (t.unlink id place).CanLink id place index where
  accepts := by
    obtain ⟨e, he, hplace⟩ := h.placed
    obtain ⟨host, l, hhost, hl, hid⟩ := h.exists_slot
    obtain ⟨definition, hdef, hallowed⟩ := hf.accepted he hplace hhost
    refine ⟨_, _, definition, (get?_relink ..).trans (congrArg _ he), if_pos rfl,
      (get?_relink ..).trans (congrArg _ hhost), hdef, hallowed, fun hmul => ?_⟩
    have hsingle := hf.single hhost hdef hmul
    rw [contents_eq hhost hl] at hsingle
    rw [unlink, contents_relink_self t id place _ _ hhost hl]
    have := List.length_erase_of_mem hid
    exact List.length_eq_zero_iff.1 (by omega)
  not_root := show id ≠ t.root from h.ne_root hf
  outside := by
    have hout := hf.not_isWithin_parent h.parent_eq
    have hup : (t.unlink id place).Ascends place.container (t.ancestors place.container) := by
      refine (hf.ascends_ancestors _).congr fun y hy => parent_relink _ _ _ _ _ ?_
      intro heq
      subst heq
      exact hout (isWithin_iff_mem.2 hy)
    rwa [isWithin_iff, (h.forest_unlink hf).ancestors_eq hup, ← isWithin_iff]
  index_le := by
    obtain ⟨host, l, hhost, hl, hid⟩ := h.exists_slot
    have hget := h.getElem?_contents
    rw [contents_eq hhost hl] at hget
    have hlt := (List.getElem?_eq_some_iff.1 hget).1
    have hlen := List.length_erase_of_mem hid
    rw [unlink, contents_relink_self t id place _ _ hhost hl]
    omega

theorem link_unlink : (t.unlink id place).link id place index = t := by
  apply relink_relink
  intro x e he
  obtain ⟨e₁, he₁, hplace⟩ := h.placed
  obtain ⟨host, l, hhost, hl, -⟩ := h.exists_slot
  have hback : x = place.container → Element.updateSlot place.slot (insertAt index id)
      (Element.updateSlot place.slot (·.erase id) e.slots) = e.slots := by
    intro heq
    subst heq
    obtain rfl := Option.some.inj (hhost.symm.trans he)
    have hnd := hf.contents_nodup place.container place.slot
    have hget := h.getElem?_contents
    rw [contents_eq hhost hl] at hnd hget
    refine congrArg Element.slots ((Element.withSlot_withSlot host place.slot _ _).trans
      (Element.withSlot_eq_self fun l' hl' => ?_))
    obtain rfl := Option.some.inj (hl.symm.trans hl')
    exact insertAt_erase hnd hget
  by_cases hx : x = id
  · subst hx
    obtain rfl := Option.some.inj (he₁.symm.trans he)
    have hc : x ≠ place.container := fun hc =>
      hf.not_isWithin_parent h.parent_eq (isWithin_iff.2 (Or.inl hc.symm))
    simp [relinked, hc, ← hplace]
  · by_cases hc : x = place.container
    · have := hback hc
      simp_all [relinked]
    · simp [relinked, hx, hc]

theorem isWithin_unlink_self : (t.unlink id place).isWithin x id = true ↔
    t.isWithin x id = true := by
  have hwithin := (h.canLink_unlink hf).isWithin_link_self (x := x) (h.forest_unlink hf)
  rw [h.link_unlink hf] at hwithin
  exact hwithin.symm

theorem mem_walk_unlink : x ∈ (t.unlink id place).walk id ↔ x ∈ t.walk id := by
  have hlive : (t.unlink id place).contains x = t.contains x := contains_relink ..
  rw [(h.forest_unlink hf).mem_walk, hf.mem_walk, hlive, h.isWithin_unlink_self hf]

end CanUnlink

namespace CanLink

variable (hf : t.Forest) (h : t.CanLink id place index)

include hf h

theorem canUnlink_link : (t.link id place index).CanUnlink id place index where
  placed := by
    obtain ⟨e, -, -, he, -⟩ := h.accepts
    exact ⟨_, (get?_relink ..).trans (congrArg _ he), if_pos rfl⟩
  getElem?_contents := by
    obtain ⟨host, l, hhost, hl⟩ := h.exists_slot hf
    have hle := h.index_le
    rw [contents_eq hhost hl] at hle
    rw [link, contents_relink_self t id place _ _ hhost hl]
    exact getElem?_insertAt hle

theorem unlink_link : (t.link id place index).unlink id place = t := by
  apply relink_relink
  intro x e he
  obtain ⟨e₁, -, -, he₁, hplace, -⟩ := h.accepts
  obtain ⟨host, l, hhost, hl⟩ := h.exists_slot hf
  have hback : x = place.container → Element.updateSlot place.slot (·.erase id)
      (Element.updateSlot place.slot (insertAt index id) e.slots) = e.slots := by
    intro heq
    subst heq
    obtain rfl := Option.some.inj (hhost.symm.trans he)
    refine congrArg Element.slots ((Element.withSlot_withSlot host place.slot _ _).trans
      (Element.withSlot_eq_self fun l' hl' => ?_))
    apply erase_insertAt (l := l')
    intro hid
    have hmem := mem_contents_iff.2 ⟨host, l', hhost, hl', hid⟩
    exact h.ne_of_parent (hf.parent_of_mem_contents hmem) rfl
  by_cases hx : x = id
  · subst hx
    obtain rfl := Option.some.inj (he₁.symm.trans he)
    have hc : x ≠ place.container := h.container_ne.symm
    simp [relinked, hc, ← hplace]
  · by_cases hc : x = place.container
    · have := hback hc
      simp_all [relinked]
    · simp [relinked, hx, hc]

end CanLink

end Tree

end ReportModel
