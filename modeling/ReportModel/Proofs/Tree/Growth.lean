import ReportModel.Proofs.Tree.Link

/-!
# Elements that come and go

A new element stands nowhere and holds nothing, so the ways up stay as they are. When an element
that stands nowhere is freed with all inside it, the other ways up stay as they are.
-/

namespace ReportModel.Tree

variable {t t' : Tree} {id x y c : ElementId}

theorem Forest.isAttached_of_isWithin (hf : t.Forest) (hx : t.contains x = true)
    (hw : t.isWithin x y = true) : t.isAttached x = true ↔ t.isAttached y = true := by
  have hup := hf.ascends_ancestors x
  generalize t.ancestors x = l at hup
  induction hup with
  | top hp => rw [(hf.isWithin_of_top hp).1 hw]
  | step hp _ ih =>
      rcases (hf.isWithin_of_parent hp).1 hw with rfl | hw
      · rfl
      · exact (hf.isAttached_of_parent hp).trans (ih (hf.container_contained hp) hw)

theorem Forest.isAttached_of_mem_walk (hf : t.Forest) (hx : x ∈ t.walk y) :
    t.isAttached x = true ↔ t.isAttached y = true := by
  obtain ⟨hlive, hw⟩ := hf.mem_walk.1 hx
  exact hf.isAttached_of_isWithin hlive hw

theorem slotScope_eq_getD (t : Tree) (c : ElementId) (slot : String) : t.slotScope c slot =
    (((t.get? c).bind fun e => t.dictionary.slot? e.typeName slot).map (·.scope)).getD .none := by
  simp only [slotScope]
  cases (t.get? c).bind fun e => t.dictionary.slot? e.typeName slot <;> rfl

/-- Two trees have the same elements as far as types, places and slots go. -/
structure SameLinks (t t' : Tree) : Prop where
  root : t'.root = t.root
  dictionary : t'.dictionary = t.dictionary
  links : ∀ x, (t'.get? x).map (fun e => (e.typeName, e.place, e.slots)) =
    (t.get? x).map fun e => (e.typeName, e.place, e.slots)

namespace SameLinks

variable (h : SameLinks t t')

include h

theorem symm : SameLinks t' t where
  root := h.root.symm
  dictionary := h.dictionary.symm
  links x := (h.links x).symm

theorem get?_eq {e' : Element} (he : t'.get? x = some e') : ∃ e, t.get? x = some e ∧
    e.typeName = e'.typeName ∧ e.place = e'.place ∧ e.slots = e'.slots := by
  have hl := h.links x
  rw [he] at hl
  obtain ⟨e, he, heq⟩ := Option.map_eq_some_iff.1 hl.symm
  simp only [Prod.mk.injEq] at heq
  exact ⟨e, he, heq⟩

theorem contains_eq (x : ElementId) : t'.contains x = t.contains x := by
  have := congrArg Option.isSome (h.links x)
  simp only [Option.isSome_map] at this
  exact this

theorem parent_eq (x : ElementId) : t'.parent x = t.parent x := by
  have hl := congrArg (fun o => o.bind fun l => l.2.1.map (·.container)) (h.links x)
  simp only [Option.bind_map] at hl
  exact hl

theorem contents_eq (c : ElementId) (slot : String) : t'.contents c slot = t.contents c slot := by
  have hl := congrArg
    (fun o => (o.bind fun l => (l.2.2.find? (·.name = slot)).map (·.contents)).getD []) (h.links c)
  simp only [Option.bind_map] at hl
  exact hl

theorem children_eq (c : ElementId) : t'.children c = t.children c := by
  have hl := congrArg (fun o => (o.map fun l => l.2.2.flatMap (·.contents)).getD []) (h.links c)
  simp only [Option.map_map] at hl
  exact hl

theorem slotScope_eq (c : ElementId) (slot : String) :
    t'.slotScope c slot = t.slotScope c slot := by
  have hl := congrArg
    (fun o => ((o.bind fun l => t.dictionary.slot? l.1 slot).map (·.scope)).getD .none) (h.links c)
  simp only [Option.bind_map] at hl
  rw [slotScope_eq_getD, slotScope_eq_getD, h.dictionary]
  exact hl

theorem forest (hf : t.Forest) : t'.Forest where
  root_top := by
    obtain ⟨e, he, hplace⟩ := hf.root_top
    obtain ⟨e', he', -, hplace', -⟩ := h.symm.get?_eq he
    exact ⟨e', h.root ▸ he', hplace'.trans hplace⟩
  ascends x := by
    obtain ⟨l, hl⟩ := hf.ascends x
    exact ⟨l, hl.congr fun y _ => h.parent_eq y⟩
  parent_of_mem {c x} hx := by
    rw [h.children_eq] at hx
    exact (h.parent_eq x).trans (hf.parent_of_mem hx)
  mem_of_place {x e p} he hp := by
    obtain ⟨e₁, he₁, -, hplace, -⟩ := h.get?_eq he
    rw [h.contents_eq]
    exact hf.mem_of_place he₁ (hplace.trans hp)
  nodup_children c := (h.children_eq c).symm ▸ hf.nodup_children c
  slots_defined {c e} he := by
    obtain ⟨e₁, he₁, htype, -, hslots⟩ := h.get?_eq he
    rw [h.dictionary, ← htype, ← hslots]
    exact hf.slots_defined he₁
  accepted {x e p host} he hp hhost := by
    obtain ⟨e₁, he₁, htype, hplace, -⟩ := h.get?_eq he
    obtain ⟨host₁, hhost₁, htype', -⟩ := h.get?_eq hhost
    rw [h.dictionary, ← htype, ← htype']
    exact hf.accepted he₁ (hplace.trans hp) hhost₁
  single {c host slot definition} hc hdef hmul := by
    obtain ⟨host₁, hhost₁, htype, -⟩ := h.get?_eq hc
    rw [h.dictionary, ← htype] at hdef
    rw [h.contents_eq]
    exact hf.single hhost₁ hdef hmul

theorem ancestors_eq (hf : t.Forest) (x : ElementId) : t'.ancestors x = t.ancestors x :=
  (h.forest hf).ancestors_eq ((hf.ascends_ancestors x).congr fun y _ => h.parent_eq y)

theorem isWithin_eq (hf : t.Forest) (x y : ElementId) : t'.isWithin x y = t.isWithin x y := by
  simp only [isWithin, h.ancestors_eq hf]

theorem isAttached_eq (hf : t.Forest) (x : ElementId) : t'.isAttached x = t.isAttached x := by
  rw [Bool.eq_iff_iff, (h.forest hf).isAttached_iff, hf.isAttached_iff, h.contains_eq,
    h.isWithin_eq hf, h.root]

end SameLinks

theorem sameLinks_modify (t : Tree) (id : ElementId) {f : Element → Element}
    (h : ∀ e, (f e).typeName = e.typeName ∧ (f e).place = e.place ∧ (f e).slots = e.slots) :
    SameLinks t (t.modify id f) where
  root := rfl
  dictionary := rfl
  links x := by
    rw [get?_modify]
    split
    · next hx =>
      subst hx
      rw [Option.map_map]
      apply Option.map_congr
      intro e _
      obtain ⟨htype, hplace, hslots⟩ := h e
      simp [htype, hplace, hslots]
    · rfl

section create

variable (t) (typeName : String) (name : Option String)

abbrev nextId : ElementId := t.elements.nextId

theorem get?_create (x : ElementId) : (t.create typeName name).get? x =
    if x = t.nextId then some (Element.create t.dictionary typeName name) else t.get? x :=
  t.elements.get?_insert _ x

theorem get?_nextId : t.get? t.nextId = none :=
  t.elements.get?_nextId

theorem children_element_create (d : Dictionary) :
    (Element.create d typeName name).children = [] := by
  simp [Element.children, Element.create]

theorem slot?_element_create (d : Dictionary) (slot : String) :
    (Element.create d typeName name).slot? slot = none ∨
      (Element.create d typeName name).slot? slot = some [] := by
  cases hs : (Element.create d typeName name).slot? slot with
  | none => exact Or.inl rfl
  | some l =>
      have hsub := Element.contents_sublist_children hs
      rw [children_element_create] at hsub
      rw [List.sublist_nil.1 hsub]
      exact Or.inr rfl

theorem parent_create (x : ElementId) : (t.create typeName name).parent x = t.parent x := by
  simp only [parent, get?_create]
  split
  · next hx =>
    rw [hx, get?_nextId]
    rfl
  · rfl

theorem children_create (c : ElementId) :
    (t.create typeName name).children c = t.children c := by
  simp only [children, get?_create]
  split
  · next hc =>
    rw [hc, get?_nextId, Option.map_some, children_element_create]
    rfl
  · rfl

theorem contents_create (c : ElementId) (slot : String) :
    (t.create typeName name).contents c slot = t.contents c slot := by
  simp only [contents, get?_create]
  split
  · next hc =>
    rw [hc, get?_nextId, Option.bind_some]
    rcases slot?_element_create typeName name t.dictionary slot with h | h <;> rw [h] <;> rfl
  · rfl

variable {t typeName name}

theorem get?_create_of_get? {e : Element} (h : t.get? x = some e) :
    (t.create typeName name).get? x = some e := by
  have hne : x ≠ t.nextId := by
    intro heq
    subst heq
    simp [get?_nextId] at h
  rw [get?_create, if_neg hne, h]

theorem contains_create_of_contains (h : t.contains x = true) :
    (t.create typeName name).contains x = true := by
  obtain ⟨e, he⟩ := contains_iff.1 h
  exact contains_of_get? (get?_create_of_get? he)

theorem Forest.create (hf : t.Forest) : (t.create typeName name).Forest where
  root_top := by
    obtain ⟨e, he, hplace⟩ := hf.root_top
    exact ⟨e, get?_create_of_get? he, hplace⟩
  ascends x := by
    obtain ⟨l, hl⟩ := hf.ascends x
    exact ⟨l, hl.congr fun _ _ => parent_create ..⟩
  parent_of_mem {c x} hx := by
    rw [children_create] at hx
    rw [parent_create]
    exact hf.parent_of_mem hx
  mem_of_place {x e p} he hp := by
    rw [contents_create]
    rw [get?_create] at he
    split at he
    · obtain rfl := Option.some.inj he
      simp [Element.create] at hp
    · exact hf.mem_of_place he hp
  nodup_children c := by
    rw [children_create]
    exact hf.nodup_children c
  slots_defined {c e} he := by
    rw [get?_create] at he
    split at he
    · obtain rfl := Option.some.inj he
      simp [Element.create, Tree.create, Function.comp_def]
    · exact hf.slots_defined he
  accepted {x e p host} he hp hhost := by
    rw [get?_create] at he
    split at he
    · obtain rfl := Option.some.inj he
      simp [Element.create] at hp
    · have hlive := hf.container_contained (parent_eq_some_iff.2 ⟨e, p, he, hp, rfl⟩)
      rw [get?_create, if_neg (Arena.ne_nextId hlive)] at hhost
      exact hf.accepted he hp hhost
  single {c host slot definition} hc hdef hmul := by
    rw [contents_create]
    rw [get?_create] at hc
    split at hc
    · next hid => simp [contents, hid, get?_nextId]
    · exact hf.single hc hdef hmul

theorem Forest.ancestors_create (hf : t.Forest) (x : ElementId) :
    (t.create typeName name).ancestors x = t.ancestors x :=
  hf.create.ancestors_eq ((hf.ascends_ancestors x).congr fun _ _ => parent_create ..)

theorem Forest.isWithin_create (hf : t.Forest) (x y : ElementId) :
    (t.create typeName name).isWithin x y = t.isWithin x y := by
  simp only [isWithin, hf.ancestors_create]

theorem Forest.isAttached_create (hf : t.Forest) (x : ElementId) :
    (t.create typeName name).isAttached x = t.isAttached x := by
  rw [Bool.eq_iff_iff, hf.create.isAttached_iff, hf.isAttached_iff, hf.isWithin_create]
  refine and_congr_left fun hw => ⟨fun hx => ?_, contains_create_of_contains⟩
  by_cases hnew : x = t.nextId
  · -- what is new lies in nothing but itself
    have hp : t.parent x = none := by simp [parent, hnew, get?_nextId]
    rw [(hf.isWithin_of_top hp).1 hw]
    exact hf.root_contained
  · obtain ⟨e, he⟩ := contains_iff.1 hx
    rw [get?_create, if_neg hnew] at he
    exact contains_of_get? he

end create

section eraseAll

/-- An element may be freed: it stands nowhere, and is not the root. -/
structure CanErase (t : Tree) (id : ElementId) : Prop where
  top : ∃ e, t.get? id = some e ∧ e.place = none
  not_root : id ≠ t.root

variable (t id)

theorem get?_eraseAll (x : ElementId) :
    (t.eraseAll id).get? x = if x ∈ t.walk id then none else t.get? x :=
  t.elements.get?_eraseMany (t.walk id) x

theorem parent_eraseAll (x : ElementId) :
    (t.eraseAll id).parent x = if x ∈ t.walk id then none else t.parent x := by
  simp only [parent, get?_eraseAll]
  split <;> rfl

theorem children_eraseAll (c : ElementId) :
    (t.eraseAll id).children c = if c ∈ t.walk id then [] else t.children c := by
  simp only [children, get?_eraseAll]
  split <;> rfl

theorem contents_eraseAll (c : ElementId) (slot : String) :
    (t.eraseAll id).contents c slot = if c ∈ t.walk id then [] else t.contents c slot := by
  simp only [contents, get?_eraseAll]
  split <;> rfl

variable {t id} (hf : t.Forest) (h : t.CanErase id)

include h

theorem CanErase.parent_eq_none : t.parent id = none := by
  obtain ⟨e, he, hplace⟩ := h.top
  simp [parent, he, hplace]

include hf

theorem CanErase.mem_walk_of_parent {p : ElementId} (hp : t.parent x = some p) :
    x ∈ t.walk id ↔ p ∈ t.walk id := by
  have hne : x ≠ id := by
    intro heq
    subst heq
    simp [h.parent_eq_none] at hp
  rw [hf.mem_walk, hf.mem_walk, hf.isWithin_of_parent hp]
  simp [hne, contains_of_parent hp, hf.container_contained hp]

theorem CanErase.not_isAttached (hx : x ∈ t.walk id) : ¬ t.isAttached x = true := by
  rw [hf.isAttached_of_mem_walk hx, hf.isAttached_iff, hf.isWithin_of_top h.parent_eq_none]
  exact fun hroot => h.not_root hroot.2

theorem CanErase.ascends_eraseAll (hx : x ∉ t.walk id) :
    (t.eraseAll id).Ascends x (t.ancestors x) := by
  have hup := hf.ascends_ancestors x
  generalize t.ancestors x = l at hup
  induction hup with
  | top hp => exact .top (by rw [parent_eraseAll, if_neg hx, hp])
  | step hp _ ih =>
      refine .step (by rw [parent_eraseAll, if_neg hx, hp]) (ih fun hmem => hx ?_)
      exact (h.mem_walk_of_parent hf hp).2 hmem

theorem CanErase.forest_eraseAll : (t.eraseAll id).Forest where
  root_top := by
    obtain ⟨e, he, hplace⟩ := hf.root_top
    refine ⟨e, (get?_eraseAll ..).trans ((if_neg fun hmem => ?_).trans he), hplace⟩
    exact h.not_isAttached hf hmem hf.isAttached_root
  ascends x := by
    by_cases hx : x ∈ t.walk id
    · exact ⟨[], .top (by rw [parent_eraseAll, if_pos hx])⟩
    · exact ⟨_, h.ascends_eraseAll hf hx⟩
  parent_of_mem {c x} hx := by
    rw [children_eraseAll] at hx
    split at hx
    · simp at hx
    · next hc =>
      have hp := hf.parent_of_mem hx
      rw [parent_eraseAll, if_neg fun hmem => hc ((h.mem_walk_of_parent hf hp).1 hmem), hp]
  mem_of_place {x e p} he hp := by
    rw [get?_eraseAll] at he
    split at he
    · simp at he
    · next hx =>
      have hparent := parent_eq_some_iff.2 ⟨e, p, he, hp, rfl⟩
      rw [contents_eraseAll, if_neg fun hmem => hx ((h.mem_walk_of_parent hf hparent).2 hmem)]
      exact hf.mem_of_place he hp
  nodup_children c := by
    rw [children_eraseAll]
    split
    · exact List.nodup_nil
    · exact hf.nodup_children c
  slots_defined {c e} he := by
    rw [get?_eraseAll] at he
    split at he
    · simp at he
    · exact hf.slots_defined he
  accepted {x e p host} he hp hhost := by
    rw [get?_eraseAll] at he hhost
    split at he
    · simp at he
    · split at hhost
      · simp at hhost
      · exact hf.accepted he hp hhost
  single {c host slot definition} hc hdef hmul := by
    rw [contents_eraseAll]
    rw [get?_eraseAll] at hc
    split at hc
    · simp at hc
    · next hmem =>
      rw [if_neg hmem]
      exact hf.single hc hdef hmul

theorem CanErase.isWithin_eraseAll (hx : x ∉ t.walk id) :
    (t.eraseAll id).isWithin x y = t.isWithin x y := by
  simp only [isWithin, (h.forest_eraseAll hf).ancestors_eq (h.ascends_eraseAll hf hx)]

theorem CanErase.isAttached_eraseAll (x : ElementId) :
    (t.eraseAll id).isAttached x = t.isAttached x := by
  have hroot : (t.eraseAll id).root = t.root := rfl
  rw [Bool.eq_iff_iff]
  by_cases hx : x ∈ t.walk id
  · have hgone : ¬ (t.eraseAll id).isAttached x = true := fun ha => by
      obtain ⟨e, he⟩ := contains_iff.1 (Forest.contained_of_isAttached ha)
      rw [get?_eraseAll, if_pos hx] at he
      simp at he
    simp [hgone, h.not_isAttached hf hx]
  · rw [(h.forest_eraseAll hf).isAttached_iff, hf.isAttached_iff, hroot,
      h.isWithin_eraseAll hf hx]
    have hlive : (t.eraseAll id).contains x = t.contains x := by
      have := congrArg Option.isSome (get?_eraseAll t id x)
      rwa [if_neg hx] at this
    rw [hlive]

end eraseAll

end ReportModel.Tree
