import ReportModel.Proofs.Editor.Replay

/-!
# Edits and elements that come and go

Creating an element changes nothing for a chain of edits: it leads from the one grown document to
the other. The same holds of freeing an element with all inside it, if none of the edits speaks of
what is freed.
-/

namespace ReportModel

namespace Tree

variable {t : Tree} {id x : ElementId} {place : Place} {index : Nat}

theorem create_modify (typeName : String) (name : Option String) (f : Element → Element)
    (h : t.contains id = true) :
    (t.modify id f).create typeName name = (t.create typeName name).modify id f := by
  have helements := Arena.modify_insert f (Element.create t.dictionary typeName name) h
  simp only [modify, create, helements]

theorem create_relink (typeName : String) (name : Option String)
    (f : List ElementId → List ElementId) (new : Option Place) (h : t.contains id = true)
    (hc : t.contains place.container = true) :
    (t.relink id place f new).create typeName name =
      (t.create typeName name).relink id place f new := by
  rw [relink, create_modify typeName name _ ((contains_modify ..).trans h),
    create_modify typeName name _ hc]
  rfl

theorem CanLink.create (h : t.CanLink id place index) (hf : t.Forest) (typeName : String)
    (name : Option String) : (t.create typeName name).CanLink id place index where
  accepts := by
    obtain ⟨e, host, definition, he, hplace, hhost, hdef, hallowed, hroom⟩ := h.accepts
    refine ⟨e, host, definition, get?_create_of_get? he, hplace, get?_create_of_get? hhost, hdef,
      hallowed, fun hmul => ?_⟩
    rw [contents_create]
    exact hroom hmul
  not_root := h.not_root
  outside := by
    rw [hf.isWithin_create]
    exact h.outside
  index_le := by
    rw [contents_create]
    exact h.index_le

theorem CanUnlink.create (h : t.CanUnlink id place index) (typeName : String)
    (name : Option String) : (t.create typeName name).CanUnlink id place index where
  placed := by
    obtain ⟨e, he, hplace⟩ := h.placed
    exact ⟨e, get?_create_of_get? he, hplace⟩
  getElem?_contents := by
    rw [contents_create]
    exact h.getElem?_contents

theorem SameLinks.walk_eq {t' : Tree} (h : SameLinks t t')
    (hcap : t'.elements.capacity = t.elements.capacity) (x : ElementId) :
    t'.walk x = t.walk x :=
  walk_congr hcap h.contains_eq fun y _ => h.children_eq y

theorem capacity_modify (t : Tree) (id : ElementId) (f : Element → Element) :
    (t.modify id f).elements.capacity = t.elements.capacity :=
  Arena.capacity_eq_of_shape (Arena.shape_modify ..)

theorem walk_relink (f : List ElementId → List ElementId) (new : Option Place)
    (h : place.container ∉ t.walk x) : (t.relink id place f new).walk x = t.walk x := by
  refine walk_congr ?_ (fun y => contains_relink ..) fun y hy =>
    children_relink_ne t id place f new ?_
  · rw [relink, capacity_modify, capacity_modify]
  · intro heq
    subst heq
    exact h hy

theorem eraseAll_modify {f : Element → Element}
    (hlinks : ∀ e, (f e).typeName = e.typeName ∧ (f e).place = e.place ∧ (f e).slots = e.slots)
    (h : id ∉ t.walk x) : (t.modify id f).eraseAll x = (t.eraseAll x).modify id f := by
  have hwalk := (sameLinks_modify t id hlinks).walk_eq (capacity_modify t id f) x
  have helements := Arena.modify_eraseMany (a := t.elements) f h
  simp only [eraseAll, hwalk]
  simp only [Arena.eraseMany] at helements
  simp only [modify, helements]

theorem eraseAll_relink (f : List ElementId → List ElementId) (new : Option Place)
    (h : id ∉ t.walk x) (hc : place.container ∉ t.walk x) :
    (t.relink id place f new).eraseAll x = (t.eraseAll x).relink id place f new := by
  have hwalk : (t.relink id place f new).walk x = t.walk x := walk_relink f new hc
  simp only [eraseAll, hwalk]
  simp only [relink, modify]
  have hfirst := Arena.modify_eraseMany (a := t.elements) (·.withSlot place.slot f) hc
  have hsecond := Arena.modify_eraseMany
    (a := t.elements.modify place.container (·.withSlot place.slot f))
    (fun e => { e with place := new }) h
  simp only [Arena.eraseMany] at hfirst hsecond
  rw [hsecond, hfirst]

theorem CanLink.eraseAll (h : t.CanLink id place index) (hf : t.Forest) (hx : t.CanErase x)
    (hid : id ∉ t.walk x) (hc : place.container ∉ t.walk x) :
    (t.eraseAll x).CanLink id place index where
  accepts := by
    obtain ⟨e, host, definition, he, hplace, hhost, hdef, hallowed, hroom⟩ := h.accepts
    refine ⟨e, host, definition, by rw [get?_eraseAll, if_neg hid, he], hplace,
      by rw [get?_eraseAll, if_neg hc, hhost], hdef, hallowed, fun hmul => ?_⟩
    rw [contents_eraseAll, if_neg hc]
    exact hroom hmul
  not_root := h.not_root
  outside := by
    rw [hx.isWithin_eraseAll hf hc]
    exact h.outside
  index_le := by
    rw [contents_eraseAll, if_neg hc]
    exact h.index_le

theorem CanUnlink.eraseAll (h : t.CanUnlink id place index) (hid : id ∉ t.walk x)
    (hc : place.container ∉ t.walk x) : (t.eraseAll x).CanUnlink id place index where
  placed := by
    obtain ⟨e, he, hplace⟩ := h.placed
    exact ⟨e, by rw [get?_eraseAll, if_neg hid, he], hplace⟩
  getElem?_contents := by
    rw [contents_eraseAll, if_neg hc]
    exact h.getElem?_contents

theorem CanErase.mem_walk (h : t.CanErase x) (hf : t.Forest) : x ∈ t.walk x := by
  obtain ⟨e, he, -⟩ := h.top
  exact hf.mem_walk_self (contains_of_get? he)

theorem CanErase.withNames (h : t.CanErase x) (names : SortedMap NameKey ElementId) :
    (t.withNames names).CanErase x :=
  ⟨h.top, h.not_root⟩

theorem CanErase.modify (h : t.CanErase x) {f : Element → Element}
    (hplace : ∀ e, (f e).place = e.place) : (t.modify id f).CanErase x where
  top := by
    obtain ⟨e, he, hp⟩ := h.top
    by_cases hx : x = id
    · exact ⟨f e, by rw [get?_modify, if_pos hx, ← hx, he, Option.map_some], (hplace e).trans hp⟩
    · exact ⟨e, by rw [get?_modify, if_neg hx, he], hp⟩
  not_root := h.not_root

theorem CanErase.relink (h : t.CanErase x) (f : List ElementId → List ElementId)
    (new : Option Place) (hx : x ≠ id) : (t.relink id place f new).CanErase x where
  top := by
    obtain ⟨e, he, hp⟩ := h.top
    exact ⟨_, (get?_relink ..).trans (congrArg _ he), (if_neg hx).trans hp⟩
  not_root := h.not_root

end Tree

/-- The type and the name that an element is created with. -/
structure Creation where
  typeName : String
  name : Option String
deriving DecidableEq

namespace Document

def create (d : Document) (creation : Creation) : Document :=
  Edit.onTree d (·.create creation.typeName creation.name)

def createAll (d : Document) (creations : List Creation) : Document :=
  creations.foldl create d

def eraseAll (d : Document) (id : ElementId) : Document :=
  Edit.onTree d (·.eraseAll id)

theorem createAll_append (d : Document) (cs rest : List Creation) :
    d.createAll (cs ++ rest) = (d.createAll cs).createAll rest :=
  List.foldl_append

theorem size_createAll (d : Document) (creations : List Creation) :
    (d.createAll creations).tree.size = d.tree.size + creations.length := by
  induction creations generalizing d with
  | nil => rfl
  | cons c cs ih =>
      have hcreate : (d.create c).tree.size = d.tree.size + 1 := Arena.size_insert ..
      change ((d.create c).createAll cs).tree.size = _
      rw [ih, hcreate, List.length_cons]
      omega

end Document

namespace Edit

variable {d d' : Document} {edit : Edit} {edits : List Edit} {x : ElementId}

theorem Leads.create (h : edit.Leads d d') (c : Creation) :
    edit.Leads (d.create c) (d'.create c) := by
  obtain ⟨names, rfl⟩ := h.draft
  have hf := h.before.forest
  have hfits := h.fits
  refine ⟨h.before.create _ _, ?_, h.after.create _ _, names, ?_⟩
  · cases edit with
    | attach => exact Tree.CanLink.create hfits hf _ _
    | detach => exact Tree.CanUnlink.create hfits _ _
    | libraries => trivial
    | value | mask | name | base | sheets => exact Tree.contains_create_of_contains hfits
  · have hdraft : (edit.draft d).create c = edit.draft (d.create c) := by
      cases edit with
      | attach element place index =>
          refine Document.eq_of_tree rfl rfl (Tree.create_relink _ _ _ _ ?_ ?_) rfl
          · exact Tree.CanLink.contained hfits
          · exact Tree.CanLink.container_contained hfits
      | detach element place index =>
          obtain ⟨host, -, hhost, -⟩ := Tree.CanUnlink.exists_slot hfits
          refine Document.eq_of_tree rfl rfl (Tree.create_relink _ _ _ _ ?_ ?_) rfl
          · exact Tree.CanUnlink.contained hfits
          · exact Tree.contains_of_get? hhost
      | libraries => rfl
      | value | mask | name | base | sheets =>
          exact Document.eq_of_tree rfl rfl (Tree.create_modify _ _ _ hfits) rfl
    rw [← hdraft]
    rfl

theorem Replays.create (h : Replays edits d d') (c : Creation) :
    Replays edits (d.create c) (d'.create c) := by
  induction edits generalizing d with
  | nil =>
      obtain rfl := h
      rfl
  | cons edit edits ih =>
      obtain ⟨mid, hlead, h⟩ := h
      exact ⟨mid.create c, hlead.create c, ih h⟩

theorem Reversible.create (h : Reversible edits d d') (c : Creation) :
    Reversible edits (d.create c) (d'.create c) :=
  ⟨h.forth.create c, h.back.create c⟩

theorem Reversible.createAll (h : Reversible edits d d') (cs : List Creation) :
    Reversible edits (d.createAll cs) (d'.createAll cs) := by
  induction cs generalizing d d' with
  | nil => exact h
  | cons c cs ih => exact ih (h.create c)

section eraseAll

theorem Leads.canErase (h : edit.Leads d d') (hx : d.tree.CanErase x)
    (hout : edit.touches (d.tree.walk x) = false) :
    d'.tree.CanErase x ∧ d'.tree.walk x = d.tree.walk x := by
  obtain ⟨names, rfl⟩ := h.draft
  have hself := hx.mem_walk h.before.forest
  suffices hdraft : (edit.draft d).tree.CanErase x ∧
      (edit.draft d).tree.walk x = d.tree.walk x from
    ⟨hdraft.1.withNames names, (Tree.walk_withNames ..).trans hdraft.2⟩
  cases edit with
  | attach element place index =>
      simp only [touches, Bool.or_eq_false_iff, List.contains_eq_mem, decide_eq_false_iff_not]
        at hout
      exact ⟨hx.relink _ _ fun heq => hout.1 (heq ▸ hself), Tree.walk_relink _ _ hout.2⟩
  | detach element place index =>
      simp only [touches, Bool.or_eq_false_iff, List.contains_eq_mem, decide_eq_false_iff_not]
        at hout
      exact ⟨hx.relink _ _ fun heq => hout.1 (heq ▸ hself), Tree.walk_relink _ _ hout.2⟩
  | libraries => exact ⟨hx, rfl⟩
  | value | mask | name | base | sheets =>
      refine ⟨hx.modify fun _ => rfl, Tree.SameLinks.walk_eq ?_ (Tree.capacity_modify ..) x⟩
      exact Tree.sameLinks_modify _ _ fun _ => ⟨rfl, rfl, rfl⟩

theorem Leads.eraseAll (h : edit.Leads d d') (hx : d.tree.CanErase x)
    (hout : edit.touches (d.tree.walk x) = false) :
    edit.Leads (d.eraseAll x) (d'.eraseAll x) := by
  have hx' := (h.canErase hx hout).1
  obtain ⟨names, rfl⟩ := h.draft
  have hf := h.before.forest
  have hfits := h.fits
  have hlive : ∀ {y}, y ∉ d.tree.walk x → d.tree.contains y = true →
      (d.tree.eraseAll x).contains y = true := by
    intro y hy hlive
    obtain ⟨e, he⟩ := Tree.contains_iff.1 hlive
    exact Tree.contains_of_get? (e := e) (by rw [Tree.get?_eraseAll, if_neg hy, he])
  refine ⟨h.before.eraseAll hx, ?_, h.after.eraseAll hx', names, ?_⟩
  · cases edit with
    | attach =>
        simp only [touches, Bool.or_eq_false_iff, List.contains_eq_mem, decide_eq_false_iff_not]
          at hout
        exact Tree.CanLink.eraseAll hfits hf hx hout.1 hout.2
    | detach =>
        simp only [touches, Bool.or_eq_false_iff, List.contains_eq_mem, decide_eq_false_iff_not]
          at hout
        exact Tree.CanUnlink.eraseAll hfits hout.1 hout.2
    | libraries => trivial
    | value | mask | name | base | sheets =>
        simp only [touches, List.contains_eq_mem, decide_eq_false_iff_not] at hout
        exact hlive hout hfits
  · have hdraft : (edit.draft d).eraseAll x = edit.draft (d.eraseAll x) := by
      cases edit with
      | attach | detach =>
          simp only [touches, Bool.or_eq_false_iff, List.contains_eq_mem, decide_eq_false_iff_not]
            at hout
          exact Document.eq_of_tree rfl rfl (Tree.eraseAll_relink _ _ hout.1 hout.2) rfl
      | libraries => rfl
      | value | mask | name | base | sheets =>
          simp only [touches, List.contains_eq_mem, decide_eq_false_iff_not] at hout
          exact Document.eq_of_tree rfl rfl
            (Tree.eraseAll_modify (fun _ => ⟨rfl, rfl, rfl⟩) hout) rfl
    rw [← hdraft]
    refine Document.eq_of_tree rfl rfl ?_ rfl
    simp only [Document.eraseAll, Document.withNames, onTree, Tree.eraseAll, Tree.walk_withNames]
    rfl

theorem Replays.canErase (h : Replays edits d d') (hx : d.tree.CanErase x)
    (hout : ∀ edit ∈ edits, edit.touches (d.tree.walk x) = false) :
    d'.tree.CanErase x ∧ d'.tree.walk x = d.tree.walk x := by
  induction edits generalizing d with
  | nil =>
      obtain rfl := h
      exact ⟨hx, rfl⟩
  | cons edit edits ih =>
      obtain ⟨mid, hlead, h⟩ := h
      obtain ⟨hmid, hwalk⟩ := hlead.canErase hx (hout edit List.mem_cons_self)
      rw [← hwalk] at hout ⊢
      exact ih h hmid fun e he => hout e (List.mem_cons_of_mem _ he)

theorem Replays.eraseAll (h : Replays edits d d') (hx : d.tree.CanErase x)
    (hout : ∀ edit ∈ edits, edit.touches (d.tree.walk x) = false) :
    Replays edits (d.eraseAll x) (d'.eraseAll x) := by
  induction edits generalizing d with
  | nil =>
      obtain rfl := h
      rfl
  | cons edit edits ih =>
      obtain ⟨mid, hlead, h⟩ := h
      have hfirst := hout edit List.mem_cons_self
      obtain ⟨hmid, hwalk⟩ := hlead.canErase hx hfirst
      refine ⟨mid.eraseAll x, hlead.eraseAll hx hfirst, ih h hmid fun e he => ?_⟩
      rw [hwalk]
      exact hout e (List.mem_cons_of_mem _ he)

theorem Reversible.eraseAll (h : Reversible edits d d') (hx : d.tree.CanErase x)
    (hout : ∀ edit ∈ edits, edit.touches (d.tree.walk x) = false) :
    Reversible edits (d.eraseAll x) (d'.eraseAll x) := by
  obtain ⟨hx', hwalk⟩ := h.forth.canErase hx hout
  refine ⟨h.forth.eraseAll hx hout, h.back.eraseAll hx' fun edit hedit => ?_⟩
  obtain ⟨e, he, rfl⟩ := List.mem_map.1 hedit
  rw [touches_inverse, hwalk]
  exact hout e (List.mem_reverse.1 he)

end eraseAll

end Edit

end ReportModel
