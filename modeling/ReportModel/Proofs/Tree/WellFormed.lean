import ReportModel.Proofs.Tree.Index

/-!
# Well-formed trees

The operations on trees keep them well-formed, if attaching and renaming leave no two claims to one
name. Apart from the index, each does what its name says and no more.
-/

namespace ReportModel.Tree

variable {t : Tree} {id x y : ElementId} {place : Place} {index : Nat} {key : NameKey}

theorem slotScope_relink (t : Tree) (id : ElementId) (place : Place)
    (f : List ElementId → List ElementId) (new : Option Place) (c : ElementId) (slot : String) :
    (t.relink id place f new).slotScope c slot = t.slotScope c slot := by
  simp only [slotScope, get?_relink]
  cases t.get? c <;> rfl

theorem claim_relink (t : Tree) (place : Place) (f : List ElementId → List ElementId)
    (new : Option Place) (h : x ≠ id) : (t.relink id place f new).claim x = t.claim x := by
  cases he : t.get? x with
  | none => simp [claim, get?_relink, he]
  | some e =>
      have he' : (t.relink id place f new).get? x = some (relinked id place f new x e) := by
        rw [get?_relink, he, Option.map_some]
      exact claim_congr rfl he he' rfl rfl (if_neg h) fun p _ => slotScope_relink ..

/-- Attaching links the element and brings the index up to date. -/
theorem WellFormed.attach (h : t.WellFormed) (hc : t.CanLink id place index)
    (hn : (t.link id place index).Named) :
    ∃ names, t.attach id place index = (t.link id place index).withNames names ∧
      ((t.link id place index).withNames names).WellFormed := by
  obtain ⟨host, l, hhost, hl⟩ := hc.exists_slot h.forest
  have hslot : ((t.get? place.container).bind (·.slot? place.slot)).isSome = true := by
    simp [hhost, hl]
  have hf := h.forest
  have hf' := hc.forest_link hf
  have hattach : t.attach id place index =
      if (t.link id place index).isAttached place.container then
        (t.link id place index).enterAll id
      else t.link id place index := by
    simp only [Tree.attach, if_pos hslot]
    rfl
  have hout : place.container ∉ t.walk id := fun hmem => hc.outside (hf.mem_walk.1 hmem).2
  have hcontainer : (t.link id place index).isAttached place.container = true ↔
      t.isAttached place.container = true := by
    rw [hc.isAttached_link hf]
    simp [hout]
  have hne : ∀ {x}, t.isAttached x = true → x ≠ id := fun hx heq =>
    hc.not_isAttached hf (heq ▸ hx)
  have hclaim : ∀ {x}, x ≠ id → (t.link id place index).claim x = t.claim x :=
    fun hx => claim_relink t place _ _ hx
  rw [hattach]
  split
  · -- in an attached container the claims of the whole subtree are entered
    next hat =>
    have hmem : ∀ {x}, x ∈ (t.link id place index).walk id ↔ x ∈ t.walk id := by
      intro x
      have hlive : (t.link id place index).contains x = t.contains x := contains_relink ..
      rw [hf'.mem_walk, hf.mem_walk, hlive, hc.isWithin_link_self hf]
    have hat' : ∀ {x}, x ∈ t.walk id → (t.link id place index).isAttached x = true :=
      fun hx => (hc.isAttached_link hf).2 (Or.inr ⟨hx, hcontainer.1 hat⟩)
    obtain ⟨names, hnames, hget⟩ := foldl_enter_eq (t.link id place index)
      ((t.link id place index).walk id) fun x hx y hy w hcx hcy =>
        hn.unique (hat' (hmem.1 hx)) (hat' (hmem.1 hy)) hcx hcy
    refine ⟨names, hnames, hf'.withNames _, hn.withNames _, fun key x => ?_⟩
    rw [withNames_names, hget, isAttached_withNames, claim_withNames]
    have hold : (t.link id place index).names.get? key = some x ↔ _ := h.indexed key x
    rw [hold]
    constructor
    · intro h
      rcases h with ⟨hx, hcx⟩ | ⟨⟨hx, hcx⟩, -⟩
      · exact ⟨hat' (hmem.1 hx), hcx⟩
      · exact ⟨(hc.isAttached_link hf).2 (Or.inl hx), (hclaim (hne hx)).trans hcx⟩
    · intro h
      obtain ⟨hx, hcx⟩ := h
      by_cases hxw : x ∈ (t.link id place index).walk id
      · exact Or.inl ⟨hxw, hcx⟩
      · have hx' : t.isAttached x = true := by
          refine ((hc.isAttached_link hf).1 hx).resolve_right fun hw => hxw (hmem.2 hw.1)
        refine Or.inr ⟨⟨hx', (hclaim (hne hx')).symm.trans hcx⟩, fun y hy hcy => hxw ?_⟩
        exact hn.unique hx (hat' (hmem.1 hy)) hcx hcy ▸ hy
  · -- in a detached one nothing becomes attached, and the index stays as it is
    next hat =>
    have hiff : ∀ {x}, (t.link id place index).isAttached x = true ↔ t.isAttached x = true := by
      intro x
      have : ¬ t.isAttached place.container = true := fun hp => hat (hcontainer.2 hp)
      rw [hc.isAttached_link hf]
      simp [this]
    refine ⟨(t.link id place index).names, rfl, hf', hn, fun key x => ?_⟩
    have hold : (t.link id place index).names.get? key = some x ↔ _ := h.indexed key x
    apply hold.trans
    rw [isAttached_withNames, claim_withNames, hiff]
    exact and_congr_right fun hx => by rw [hclaim (hne hx)]

theorem CanUnlink.isAttached_unlink (hf : t.Forest) (hc : t.CanUnlink id place index) :
    (t.unlink id place).isAttached x = true ↔ t.isAttached x = true ∧ x ∉ t.walk id := by
  have hl := hc.canLink_unlink hf
  have hf' := hc.forest_unlink hf
  have hback := hl.isAttached_link (x := x) hf'
  rw [hc.link_unlink hf, hc.mem_walk_unlink hf] at hback
  constructor
  · refine fun hx => ⟨hback.2 (Or.inl hx), fun hmem => hl.not_isAttached hf' ?_⟩
    exact (hf'.isAttached_of_mem_walk ((hc.mem_walk_unlink hf).2 hmem)).1 hx
  · intro h
    obtain ⟨hx, hout⟩ := h
    exact (hback.1 hx).resolve_right fun hmem => hout hmem.1

theorem CanUnlink.claim_unlink (hf : t.Forest) (hc : t.CanUnlink id place index)
    (hx : (t.unlink id place).isAttached x = true) :
    (t.unlink id place).claim x = t.claim x := by
  apply claim_relink t place _ _
  intro heq
  subst heq
  exact ((hc.isAttached_unlink hf).1 hx).2 (hf.mem_walk_self hc.contained)

theorem WellFormed.named_unlink (h : t.WellFormed) (hc : t.CanUnlink id place index) :
    (t.unlink id place).Named := by
  have hf := h.forest
  refine h.named.of_le rfl rfl (fun x hx => ((hc.isAttached_unlink hf).1 hx).1) (fun _ he => ?_)
    fun x hx => hc.claim_unlink hf hx
  rw [unlink, get?_relink] at he
  obtain ⟨e, he₁, rfl⟩ := Option.map_eq_some_iff.1 he
  exact ⟨e, he₁, rfl, rfl⟩

theorem WellFormed.detach (h : t.WellFormed) (hc : t.CanUnlink id place index) :
    ∃ names, t.detach id = (t.unlink id place).withNames names ∧
      ((t.unlink id place).withNames names).WellFormed := by
  have hf := h.forest
  have hf' := hc.forest_unlink hf
  have hn := h.named_unlink hc
  obtain ⟨e, he, hplace⟩ := hc.placed
  obtain ⟨names, hnames, hget⟩ : ∃ names,
      (if t.isAttached id then t.strikeAll id else t) = t.withNames names ∧
      ∀ key x, names.get? key = some x ↔ t.names.get? key = some x ∧
        ¬ (t.isAttached id = true ∧ x ∈ t.walk id ∧ t.claim x = some (.inModule key)) := by
    split
    · next hat =>
      obtain ⟨names, hnames, hget⟩ := foldl_strike_eq t (t.walk id)
      exact ⟨names, hnames, fun key x => by simp only [hget, hat, true_and]⟩
    · next hat => exact ⟨t.names, rfl, fun key x => by simp [hat]⟩
  refine ⟨names, ?_, hf'.withNames _, hn.withNames _, fun key x => ?_⟩
  · simp only [Tree.detach, he, Option.bind_some, hplace]
    rw [hnames, if_pos (by simpa using hc.mem_contents)]
    rfl
  · rw [withNames_names, hget, isAttached_withNames, claim_withNames, h.indexed key x]
    constructor
    · intro h
      obtain ⟨⟨hx, hcx⟩, hnot⟩ := h
      have hx' := (hc.isAttached_unlink hf).2
        ⟨hx, fun hw => hnot ⟨(hf.isAttached_of_mem_walk hw).1 hx, hw, hcx⟩⟩
      exact ⟨hx', (hc.claim_unlink hf hx').trans hcx⟩
    · intro h
      obtain ⟨hx, hcx⟩ := h
      rw [hc.claim_unlink hf hx] at hcx
      obtain ⟨hx, hw⟩ := (hc.isAttached_unlink hf).1 hx
      exact ⟨⟨hx, hcx⟩, fun hnot => hw hnot.2.1⟩

/-- The tree with the name of an element replaced, its index left as it was. -/
def renamed (t : Tree) (id : ElementId) (name : Option String) : Tree :=
  t.modify id fun e => { e with name := name }

theorem sameLinks_renamed (t : Tree) (id : ElementId) (name : Option String) :
    SameLinks t (t.renamed id name) :=
  sameLinks_modify t id fun _ => ⟨rfl, rfl, rfl⟩

theorem get?_renamed (t : Tree) (id : ElementId) (name : Option String) (x : ElementId) :
    (t.renamed id name).get? x =
      if x = id then (t.get? id).map fun e => { e with name := name } else t.get? x :=
  get?_modify ..

theorem claim_renamed (t : Tree) (name : Option String) (h : x ≠ id) :
    (t.renamed id name).claim x = t.claim x := by
  cases he : t.get? x with
  | none => simp [claim, get?_renamed, h, he]
  | some e =>
      have he' : (t.renamed id name).get? x = some e := by rw [get?_renamed, if_neg h, he]
      have hlinks := sameLinks_renamed t id name
      exact claim_congr rfl he he' rfl rfl rfl fun p _ => hlinks.slotScope_eq ..

theorem WellFormed.rename (h : t.WellFormed) {name : Option String}
    (hn : (t.renamed id name).Named) :
    ∃ names, t.rename id name = (t.renamed id name).withNames names ∧
      ((t.renamed id name).withNames names).WellFormed := by
  have hlinks := sameLinks_renamed t id name
  have hf' := hlinks.forest h.forest
  have hattached : ∀ x, (t.renamed id name).isAttached x = t.isAttached x :=
    hlinks.isAttached_eq h.forest
  simp only [Tree.rename]
  split
  · next hat =>
    obtain ⟨struck, hstruck, hget⟩ := strike_eq t id
    obtain ⟨names, hnames, hget'⟩ := enter_eq ((t.renamed id name).withNames struck) id
    refine ⟨names, ?_, hf'.withNames _, hn.withNames _, fun key x => ?_⟩
    · rw [hstruck]
      exact hnames
    · rw [withNames_names, hget', withNames_names, hget, isAttached_withNames, claim_withNames,
        claim_withNames, hattached, h.indexed key x]
      by_cases hx : x = id
      · subst hx
        simp only [hat, true_and]
        tauto
      · simp only [hx, false_and, false_or, not_false_eq_true, and_true, claim_renamed t name hx]
        refine ⟨And.left, fun hcx => ⟨hcx, fun hcid => hx ?_⟩⟩
        refine hn.unique ((hattached x).trans hcx.1) ((hattached id).trans hat) ?_ hcid
        rw [claim_renamed t name hx]
        exact hcx.2
  · next hat =>
    refine ⟨t.names, rfl, hf'.withNames _, hn.withNames _, fun key x => ?_⟩
    rw [withNames_names, isAttached_withNames, claim_withNames, hattached, h.indexed key x]
    apply and_congr_right
    intro hx
    have hne : x ≠ id := fun heq => hat (heq ▸ hx)
    rw [claim_renamed t name hne]

theorem WellFormed.nameConflicts_of_claim (h : t.WellFormed) {w : Reservation} {name : String}
    (hx : t.isAttached x = true) (hcx : t.claim x = some w) (hxy : x ≠ y)
    (hres : t.reservation y place name = some w) : t.nameConflicts y place name = true := by
  obtain ⟨e, own, p, he, hname, hp, hresx⟩ := claim_eq_some_iff.1 hcx
  cases w with
  | inModule key =>
      have hkey := reservation_eq_inModule_iff.1 hres
      have hfound := (h.indexed key x).2 ⟨hx, hcx⟩
      simp only [nameConflicts, (nameKey_eq_some_iff.1 hkey).1, hkey, Option.bind_some, hfound,
        Option.any_some]
      exact decide_eq_true hxy
  | inSlot q n =>
      obtain ⟨-, rfl, rfl⟩ := reservation_eq_inSlot_iff.1 hresx
      obtain ⟨hscope, rfl, rfl⟩ := reservation_eq_inSlot_iff.1 hres
      simp only [nameConflicts, hscope]
      refine List.any_eq_true.2 ⟨x, h.forest.mem_of_place he hp, ?_⟩
      simp [hxy, he, hname]

theorem claim_renamed_self {e : Element} (he : t.get? id = some e) (name : Option String) :
    (t.renamed id name).claim id =
      name.bind fun n => e.place.bind fun p => t.reservation id p n := by
  have he' : (t.renamed id name).get? id = some { e with name := name } := by
    rw [get?_renamed, if_pos rfl, he, Option.map_some]
  have hres : ∀ p n, (t.renamed id name).reservation id p n = t.reservation id p n := by
    intro p n
    have hscope := (sameLinks_renamed t id name).slotScope_eq p.container p.slot
    have hdictionary : (t.renamed id name).dictionary = t.dictionary := rfl
    exact reservation_congr hdictionary (by simp [he, he']) hscope n
  simp only [claim, he', Option.bind_some, hres]

theorem WellFormed.named_renamed (h : t.WellFormed) {name : Option String} {e : Element}
    (he : t.get? id = some e)
    (hrequired : name = none → t.dictionary.nameRequired e.typeName = false)
    (hfree : ∀ n p, t.isAttached id = true → name = some n → e.place = some p →
      t.nameConflicts id p n = false) : (t.renamed id name).Named := by
  have hattached : ∀ x, (t.renamed id name).isAttached x = t.isAttached x :=
    (sameLinks_renamed t id name).isAttached_eq h.forest
  have hclaim : ∀ {x}, x ≠ id → (t.renamed id name).claim x = t.claim x :=
    fun hx => claim_renamed t name hx
  -- the name is in no conflict, so nothing else claims what the renamed element does
  have hapart : ∀ {x w}, t.isAttached x = true → t.isAttached id = true → x ≠ id →
      t.claim x = some w → (t.renamed id name).claim id ≠ some w := by
    intro x w hx hid hne hcx hcid
    rw [claim_renamed_self he] at hcid
    obtain ⟨n, hn, hcid⟩ := Option.bind_eq_some_iff.1 hcid
    obtain ⟨p, hp, hres⟩ := Option.bind_eq_some_iff.1 hcid
    have hconflict := h.nameConflicts_of_claim hx hcx hne hres
    rw [hfree n p hid hn hp] at hconflict
    exact Bool.noConfusion hconflict
  constructor
  · intro x y w hx hy hcx hcy
    rw [hattached] at hx hy
    by_cases hxid : x = id
    · by_cases hyid : y = id
      · exact hxid.trans hyid.symm
      · rw [hclaim hyid] at hcy
        exact absurd (hxid ▸ hcx) (hapart hy (hxid ▸ hx) hyid hcy)
    · rw [hclaim hxid] at hcx
      by_cases hyid : y = id
      · exact absurd (hyid ▸ hcy) (hapart hx (hyid ▸ hy) hxid hcx)
      · rw [hclaim hyid] at hcy
        exact h.named.unique hx hy hcx hcy
  · intro x e' hx hroot he' hreq
    rw [hattached] at hx
    rw [get?_renamed] at he'
    split at he'
    · rw [he, Option.map_some] at he'
      obtain rfl := Option.some.inj he'
      intro hnone
      have := hrequired hnone
      exact Bool.false_ne_true (this.symm.trans hreq)
    · exact h.named.required hx hroot he' hreq

theorem WellFormed.create (h : t.WellFormed) (typeName : String) (name : Option String) :
    (t.create typeName name).WellFormed := by
  have hf := h.forest
  have hattached : ∀ x, (t.create typeName name).isAttached x = t.isAttached x :=
    hf.isAttached_create
  have hget : ∀ {x e'}, t.isAttached x = true → (t.create typeName name).get? x = some e' →
      t.get? x = some e' := by
    intro x e' hx he
    rwa [get?_create, if_neg (Arena.ne_nextId (Forest.contained_of_isAttached hx))] at he
  have hclaim : ∀ x, t.isAttached x = true → (t.create typeName name).claim x = t.claim x := by
    intro x hx
    obtain ⟨e, he⟩ := contains_iff.1 (Forest.contained_of_isAttached hx)
    refine claim_congr rfl he (get?_create_of_get? he) rfl rfl rfl fun p hp => ?_
    have hlive := hf.container_contained (parent_eq_some_iff.2 ⟨e, p, he, hp, rfl⟩)
    obtain ⟨host, hhost⟩ := contains_iff.1 hlive
    simp only [slotScope, get?_create_of_get? hhost, hhost]
    rfl
  refine ⟨hf.create, ?_, fun key x => ?_⟩
  · refine h.named.of_le rfl rfl (fun x hx => ?_) (fun hx he => ?_) fun x hx => ?_
    · rwa [hattached] at hx
    · rw [hattached] at hx
      exact ⟨_, hget hx he, rfl, rfl⟩
    · rw [hattached] at hx
      exact hclaim x hx
  · apply (h.indexed key x).trans
    rw [hattached]
    exact and_congr_right fun hx => by rw [hclaim x hx]

theorem WellFormed.eraseAll (h : t.WellFormed) (hc : t.CanErase id) :
    (t.eraseAll id).WellFormed := by
  have hf := h.forest
  have hattached := hc.isAttached_eraseAll hf
  have hout : ∀ {x}, t.isAttached x = true → x ∉ t.walk id := fun hx hmem =>
    hc.not_isAttached hf hmem hx
  have hclaim : ∀ x, t.isAttached x = true → (t.eraseAll id).claim x = t.claim x := by
    intro x hx
    obtain ⟨e, he⟩ := contains_iff.1 (Forest.contained_of_isAttached hx)
    have he' : (t.eraseAll id).get? x = some e := by rw [get?_eraseAll, if_neg (hout hx), he]
    refine claim_congr rfl he he' rfl rfl rfl fun p hp => ?_
    have hparent := parent_eq_some_iff.2 ⟨e, p, he, hp, rfl⟩
    have hc' := hout ((hf.isAttached_of_parent hparent).1 hx)
    simp only [slotScope, get?_eraseAll, if_neg hc']
    rfl
  refine ⟨hc.forest_eraseAll hf, ?_, fun key x => ?_⟩
  · refine h.named.of_le rfl rfl (fun x hx => ?_) (fun hx he => ?_) fun x hx => ?_
    · rwa [hattached] at hx
    · rw [hattached] at hx
      rw [get?_eraseAll, if_neg (hout hx)] at he
      exact ⟨_, he, rfl, rfl⟩
    · rw [hattached] at hx
      exact hclaim x hx
  · apply (h.indexed key x).trans
    rw [hattached]
    exact and_congr_right fun hx => by rw [hclaim x hx]

theorem wellFormed_new (dictionary : Dictionary) (rootType : String) :
    (Tree.new dictionary rootType).WellFormed := by
  have hget : ∀ x, (Tree.new dictionary rootType).get? x =
      if x = (Tree.new dictionary rootType).root then
        some (Element.create dictionary rootType none) else none := by
    intro x
    have hempty : (Arena.empty : Arena Element).get? x = none := by simp [Arena.get?, Arena.empty]
    exact (Arena.get?_insert ..).trans (by rw [hempty]; rfl)
  have hplace : ∀ {x e}, (Tree.new dictionary rootType).get? x = some e →
      e = Element.create dictionary rootType none := by
    intro x e he
    rw [hget] at he
    split at he
    · exact (Option.some.inj he).symm
    · simp at he
  have hparent : ∀ x, (Tree.new dictionary rootType).parent x = none := by
    intro x
    cases hp : (Tree.new dictionary rootType).parent x with
    | none => rfl
    | some p =>
        obtain ⟨e, place, he, he', -⟩ := parent_eq_some_iff.1 hp
        rw [hplace he] at he'
        simp [Element.create] at he'
  have hchildren : ∀ c, (Tree.new dictionary rootType).children c = [] := by
    intro c
    cases hc : (Tree.new dictionary rootType).get? c with
    | none => simp [children, hc]
    | some e => rw [children_eq hc, hplace hc, children_element_create]
  have hcontents : ∀ c slot, (Tree.new dictionary rootType).contents c slot = [] := by
    intro c slot
    have := contents_sublist_children (Tree.new dictionary rootType) c slot
    rwa [hchildren, List.sublist_nil] at this
  have hf : (Tree.new dictionary rootType).Forest := by
    refine ⟨⟨_, (hget _).trans (if_pos rfl), rfl⟩, fun x => ⟨[], .top (hparent x)⟩, ?_, ?_, ?_, ?_,
      ?_, ?_⟩
    · intro c x hx
      simp [hchildren] at hx
    · intro x e p he hp
      rw [hplace he] at hp
      simp [Element.create] at hp
    · intro c
      simp [hchildren]
    · intro c e he
      rw [hplace he]
      simp [Element.create, Tree.new, Function.comp_def]
    · intro x e p host he hp
      rw [hplace he] at hp
      simp [Element.create] at hp
    · intro c host slot definition _ _ _
      simp [hcontents]
  have hclaim : ∀ x, (Tree.new dictionary rootType).claim x = none := by
    intro x
    simp only [claim, hget]
    split <;> rfl
  refine ⟨hf, ⟨fun _ _ hx => by simp [hclaim] at hx, fun {x e} hx hne => ?_⟩, fun key x => ?_⟩
  · obtain ⟨e', he'⟩ := contains_iff.1 (Forest.contained_of_isAttached hx)
    rw [hget, if_neg hne] at he'
    simp at he'
  · have hnone : (Tree.new dictionary rootType).names.get? key = none := rfl
    rw [hnone, hclaim]
    simp

end ReportModel.Tree
