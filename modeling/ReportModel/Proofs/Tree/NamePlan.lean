import ReportModel.Proofs.Tree.WellFormed
import Mathlib.Data.List.Perm.Subperm

/-!
# Plans of names

A plan gives each member of a subtree a name that nothing else claims where the subtree will stand:
no name already in use, none that another member has been given. A free number is always found,
since no more names can be taken than are counted.
-/

namespace ReportModel

def Reservation.name : Reservation → String
  | .inModule key => key.name
  | .inSlot _ name => name

namespace Tree

variable {t t' : Tree} {top id x y : ElementId} {place target : Place} {index : Nat}
  {reserved : List Reservation} {name : String} {w : Reservation}

private theorem numbered_injective (name : String) :
    Function.Injective fun n : Nat => name ++ toString n := by
  intro a b hab
  have hrepr : a.repr = b.repr := (String.append_right_inj name).1 hab
  rw [Nat.repr_eq_ofList_toDigits, Nat.repr_eq_ofList_toDigits] at hrepr
  have hdigits := congrArg (fun s => Nat.ofDigitChars 10 s.toList 0) hrepr
  simpa using hdigits

theorem name_of_reservation (h : t.reservation id place name = some w) : w.name = name := by
  cases w with
  | inModule key =>
      obtain ⟨-, e, -, -, hname⟩ := nameKey_eq_some_iff.1 (reservation_eq_inModule_iff.1 h)
      exact hname
  | inSlot other name' => exact (reservation_eq_inSlot_iff.1 h).2.2.symm

def takenNames (t : Tree) (reserved : List Reservation) (place : Place) : List String :=
  reserved.map Reservation.name ++ t.names.entries.map (·.1.name) ++
    (t.contents place.container place.slot).filterMap fun sibling => (t.get? sibling).bind (·.name)

theorem length_takenNames_le (t : Tree) (reserved : List Reservation) (place : Place) :
    (t.takenNames reserved place).length ≤ t.takenBound reserved place := by
  have hsiblings := List.length_filterMap_le (fun sibling => (t.get? sibling).bind (·.name))
    (t.contents place.container place.slot)
  simp only [takenNames, takenBound, SortedMap.size, List.length_append, List.length_map]
  omega

theorem isTaken_iff : t.isTaken top reserved id place name = true ↔
    ∃ w, t.reservation id place name = some w ∧ (w ∈ reserved ∨
      (t.nameConflicts id place name = true ∧ (w = .inSlot place name → id = top))) := by
  simp only [isTaken]
  cases hw : t.reservation id place name with
  | none => simp
  | some w =>
      cases w with
      | inModule key => simp
      | inSlot other name' =>
          obtain ⟨-, rfl, rfl⟩ := reservation_eq_inSlot_iff.1 hw
          simp [and_comm]

theorem mem_takenNames (h : t.isTaken top reserved id place name = true) :
    name ∈ t.takenNames reserved place := by
  obtain ⟨w, hw, hres | ⟨hconflict, -⟩⟩ := isTaken_iff.1 h
  · have hmem := List.mem_map_of_mem (f := Reservation.name) hres
    rw [name_of_reservation hw] at hmem
    exact List.mem_append_left _ (List.mem_append_left _ hmem)
  · simp only [nameConflicts] at hconflict
    split at hconflict
    · simp at hconflict
    · obtain ⟨sibling, hsibling, hname⟩ := List.any_eq_true.1 hconflict
      simp only [Bool.and_eq_true, decide_eq_true_eq] at hname
      exact List.mem_append_right _ (List.mem_filterMap.2 ⟨sibling, hsibling, hname.2⟩)
    · obtain ⟨other, hother, -⟩ := (Option.any_eq_true _ _).1 hconflict
      obtain ⟨key, hkey, hget⟩ := Option.bind_eq_some_iff.1 hother
      obtain ⟨-, e, -, -, hname⟩ := nameKey_eq_some_iff.1 hkey
      obtain ⟨entry, hentry, -⟩ := Option.map_eq_some_iff.1 hget
      have hfound : entry.1 = key := by simpa using List.find?_some hentry
      refine List.mem_append_left _ (List.mem_append_right _ (List.mem_map.2 ?_))
      exact ⟨entry, List.mem_of_find?_eq_some hentry, by rw [hfound, hname]⟩

/-- Of one more numbers than can be taken, one makes a name free. -/
theorem exists_not_isTaken (t : Tree) (top : ElementId) (reserved : List Reservation)
    (id : ElementId) (place : Place) (name : String) :
    ∃ n ∈ List.range' 1 (t.takenBound reserved place + 1),
      t.isTaken top reserved id place (name ++ toString n) = false := by
  by_contra hall
  have htaken : ∀ n ∈ List.range' 1 (t.takenBound reserved place + 1),
      t.isTaken top reserved id place (name ++ toString n) = true := by
    intro n hn
    by_contra hfree
    exact hall ⟨n, hn, by simpa using hfree⟩
  -- more numbered names than there are taken ones cannot all be taken
  have hnd : ((List.range' 1 (t.takenBound reserved place + 1)).map
      fun n => name ++ toString n).Nodup :=
    (List.nodup_range' (h := by omega)).map (numbered_injective name)
  have hsub : (List.range' 1 (t.takenBound reserved place + 1)).map
      (fun n => name ++ toString n) ⊆ t.takenNames reserved place := by
    intro s hs
    obtain ⟨n, hn, rfl⟩ := List.mem_map.1 hs
    exact mem_takenNames (htaken n hn)
  have hle := (hnd.subperm hsub).length_le
  have hbound := length_takenNames_le t reserved place
  rw [List.length_map, List.length_range'] at hle
  omega

/-- A number that makes a name free is found, and all smaller ones leave the name taken. -/
theorem freeName_spec (t : Tree) (top : ElementId) (reserved : List Reservation)
    (id : ElementId) (place : Place) (name : String) :
    ∃ count, 1 ≤ count ∧ count ≤ t.takenBound reserved place + 1 ∧
      t.freeName top reserved id place name = name ++ toString count ∧
      t.isTaken top reserved id place (name ++ toString count) = false ∧
      ∀ n, 1 ≤ n → n < count →
        t.isTaken top reserved id place (name ++ toString n) = true := by
  obtain ⟨n, hn, hfree⟩ := exists_not_isTaken t top reserved id place name
  cases hfind : (List.range' 1 (t.takenBound reserved place + 1)).find? fun count =>
      !t.isTaken top reserved id place (name ++ toString count) with
  | none =>
      have hnone := List.find?_eq_none.1 hfind n hn
      rw [hfree] at hnone
      exact absurd rfl hnone
  | some count =>
      obtain ⟨hcount, hmem, hleast⟩ := List.find?_range'_eq_some.1 hfind
      obtain ⟨hpos, hbound⟩ := List.mem_range'_1.1 hmem
      refine ⟨count, hpos, by omega, ?_, by simpa using hcount, fun n hn hlt => ?_⟩
      · simp only [freeName, hfind, Option.getD_some]
      · simpa using hleast n hn hlt

theorem isTaken_freeName (t : Tree) (top : ElementId) (reserved : List Reservation)
    (id : ElementId) (place : Place) (name : String) :
    t.isTaken top reserved id place (t.freeName top reserved id place name) = false := by
  obtain ⟨count, -, -, hcount, hfree, -⟩ := freeName_spec t top reserved id place name
  rw [hcount]
  exact hfree

theorem neededName_spec (t : Tree) (top : ElementId) (reserved : List Reservation)
    (id : ElementId) (place : Place) (e : Element) :
    (∀ name, (t.neededName top reserved id place e <|> e.name) = some name →
      t.isTaken top reserved id place name = false) ∧
    (t.dictionary.nameRequired e.typeName = true →
      (t.neededName top reserved id place e <|> e.name) ≠ none) := by
  cases hname : e.name with
  | some own =>
      simp only [neededName, hname]
      split
      · refine ⟨fun name h => ?_, fun _ => by simp⟩
        obtain rfl : _ = name := by simpa using h
        exact isTaken_freeName ..
      · next hfree =>
        refine ⟨fun name h => ?_, fun _ => by simp⟩
        obtain rfl : own = name := by simpa using h
        simpa using hfree
  | none =>
      simp only [neededName, hname]
      split
      · refine ⟨fun name h => ?_, fun _ => by simp⟩
        obtain rfl : _ = name := by simpa using h
        exact isTaken_freeName ..
      · next hreq => exact ⟨fun name h => by simp at h, fun h => absurd h hreq⟩

def plannedName (plan : List Rename) (id : ElementId) (e : Element) : Option String :=
  ((plan.find? (·.element = id)).map (·.new)) <|> e.name

/-- The place of an element once the top of its subtree is in a target. -/
def settled (top : ElementId) (target : Place) (id : ElementId) (e : Element) : Option Place :=
  if id = top then some target else e.place

/-- What an element claims after a plan and once the top of its subtree is in a target. -/
def plannedClaim (t : Tree) (top : ElementId) (target : Place) (plan : List Rename)
    (id : ElementId) : Option Reservation :=
  (t.get? id).bind fun e => (plannedName plan id e).bind fun name =>
    (settled top target id e).bind fun place => t.reservation id place name

theorem plannedClaim_eq_some_iff {plan : List Rename} :
    t.plannedClaim top target plan x = some w ↔ ∃ e name place, t.get? x = some e ∧
      plannedName plan x e = some name ∧ settled top target x e = some place ∧
      t.reservation x place name = some w := by
  simp only [plannedClaim, Option.bind_eq_some_iff]
  constructor
  · intro h
    obtain ⟨e, he, name, hname, place, hplace, h⟩ := h
    exact ⟨e, name, place, he, hname, hplace, h⟩
  · intro h
    obtain ⟨e, name, place, he, hname, hplace, h⟩ := h
    exact ⟨e, he, name, hname, place, hplace, h⟩

/-- A plan for some members, given the names reserved for others. -/
structure Plans (t : Tree) (top : ElementId) (target : Place) (reserved : List Reservation)
    (members : List ElementId) (plan : List Rename) : Prop where
  sublist : (plan.map (·.element)).Sublist members
  old : ∀ r ∈ plan, ∃ e, t.get? r.element = some e ∧ e.name = r.old
  free : ∀ {x e name place}, x ∈ members → t.get? x = some e → plannedName plan x e = some name →
    settled top target x e = some place → t.isTaken top reserved x place name = false
  apart : ∀ {x y w}, x ∈ members → y ∈ members → t.plannedClaim top target plan x = some w →
    t.plannedClaim top target plan y = some w → x = y
  required : ∀ {x e}, x ∈ members → t.get? x = some e →
    t.dictionary.nameRequired e.typeName = true → plannedName plan x e ≠ none

theorem find?_of_notMem {plan : List Rename} (h : id ∉ plan.map (·.element)) :
    plan.find? (·.element = id) = none :=
  List.find?_eq_none.2 fun r hr heq => h (List.mem_map.2 ⟨r, hr, of_decide_eq_true heq⟩)

theorem plannedName_of_notMem {plan : List Rename} (h : id ∉ plan.map (·.element)) (e : Element) :
    plannedName plan id e = e.name := by
  simp [plannedName, find?_of_notMem h]

theorem plannedName_cons_ne {plan : List Rename} {r : Rename} (h : r.element ≠ id) (e : Element) :
    plannedName (r :: plan) id e = plannedName plan id e := by
  simp [plannedName, h]

theorem isTaken_mono {reserved' : List Reservation} (hsub : reserved ⊆ reserved')
    (h : t.isTaken top reserved' id place name = false) :
    t.isTaken top reserved id place name = false := by
  rw [← Bool.not_eq_true, isTaken_iff] at h ⊢
  intro h
  rcases h with ⟨w, hw, hres | hconflict⟩
  · exact h ⟨w, hw, Or.inl (hsub hres)⟩
  · exact h ⟨w, hw, Or.inr hconflict⟩

/-! ### One more member in front -/

section cons

variable {plan : List Rename} {needed : Option String} {e : Element}

theorem find?_append_self (hnot : id ∉ plan.map (·.element)) (old : Option String) :
    (((needed.map (Rename.mk id old)).toList ++ plan).find? (·.element = id)).map (·.new) =
      needed := by
  cases needed with
  | none => simp [find?_of_notMem hnot]
  | some new => simp

theorem find?_append_ne (h : x ≠ id) (old : Option String) :
    ((needed.map (Rename.mk id old)).toList ++ plan).find? (·.element = x) =
      plan.find? (·.element = x) := by
  cases needed with
  | none => rfl
  | some new => simp [Ne.symm h]

theorem plannedName_append_self (hnot : id ∉ plan.map (·.element)) :
    plannedName ((needed.map (Rename.mk id e.name)).toList ++ plan) id e =
      (needed <|> e.name) := by
  rw [plannedName, find?_append_self hnot]

theorem plannedName_append_ne (h : x ≠ id) (old : Option String) (e' : Element) :
    plannedName ((needed.map (Rename.mk id old)).toList ++ plan) x e' = plannedName plan x e' := by
  rw [plannedName, find?_append_ne h, plannedName]

theorem plannedClaim_append_self (hnot : id ∉ plan.map (·.element)) (he : t.get? id = some e)
    (hplace : settled top target id e = some place) :
    t.plannedClaim top target ((needed.map (Rename.mk id e.name)).toList ++ plan) id =
      (needed <|> e.name).bind (t.reservation id place) := by
  simp only [plannedClaim, he, Option.bind_some, plannedName_append_self hnot, hplace]

theorem plannedClaim_append_ne (h : x ≠ id) (old : Option String) :
    t.plannedClaim top target ((needed.map (Rename.mk id old)).toList ++ plan) x =
      t.plannedClaim top target plan x := by
  simp only [plannedClaim, plannedName_append_ne h]

end cons

theorem Plans.cons {members : List ElementId} {plan : List Rename} {e : Element}
    (hnot : id ∉ members) (he : t.get? id = some e) (hplace : settled top target id e = some place)
    (h : t.Plans top target (((t.neededName top reserved id place e <|> e.name).bind
      (t.reservation id place)).toList ++ reserved) members plan) :
    t.Plans top target reserved (id :: members)
      (((t.neededName top reserved id place e).map (⟨id, e.name, ·⟩)).toList ++ plan) := by
  obtain ⟨hfree, hrequired⟩ := neededName_spec t top reserved id place e
  generalize t.neededName top reserved id place e = needed at *
  have hnotplan : id ∉ plan.map (·.element) := fun hid => hnot (h.sublist.subset hid)
  have hne : ∀ {x}, x ∈ members → x ≠ id := fun hx heq => hnot (heq ▸ hx)
  have hself : plannedName ((needed.map (Rename.mk id e.name)).toList ++ plan) id e =
      (needed <|> e.name) := plannedName_append_self hnotplan
  have hrest : ∀ {x}, x ∈ members → ∀ e', plannedName ((needed.map
      (Rename.mk id e.name)).toList ++ plan) x e' = plannedName plan x e' := fun hx e' =>
    plannedName_append_ne (hne hx) e.name e'
  have hclaim : t.plannedClaim top target ((needed.map (Rename.mk id e.name)).toList ++ plan) id =
      (needed <|> e.name).bind (t.reservation id place) :=
    plannedClaim_append_self hnotplan he hplace
  have hclaimrest : ∀ {x}, x ∈ members → t.plannedClaim top target ((needed.map
      (Rename.mk id e.name)).toList ++ plan) x = t.plannedClaim top target plan x := fun hx =>
    plannedClaim_append_ne (hne hx) e.name
  -- what a later member claims is free of what this one has taken away
  have hapart : ∀ {x w}, x ∈ members → t.plannedClaim top target plan x = some w →
      (needed <|> e.name).bind (t.reservation id place) ≠ some w := by
    intro x w hx hw heq
    obtain ⟨e', name, p, he', hname, hp, hres⟩ := plannedClaim_eq_some_iff.1 hw
    have htaken := h.free hx he' hname hp
    rw [← Bool.not_eq_true, isTaken_iff] at htaken
    exact htaken ⟨w, hres, Or.inl (List.mem_append_left _ (Option.mem_toList.2 heq))⟩
  refine ⟨?_, ?_, ?_, ?_, ?_⟩
  · cases needed with
    | none => exact h.sublist.cons id
    | some new => exact h.sublist.cons_cons id
  · intro r hr
    rcases List.mem_append.1 hr with hr | hr
    · obtain ⟨new, -, rfl⟩ := Option.map_eq_some_iff.1 (Option.mem_toList.1 hr)
      exact ⟨e, he, rfl⟩
    · exact h.old r hr
  · intro x e' name p hx he' hname hp
    rcases List.mem_cons.1 hx with rfl | hx
    · obtain rfl := Option.some.inj (he.symm.trans he')
      obtain rfl := Option.some.inj (hplace.symm.trans hp)
      exact hfree name (hself ▸ hname)
    · rw [hrest hx] at hname
      exact isTaken_mono (List.subset_append_right _ _) (h.free hx he' hname hp)
  · intro x y w hx hy hcx hcy
    rcases List.mem_cons.1 hx with rfl | hxm <;> rcases List.mem_cons.1 hy with rfl | hym
    · rfl
    · rw [hclaim] at hcx
      rw [hclaimrest hym] at hcy
      exact absurd hcx (hapart hym hcy)
    · rw [hclaimrest hxm] at hcx
      rw [hclaim] at hcy
      exact absurd hcy (hapart hxm hcx)
    · rw [hclaimrest hxm] at hcx
      rw [hclaimrest hym] at hcy
      exact h.apart hxm hym hcx hcy
  · intro x e' hx he' hreq
    rcases List.mem_cons.1 hx with rfl | hx
    · obtain rfl := Option.some.inj (he.symm.trans he')
      rw [hself]
      exact hrequired hreq
    · rw [hrest hx]
      exact h.required hx he' hreq

theorem planMembers_cons {e : Element} {rest : List ElementId} (he : t.get? id = some e)
    (hplace : settled top target id e = some place) :
    t.planMembers top target reserved (id :: rest) =
      ((t.neededName top reserved id place e).map (Rename.mk id e.name)).toList ++
        t.planMembers top target (((t.neededName top reserved id place e <|> e.name).bind
          (t.reservation id place)).toList ++ reserved) rest := by
  have hsettled : (if id = top then some target else e.place) = some place := hplace
  simp only [planMembers, he, hsettled]
  generalize t.neededName top reserved id place e = needed
  generalize (needed <|> e.name).bind (t.reservation id place) = new
  cases needed <;> cases new <;> rfl

theorem plans_planMembers (t : Tree) (top : ElementId) (target : Place)
    (reserved : List Reservation) {members : List ElementId} (hnd : members.Nodup)
    (hplaced : ∀ x ∈ members, ∃ e p, t.get? x = some e ∧ settled top target x e = some p) :
    t.Plans top target reserved members (t.planMembers top target reserved members) := by
  induction members generalizing reserved with
  | nil =>
      refine ⟨List.Sublist.refl _, ?_, ?_, ?_, ?_⟩ <;> simp [planMembers]
  | cons id rest ih =>
      obtain ⟨hnot, hnd⟩ := List.nodup_cons.1 hnd
      obtain ⟨e, p, he, hp⟩ := hplaced id List.mem_cons_self
      have hrest := fun reserved =>
        ih reserved hnd fun x hx => hplaced x (List.mem_cons_of_mem _ hx)
      rw [planMembers_cons he hp]
      exact Plans.cons hnot he hp (hrest _)

theorem CanLink.sameLinks (h : t.CanLink id place index) (hf : t.Forest)
    (hlinks : SameLinks t t') : t'.CanLink id place index where
  accepts := by
    obtain ⟨e, host, definition, he, hplace, hhost, hdef, hallowed, hroom⟩ := h.accepts
    obtain ⟨e', he', htype, hplace', -⟩ := hlinks.symm.get?_eq he
    obtain ⟨host', hhost', htype', -⟩ := hlinks.symm.get?_eq hhost
    refine ⟨e', host', definition, he', hplace'.trans hplace, hhost', ?_, ?_, fun hmul => ?_⟩
    · rw [hlinks.dictionary, htype', hdef]
    · rw [hlinks.dictionary, htype]
      exact hallowed
    · rw [hlinks.contents_eq]
      exact hroom hmul
  not_root := hlinks.root ▸ h.not_root
  outside := by
    rw [hlinks.isWithin_eq hf]
    exact h.outside
  index_le := by
    rw [hlinks.contents_eq]
    exact h.index_le

theorem CanLink.not_isAttached_of_mem_walk (h : t.CanLink id place index) (hf : t.Forest)
    (hx : x ∈ t.walk id) : ¬ t.isAttached x = true := by
  rw [hf.isAttached_of_mem_walk hx]
  exact h.not_isAttached hf

theorem Forest.exists_settled (hf : t.Forest) (target : Place) (hx : x ∈ t.walk top) :
    ∃ e p, t.get? x = some e ∧ settled top target x e = some p := by
  obtain ⟨hlive, hw⟩ := hf.mem_walk.1 hx
  obtain ⟨e, he⟩ := contains_iff.1 hlive
  by_cases htop : x = top
  · exact ⟨e, target, he, if_pos htop⟩
  · cases hp : e.place with
    | some p => exact ⟨e, p, he, (if_neg htop).trans hp⟩
    | none =>
        have hparent : t.parent x = none := by simp [parent, he, hp]
        exact absurd ((hf.isWithin_of_top hparent).1 hw) htop

theorem plans_planNames (hf : t.Forest) (top : ElementId) (target : Place) :
    t.Plans top target [] (t.walk top) (t.planNames top target) :=
  plans_planMembers t top target [] (hf.nodup_walk top) fun _ hx => hf.exists_settled target hx

section planned

variable {plan : List Rename}

/-- In a slot, only the top of a subtree may want what an attached element has. -/
theorem CanLink.eq_top_of_claim {other : Place} {name : String} {e : Element}
    (hc : t.CanLink top target index) (hf : t.Forest) (hx : t.isAttached x = true)
    (hcx : t.claim x = some (.inSlot other name)) (hy : y ∈ t.walk top) (he : t.get? y = some e)
    (hp : settled top target y e = some other) : y = top := by
  by_contra htop
  -- a member further in stands in another member, which is detached
  obtain ⟨e', name', p, he', -, hp', hres⟩ := claim_eq_some_iff.1 hcx
  obtain ⟨-, rfl, -⟩ := reservation_eq_inSlot_iff.1 hres
  have hplace : e.place = some p := (if_neg htop).symm.trans hp
  have hparent := parent_eq_some_iff.2 ⟨e', p, he', hp', rfl⟩
  have hparent' := parent_eq_some_iff.2 ⟨e, p, he, hplace, rfl⟩
  exact hc.not_isAttached_of_mem_walk hf hy
    ((hf.isAttached_of_parent hparent').2 ((hf.isAttached_of_parent hparent).1 hx))

theorem Plans.claim_ne_plannedClaim (hplan : t.Plans top target [] (t.walk top) plan)
    (hwf : t.WellFormed) (hc : t.CanLink top target index) (hx : t.isAttached x = true)
    (hy : y ∈ t.walk top) (hcx : t.claim x = some w) :
    t.plannedClaim top target plan y ≠ some w := by
  intro hcy
  have hf := hwf.forest
  have hxy : x ≠ y := fun heq => hc.not_isAttached_of_mem_walk hf hy (heq ▸ hx)
  obtain ⟨e, name, p, he, hname, hp, hres⟩ := plannedClaim_eq_some_iff.1 hcy
  have hfree := hplan.free hy he hname hp
  rw [← Bool.not_eq_true, isTaken_iff] at hfree
  refine hfree ⟨w, hres, Or.inr ⟨hwf.nameConflicts_of_claim hx hcx hxy hres, fun hw => ?_⟩⟩
  exact hc.eq_top_of_claim hf hx (hw ▸ hcx) hy he hp

theorem CanLink.isAttached_sameLinks_link (hc : t.CanLink top target index) (hf : t.Forest)
    (hlinks : SameLinks t t') (hat : t.isAttached target.container = true) :
    (t'.link top target index).isAttached x = true ↔
      t.isAttached x = true ∨ x ∈ t.walk top := by
  rw [(hc.sameLinks hf hlinks).isAttached_link (hlinks.forest hf), hlinks.isAttached_eq hf,
    hlinks.isAttached_eq hf, (hlinks.forest hf).mem_walk, hf.mem_walk, hlinks.contains_eq,
    hlinks.isWithin_eq hf]
  simp [hat]

theorem SameLinks.reservation_link (hlinks : SameLinks t t') (x : ElementId) (place : Place)
    (name : String) : (t'.link top target index).reservation x place name =
      t.reservation x place name := by
  have hdictionary : (t'.link top target index).dictionary = t.dictionary := hlinks.dictionary
  refine reservation_congr hdictionary ?_ ?_ name
  · have htypes := congrArg (Option.map Prod.fst) (hlinks.links x)
    simpa [link, get?_relink, relinked, Function.comp_def] using htypes
  · exact (slotScope_relink ..).trans (hlinks.slotScope_eq ..)

theorem Plans.plannedName_of_isAttached (hplan : t.Plans top target [] (t.walk top) plan)
    (hf : t.Forest) (hc : t.CanLink top target index) (hx : t.isAttached x = true) (e : Element) :
    plannedName plan x e = e.name :=
  plannedName_of_notMem (fun hmem =>
    hc.not_isAttached_of_mem_walk hf (hplan.sublist.subset hmem) hx) e

theorem Plans.plannedClaim_of_isAttached (hplan : t.Plans top target [] (t.walk top) plan)
    (hf : t.Forest) (hc : t.CanLink top target index) (hx : t.isAttached x = true) :
    t.plannedClaim top target plan x = t.claim x := by
  have hne : x ≠ top := fun heq => hc.not_isAttached hf (heq ▸ hx)
  obtain ⟨e, he⟩ := contains_iff.1 (Forest.contained_of_isAttached hx)
  simp only [plannedClaim, claim, he, Option.bind_some, hplan.plannedName_of_isAttached hf hc hx,
    settled, if_neg hne]

variable (hlinks : SameLinks t t') (hnames : ∀ {x e}, t.get? x = some e →
  ∃ e', t'.get? x = some e' ∧ e'.name = plannedName plan x e)

include hlinks hnames

theorem SameLinks.name_link {e' : Element} (he' : (t'.link top target index).get? x = some e') :
    ∃ e, t.get? x = some e ∧ e'.typeName = e.typeName ∧ e'.name = plannedName plan x e ∧
      e'.place = settled top target x e := by
  rw [link, get?_relink] at he'
  obtain ⟨e₁, he₁, rfl⟩ := Option.map_eq_some_iff.1 he'
  obtain ⟨e, he, htype, hplace, -⟩ := hlinks.get?_eq he₁
  obtain ⟨e₂, he₂, hname⟩ := hnames he
  obtain rfl := Option.some.inj (he₁.symm.trans he₂)
  refine ⟨e, he, htype.symm, hname, ?_⟩
  simp only [relinked, settled, hplace]

theorem SameLinks.exists_get?_link (top : ElementId) (target : Place) (index : Nat) {e : Element}
    (he : t.get? x = some e) : ∃ e', (t'.link top target index).get? x = some e' ∧
      e'.name = plannedName plan x e ∧ e'.place = settled top target x e := by
  obtain ⟨e₁, he₁, -⟩ := hnames he
  have he' : (t'.link top target index).get? x =
      some (relinked top target (insertAt index top) (some target) x e₁) :=
    (get?_relink ..).trans (congrArg _ he₁)
  obtain ⟨e₂, he₂, -, hname, hplace⟩ := hlinks.name_link hnames he'
  obtain rfl := Option.some.inj (he.symm.trans he₂)
  exact ⟨_, he', hname, hplace⟩

theorem SameLinks.claim_link (hx : t.contains x = true) :
    (t'.link top target index).claim x = t.plannedClaim top target plan x := by
  obtain ⟨e, he⟩ := contains_iff.1 hx
  obtain ⟨e', he', hname, hplace⟩ := hlinks.exists_get?_link hnames top target index he
  simp only [claim, plannedClaim, he, he', Option.bind_some, hname, hplace,
    hlinks.reservation_link]

theorem Plans.named_link (hplan : t.Plans top target [] (t.walk top) plan)
    (hwf : t.WellFormed) (hc : t.CanLink top target index)
    (hat : t.isAttached target.container = true) :
    (t'.link top target index).Named := by
  have hf := hwf.forest
  have hattached := fun x => hc.isAttached_sameLinks_link (x := x) hf hlinks hat
  have hlive : ∀ {x}, t.isAttached x = true ∨ x ∈ t.walk top → t.contains x = true := by
    rintro x (hx | hx)
    · exact Forest.contained_of_isAttached hx
    · exact (hf.mem_walk.1 hx).1
  have hclaim : ∀ {x}, t.contains x = true →
      (t'.link top target index).claim x = t.plannedClaim top target plan x := fun hx =>
    hlinks.claim_link hnames hx
  have hkept : ∀ {x}, t.isAttached x = true →
      t.plannedClaim top target plan x = t.claim x := fun hx =>
    hplan.plannedClaim_of_isAttached hf hc hx
  constructor
  · intro x y w hx hy hcx hcy
    rw [hattached] at hx hy
    rw [hclaim (hlive hx)] at hcx
    rw [hclaim (hlive hy)] at hcy
    -- what was attached claims what it did, and the plan keeps the members away from that
    rcases hx with hx | hx <;> rcases hy with hy | hy
    · rw [hkept hx] at hcx
      rw [hkept hy] at hcy
      exact hwf.named.unique hx hy hcx hcy
    · rw [hkept hx] at hcx
      exact absurd hcy (hplan.claim_ne_plannedClaim hwf hc hx hy hcx)
    · rw [hkept hy] at hcy
      exact absurd hcx (hplan.claim_ne_plannedClaim hwf hc hy hx hcy)
    · exact hplan.apart hx hy hcx hcy
  · intro x e' hx hroot he' hreq
    have hroot' : x ≠ t.root := fun heq => hroot (heq.trans hlinks.root.symm)
    obtain ⟨e, he, htype, hname, -⟩ := hlinks.name_link hnames he'
    have hreq' : t.dictionary.nameRequired e.typeName = true := by
      rw [← htype, ← hlinks.dictionary]
      exact hreq
    rw [hname]
    rcases (hattached x).1 hx with hx | hx
    · rw [hplan.plannedName_of_isAttached hf hc hx]
      exact hwf.named.required hx hroot' he hreq'
    · exact hplan.required hx he hreq'

end planned

end Tree

end ReportModel
