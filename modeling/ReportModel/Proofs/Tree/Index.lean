import ReportModel.Proofs.Tree.Growth
import ReportModel.Tree.Naming

/-!
# The name index

In a well-formed tree no two attached elements claim the same name in the same scope, and the index
holds exactly the names claimed in the scope of the module. The index is then determined by the
elements, and attaching, detaching and renaming keep it so.
-/

namespace ReportModel.Tree

variable {t t' : Tree} {id x y : ElementId} {place : Place} {index : Nat} {key : NameKey}

/-- The name that an element takes away from others where it is. -/
def claim (t : Tree) (id : ElementId) : Option Reservation :=
  (t.get? id).bind fun e =>
    e.name.bind fun name => e.place.bind fun place => t.reservation id place name

theorem claim_eq_some_iff {w : Reservation} : t.claim x = some w ↔
    ∃ e name place, t.get? x = some e ∧ e.name = some name ∧ e.place = some place ∧
      t.reservation x place name = some w := by
  simp only [claim, Option.bind_eq_some_iff]
  constructor
  · intro h
    obtain ⟨e, he, name, hname, place, hplace, h⟩ := h
    exact ⟨e, name, place, he, hname, hplace, h⟩
  · intro h
    obtain ⟨e, name, place, he, hname, hplace, h⟩ := h
    exact ⟨e, he, name, hname, place, hplace, h⟩

theorem nameKey_eq_some_iff {name : String} : t.nameKey x place name = some key ↔
    t.slotScope place.container place.slot = .module ∧ ∃ e, t.get? x = some e ∧
      t.dictionary.nameSpace e.typeName = some key.space ∧ key.name = name := by
  simp only [nameKey]
  split
  · next hscope =>
    simp only [Option.bind_eq_some_iff, Option.map_eq_some_iff, hscope, true_and]
    constructor
    · intro h
      obtain ⟨e, he, space, hspace, rfl⟩ := h
      exact ⟨e, he, hspace, rfl⟩
    · intro h
      obtain ⟨e, he, hspace, rfl⟩ := h
      exact ⟨e, he, key.space, hspace, rfl⟩
  · next hscope => simp [hscope]

theorem reservation_eq_inModule_iff {name : String} :
    t.reservation x place name = some (.inModule key) ↔ t.nameKey x place name = some key := by
  simp only [reservation]
  split
  · next hscope => simp [nameKey, hscope]
  · next hscope => simp [nameKey, hscope]
  · simp

theorem reservation_eq_inSlot_iff {other : Place} {name name' : String} :
    t.reservation x place name = some (.inSlot other name') ↔
      t.slotScope place.container place.slot = .slot ∧ place = other ∧ name = name' := by
  simp only [reservation]
  split
  · next hscope => simp [hscope]
  · next hscope => simp [hscope]
  · next hscope => simp [hscope]

theorem indexKey_eq_some_iff : t.indexKey x = some key ↔ t.claim x = some (.inModule key) := by
  simp only [claim_eq_some_iff, indexKey, Option.bind_eq_some_iff, reservation_eq_inModule_iff]
  constructor
  · intro h
    obtain ⟨e, he, name, hname, place, hplace, h⟩ := h
    exact ⟨e, name, place, he, hname, hplace, h⟩
  · intro h
    obtain ⟨e, name, place, he, hname, hplace, h⟩ := h
    exact ⟨e, he, name, hname, place, hplace, h⟩

theorem reservation_congr (hdictionary : t'.dictionary = t.dictionary)
    (htype : (t'.get? x).map (·.typeName) = (t.get? x).map (·.typeName))
    (hscope : t'.slotScope place.container place.slot = t.slotScope place.container place.slot)
    (name : String) : t'.reservation x place name = t.reservation x place name := by
  have hkey : t'.nameKey x place name = t.nameKey x place name := by
    simp only [nameKey, hscope, hdictionary]
    have h := congrArg (fun o => o.bind fun type =>
      (t.dictionary.nameSpace type).map fun space => NameKey.mk space name) htype
    simp only [Option.bind_map] at h
    split
    · exact h
    · rfl
  simp only [reservation, hscope, hkey]

theorem claim_congr {e e' : Element} (hdictionary : t'.dictionary = t.dictionary)
    (he : t.get? x = some e) (he' : t'.get? x = some e') (htype : e'.typeName = e.typeName)
    (hname : e'.name = e.name) (hplace : e'.place = e.place)
    (hscope : ∀ p, e.place = some p →
      t'.slotScope p.container p.slot = t.slotScope p.container p.slot) :
    t'.claim x = t.claim x := by
  simp only [claim, he, he', Option.bind_some, hname, hplace]
  cases e.name with
  | none => rfl
  | some name =>
      cases hp : e.place with
      | none => rfl
      | some p =>
          exact reservation_congr hdictionary (by simp [he, he', htype]) (hscope p hp) name

@[simp]
theorem claim_withNames (names : SortedMap NameKey ElementId) :
    (t.withNames names).claim x = t.claim x := rfl

/-- No two attached elements claim the same, and none lacks a name it needs. -/
structure Named (t : Tree) : Prop where
  unique : ∀ {x y w}, t.isAttached x = true → t.isAttached y = true → t.claim x = some w →
    t.claim y = some w → x = y
  required : ∀ {x e}, t.isAttached x = true → x ≠ t.root → t.get? x = some e →
    t.dictionary.nameRequired e.typeName = true → e.name ≠ none

/-- The index holds what attached elements claim in the module, and nothing else. -/
def Indexed (t : Tree) : Prop :=
  ∀ key x, t.names.get? key = some x ↔ t.isAttached x = true ∧ t.claim x = some (.inModule key)

/-- Containment is a forest, names differ where they must, and the index is exact. -/
structure WellFormed (t : Tree) : Prop where
  forest : t.Forest
  named : t.Named
  indexed : t.Indexed

/-- The index of a well-formed tree is determined by the elements. -/
theorem WellFormed.eq_withNames (h : t.WellFormed) {names : SortedMap NameKey ElementId}
    (h' : (t.withNames names).WellFormed) : t.withNames names = t := by
  have hnames : names = t.names := by
    apply SortedMap.eq_of_get?
    intro key
    apply Option.ext
    intro x
    have hx := h'.indexed key x
    simp only [withNames_names, isAttached_withNames, claim_withNames] at hx
    rw [h.indexed key x, hx]
  rw [hnames]
  rfl

theorem Named.withNames (h : t.Named) (names : SortedMap NameKey ElementId) :
    (t.withNames names).Named where
  unique hx hy := by
    rw [isAttached_withNames] at hx hy
    exact h.unique hx hy
  required hx hne := by
    rw [isAttached_withNames] at hx
    exact h.required hx hne

theorem Forest.withNames (h : t.Forest) (names : SortedMap NameKey ElementId) :
    (t.withNames names).Forest :=
  have hlinks : SameLinks t (t.withNames names) := ⟨rfl, rfl, fun _ => rfl⟩
  hlinks.forest h

/-- Names stay different if nothing is attached that was not, and attached elements keep their names
and places. -/
theorem Named.of_le (h : t.Named) (hdictionary : t'.dictionary = t.dictionary)
    (hroot : t'.root = t.root) (hattached : ∀ x, t'.isAttached x = true → t.isAttached x = true)
    (hsame : ∀ {x e'}, t'.isAttached x = true → t'.get? x = some e' → ∃ e, t.get? x = some e ∧
      e'.typeName = e.typeName ∧ e'.name = e.name)
    (hclaim : ∀ x, t'.isAttached x = true → t'.claim x = t.claim x) : t'.Named where
  unique hx hy hcx hcy := by
    rw [hclaim _ hx] at hcx
    rw [hclaim _ hy] at hcy
    exact h.unique (hattached _ hx) (hattached _ hy) hcx hcy
  required hx hne he hreq := by
    obtain ⟨e, he₁, htype, hname⟩ := hsame hx he
    rw [hname]
    exact h.required (hattached _ hx) (hroot ▸ hne) he₁ (htype ▸ hdictionary ▸ hreq)

section folds

theorem strike_eq (t : Tree) (a : ElementId) : ∃ names, t.strike a = t.withNames names ∧
    ∀ key x, names.get? key = some x ↔
      t.names.get? key = some x ∧ ¬ (x = a ∧ t.claim a = some (.inModule key)) := by
  simp only [strike]
  cases hk : t.indexKey a with
  | none =>
      refine ⟨t.names, rfl, fun key x => ?_⟩
      simp [← indexKey_eq_some_iff, hk]
  | some k =>
      by_cases hown : t.names.get? k = some a
      · refine ⟨t.names.erase k, by simp [hown, withNames], fun key x => ?_⟩
        rw [SortedMap.get?_erase, ← indexKey_eq_some_iff, hk]
        by_cases hkey : k = key
        · subst hkey
          simp only [if_true, Option.some.injEq, reduceCtorEq, false_iff, not_and, hown]
          intro heq
          subst heq
          simp
        · simp [hkey]
      · refine ⟨t.names, by simp [hown, withNames], fun key x => ?_⟩
        rw [← indexKey_eq_some_iff, hk]
        refine ⟨fun hx => ⟨hx, ?_⟩, And.left⟩
        intro h
        obtain ⟨rfl, hkey⟩ := h
        exact hown (Option.some.inj hkey ▸ hx)

theorem foldl_strike_eq (t : Tree) (l : List ElementId) : ∃ names,
    l.foldl strike t = t.withNames names ∧ ∀ key x, names.get? key = some x ↔
      t.names.get? key = some x ∧ ¬ (x ∈ l ∧ t.claim x = some (.inModule key)) := by
  induction l generalizing t with
  | nil => exact ⟨t.names, rfl, by simp⟩
  | cons a l ih =>
      obtain ⟨first, hfirst, hget⟩ := strike_eq t a
      obtain ⟨names, hnames, hget'⟩ := ih (t.withNames first)
      refine ⟨names, by rw [List.foldl_cons, hfirst, hnames]; rfl, fun key x => ?_⟩
      rw [hget', withNames_names, hget, claim_withNames, List.mem_cons]
      by_cases hx : x = a
      · subst hx
        tauto
      · tauto

theorem enter_eq (t : Tree) (a : ElementId) : ∃ names, t.enter a = t.withNames names ∧
    ∀ key x, names.get? key = some x ↔ (x = a ∧ t.claim a = some (.inModule key)) ∨
      (t.names.get? key = some x ∧ ¬ t.claim a = some (.inModule key)) := by
  simp only [enter]
  cases hk : t.indexKey a with
  | none =>
      refine ⟨t.names, rfl, fun key x => ?_⟩
      simp [← indexKey_eq_some_iff, hk]
  | some k =>
      refine ⟨t.names.insert k a, rfl, fun key x => ?_⟩
      rw [SortedMap.get?_insert, ← indexKey_eq_some_iff, hk]
      by_cases hkey : k = key
      · simp [hkey, eq_comm]
      · simp [hkey]

theorem foldl_enter_eq (t : Tree) (l : List ElementId)
    (huniq : ∀ x ∈ l, ∀ y ∈ l, ∀ w, t.claim x = some w → t.claim y = some w → x = y) :
    ∃ names, l.foldl enter t = t.withNames names ∧ ∀ key x, names.get? key = some x ↔
      (x ∈ l ∧ t.claim x = some (.inModule key)) ∨
        (t.names.get? key = some x ∧ ∀ y ∈ l, ¬ t.claim y = some (.inModule key)) := by
  induction l generalizing t with
  | nil => exact ⟨t.names, rfl, by simp⟩
  | cons a l ih =>
      obtain ⟨first, hfirst, hget⟩ := enter_eq t a
      obtain ⟨names, hnames, hget'⟩ := ih (t.withNames first) fun x hx y hy =>
        huniq x (List.mem_cons_of_mem _ hx) y (List.mem_cons_of_mem _ hy)
      refine ⟨names, by rw [List.foldl_cons, hfirst, hnames]; rfl, fun key x => ?_⟩
      rw [hget', withNames_names, hget]
      simp only [claim_withNames, List.mem_cons, forall_eq_or_imp]
      constructor
      · intro h
        rcases h with ⟨hx, hc⟩ | ⟨⟨rfl, hc⟩ | ⟨hold, hna⟩, hnl⟩
        · exact Or.inl ⟨Or.inr hx, hc⟩
        · exact Or.inl ⟨Or.inl rfl, hc⟩
        · exact Or.inr ⟨hold, hna, hnl⟩
      · intro h
        rcases h with ⟨rfl | hx, hc⟩ | ⟨hold, hna, hnl⟩
        · by_cases hx : x ∈ l
          · exact Or.inl ⟨hx, hc⟩
          · refine Or.inr ⟨Or.inl ⟨rfl, hc⟩, fun y hy hcy => hx ?_⟩
            have := huniq x List.mem_cons_self y (List.mem_cons_of_mem _ hy) _ hc hcy
            exact this ▸ hy
        · exact Or.inl ⟨hx, hc⟩
        · exact Or.inr ⟨Or.inr ⟨hold, hna⟩, hnl⟩

end folds

theorem WellFormed.modify (h : t.WellFormed) (id : ElementId) {f : Element → Element}
    (hf : ∀ e, (f e).typeName = e.typeName ∧ (f e).place = e.place ∧ (f e).slots = e.slots)
    (hname : ∀ e, (f e).name = e.name) : (t.modify id f).WellFormed := by
  have hlinks := sameLinks_modify t id hf
  have hget : ∀ {x e'}, (t.modify id f).get? x = some e' → ∃ e, t.get? x = some e ∧
      e'.typeName = e.typeName ∧ e'.name = e.name ∧ e'.place = e.place := by
    intro x e' he
    rw [get?_modify] at he
    split at he
    · next hx =>
      obtain ⟨e, he₁, rfl⟩ := Option.map_eq_some_iff.1 he
      exact ⟨e, hx ▸ he₁, (hf e).1, hname e, (hf e).2.1⟩
    · exact ⟨e', he, rfl, rfl, rfl⟩
  have hclaim : ∀ x, (t.modify id f).claim x = t.claim x := by
    intro x
    cases he : (t.modify id f).get? x with
    | none =>
        have hnone : t.get? x = none := by
          rw [get?_modify] at he
          split at he
          · next hx => rwa [Option.map_eq_none_iff, ← hx] at he
          · exact he
        simp [claim, he, hnone]
    | some e' =>
        obtain ⟨e, he₁, htype, hn, hplace⟩ := hget he
        exact claim_congr rfl he₁ he htype hn hplace fun p _ => hlinks.slotScope_eq ..
  refine ⟨hlinks.forest h.forest, ?_, fun key x => ?_⟩
  · refine h.named.of_le rfl rfl (fun x hx => ?_) (fun _ he => ?_) fun x _ => hclaim x
    · rwa [hlinks.isAttached_eq h.forest] at hx
    · obtain ⟨e, he₁, htype, hn, -⟩ := hget he
      exact ⟨e, he₁, htype, hn⟩
  · rw [hlinks.isAttached_eq h.forest, hclaim]
    exact h.indexed key x

end ReportModel.Tree
