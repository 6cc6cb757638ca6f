import ReportModel.Proofs.Arena
import ReportModel.Tree.Names

/-!
# The way up

The containers around an element as a derivation that follows the links from container to container
until there is none. Where every way up ends, the bounded searches of a tree are exact.
-/

namespace ReportModel.Tree

variable {t t' : Tree}

/-- The containers around an element, from the inside out, are those listed. -/
inductive Ascends (t : Tree) : ElementId → List ElementId → Prop
  | top {id : ElementId} (h : t.parent id = none) : t.Ascends id []
  | step {id p : ElementId} {l : List ElementId} (h : t.parent id = some p)
      (rest : t.Ascends p l) : t.Ascends id (p :: l)

namespace Ascends

variable {x y : ElementId} {l l' : List ElementId}

theorem unique (h : t.Ascends x l) (h' : t.Ascends x l') : l = l' := by
  induction h generalizing l' with
  | top hp =>
      cases h' with
      | top => rfl
      | step hp' => simp [hp] at hp'
  | step hp _ ih =>
      cases h' with
      | top hp' => simp [hp] at hp'
      | step hp' rest' =>
          obtain rfl : _ = _ := Option.some.inj (hp.symm.trans hp')
          rw [ih rest']

theorem ancestorsUpTo_eq (h : t.Ascends x l) {fuel : Nat} (hf : l.length ≤ fuel) :
    t.ancestorsUpTo fuel x = l := by
  induction h generalizing fuel with
  | top hp => cases fuel <;> simp [ancestorsUpTo, hp]
  | step hp _ ih =>
      cases fuel with
      | zero => simp at hf
      | succ fuel => simp [ancestorsUpTo, hp, ih (by simpa using hf)]

theorem getElem?_succ (h : t.Ascends x l) {k : Nat} (hk : (x :: l)[k]? = some y) :
    (x :: l)[k + 1]? = t.parent y := by
  induction h generalizing k with
  | top hp =>
      cases k with
      | zero => simp_all
      | succ k => simp at hk
  | step hp _ ih =>
      cases k with
      | zero => simp_all
      | succ k => simpa using ih (by simpa using hk)

theorem of_mem (h : t.Ascends x l) (hy : y ∈ l) :
    ∃ before after, l = before ++ y :: after ∧ t.Ascends y after := by
  induction h with
  | top => simp at hy
  | @step _ p l _ rest ih =>
      by_cases hyp : y = p
      · subst hyp
        exact ⟨[], l, rfl, rest⟩
      · obtain ⟨before, after, rfl, ha⟩ := ih ((List.mem_cons.1 hy).resolve_left hyp)
        exact ⟨p :: before, after, rfl, ha⟩

theorem nodup (h : t.Ascends x l) : (x :: l).Nodup := by
  induction h with
  | top => simp
  | @step x p l hp rest ih =>
      refine List.nodup_cons.2 ⟨fun hx => ?_, ih⟩
      obtain ⟨before, after, hsplit, ha⟩ := (Ascends.step hp rest).of_mem hx
      have hlen := congrArg List.length ((Ascends.step hp rest).unique ha)
      have := congrArg List.length hsplit
      simp only [List.length_cons, List.length_append] at hlen this
      omega

theorem congr (h : t.Ascends x l) (hp : ∀ y ∈ x :: l, t'.parent y = t.parent y) :
    t'.Ascends x l := by
  induction h with
  | top htop => exact .top (by rw [hp _ (by simp), htop])
  | step hup _ ih =>
      exact .step (by rw [hp _ (by simp), hup]) (ih fun y hy => hp y (List.mem_cons_of_mem _ hy))

end Ascends

def withNames (t : Tree) (names : SortedMap NameKey ElementId) : Tree :=
  { t with names := names }

section withNames

variable (t : Tree) (names : SortedMap NameKey ElementId)

@[simp]
theorem withNames_names : (t.withNames names).names = names := rfl

@[simp]
theorem contains_withNames (id : ElementId) : (t.withNames names).contains id = t.contains id := rfl

@[simp]
theorem parent_withNames (id : ElementId) : (t.withNames names).parent id = t.parent id := rfl

@[simp]
theorem contents_withNames (id : ElementId) (slot : String) :
    (t.withNames names).contents id slot = t.contents id slot := rfl

@[simp]
theorem ancestors_withNames (id : ElementId) :
    (t.withNames names).ancestors id = t.ancestors id := by
  have h : ∀ fuel id, (t.withNames names).ancestorsUpTo fuel id = t.ancestorsUpTo fuel id := by
    intro fuel
    induction fuel with
    | zero => intro; rfl
    | succ fuel ih =>
        intro id
        simp only [ancestorsUpTo, parent_withNames]
        cases t.parent id with
        | none => rfl
        | some p => exact congrArg (p :: ·) (ih p)
  exact h _ id

@[simp]
theorem isAttached_withNames (id : ElementId) :
    (t.withNames names).isAttached id = t.isAttached id := by
  simp only [isAttached, contains_withNames, ancestors_withNames]
  rfl

@[simp]
theorem isWithin_withNames (id outer : ElementId) :
    (t.withNames names).isWithin id outer = t.isWithin id outer := by
  simp only [isWithin, ancestors_withNames]

@[simp]
theorem walk_withNames (id : ElementId) : (t.withNames names).walk id = t.walk id := by
  have h : ∀ fuel id, (t.withNames names).walkUpTo fuel id = t.walkUpTo fuel id := by
    intro fuel
    induction fuel with
    | zero => intro; rfl
    | succ fuel ih =>
        intro id
        simp only [walkUpTo, contains_withNames, funext ih]
        rfl
  exact h _ id

end withNames

theorem get?_modify (t : Tree) (id other : ElementId) (f : Element → Element) :
    (t.modify id f).get? other = if other = id then (t.get? id).map f else t.get? other :=
  t.elements.get?_modify id other f

theorem contains_iff {id : ElementId} : t.contains id = true ↔ ∃ e, t.get? id = some e :=
  Arena.contains_iff

theorem contains_of_get? {id : ElementId} {e : Element} (h : t.get? id = some e) :
    t.contains id = true :=
  contains_iff.2 ⟨e, h⟩

@[simp]
theorem contains_modify (t : Tree) (id other : ElementId) (f : Element → Element) :
    (t.modify id f).contains other = t.contains other :=
  t.elements.contains_modify id other f

theorem parent_eq_some_iff {x p : ElementId} :
    t.parent x = some p ↔ ∃ e place, t.get? x = some e ∧ e.place = some place ∧
      place.container = p := by
  simp only [parent, Option.bind_eq_some_iff, Option.map_eq_some_iff]
  constructor
  · intro h
    obtain ⟨e, he, place, hplace, rfl⟩ := h
    exact ⟨e, place, he, hplace, rfl⟩
  · intro h
    obtain ⟨e, place, he, hplace, rfl⟩ := h
    exact ⟨e, he, place, hplace, rfl⟩

theorem contains_of_parent {x p : ElementId} (h : t.parent x = some p) : t.contains x = true := by
  obtain ⟨e, -, he, -⟩ := parent_eq_some_iff.1 h
  exact contains_of_get? he

theorem isWithin_iff {x y : ElementId} :
    t.isWithin x y = true ↔ x = y ∨ y ∈ t.ancestors x := by
  simp [isWithin]

theorem isWithin_refl (x : ElementId) : t.isWithin x x = true :=
  isWithin_iff.2 (Or.inl rfl)

theorem isWithin_iff_mem {x y : ElementId} :
    t.isWithin x y = true ↔ y ∈ x :: t.ancestors x := by
  rw [isWithin_iff, List.mem_cons, @eq_comm _ x y]

theorem mem_contents_iff {c x : ElementId} {slot : String} :
    x ∈ t.contents c slot ↔ ∃ e l, t.get? c = some e ∧ e.slot? slot = some l ∧ x ∈ l := by
  simp only [contents]
  cases t.get? c with
  | none => simp
  | some e => cases h : e.slot? slot <;> simp [h]

theorem contents_eq {c : ElementId} {e : Element} {slot : String} {l : List ElementId}
    (he : t.get? c = some e) (hl : e.slot? slot = some l) : t.contents c slot = l := by
  simp [contents, he, hl]

theorem children_eq {c : ElementId} {e : Element} (he : t.get? c = some e) :
    t.children c = e.children := by
  simp [children, he]

end ReportModel.Tree
