import ReportModel.Proofs.Tree.WellFormed

/-!
# What moves and renames leave alone

Renaming an element, attaching it and detaching it change the names, places and slots of elements.
What else they are stays as it is.
-/

namespace ReportModel

def Element.bare (e : Element) : Element :=
  { e with name := none, place := none, slots := [] }

namespace Tree

variable {t t' t'' : Tree} {x : ElementId} {e : Element}

/-- Two trees have the same elements, which differ in their names, places and slots at most. -/
structure SameBare (t t' : Tree) : Prop where
  root : t'.root = t.root
  dictionary : t'.dictionary = t.dictionary
  bare : ∀ x, (t'.get? x).map Element.bare = (t.get? x).map Element.bare

namespace SameBare

theorem refl (t : Tree) : t.SameBare t :=
  ⟨rfl, rfl, fun _ => rfl⟩

theorem trans (h : t.SameBare t') (h' : t'.SameBare t'') : t.SameBare t'' :=
  ⟨h'.root.trans h.root, h'.dictionary.trans h.dictionary, fun x => (h'.bare x).trans (h.bare x)⟩

theorem symm (h : t.SameBare t') : t'.SameBare t :=
  ⟨h.root.symm, h.dictionary.symm, fun x => (h.bare x).symm⟩

theorem exists_get? (h : t.SameBare t') (he : t.get? x = some e) :
    ∃ e', t'.get? x = some e' ∧ e'.bare = e.bare := by
  have hbare := h.bare x
  rw [he] at hbare
  exact Option.map_eq_some_iff.1 hbare

theorem modify (t : Tree) (id : ElementId) {f : Element → Element}
    (hf : ∀ e, (f e).bare = e.bare) : t.SameBare (t.modify id f) where
  root := rfl
  dictionary := rfl
  bare x := by
    rw [get?_modify]
    split
    · next hx =>
      subst hx
      rw [Option.map_map]
      exact congrArg (Option.map · _) (funext hf)
    · rfl

theorem enter (t : Tree) (id : ElementId) : t.SameBare (t.enter id) := by
  obtain ⟨names, heq, -⟩ := enter_eq t id
  rw [heq]
  exact ⟨rfl, rfl, fun _ => rfl⟩

theorem strike (t : Tree) (id : ElementId) : t.SameBare (t.strike id) := by
  obtain ⟨names, heq, -⟩ := strike_eq t id
  rw [heq]
  exact ⟨rfl, rfl, fun _ => rfl⟩

theorem enterAll (t : Tree) (id : ElementId) : t.SameBare (t.enterAll id) :=
  List.foldlRecOn _ _ (refl t) fun _ h x _ => h.trans (enter _ x)

theorem strikeAll (t : Tree) (id : ElementId) : t.SameBare (t.strikeAll id) :=
  List.foldlRecOn _ _ (refl t) fun _ h x _ => h.trans (strike _ x)

theorem rename (t : Tree) (id : ElementId) (name : Option String) :
    t.SameBare (t.rename id name) := by
  have hchange : ∀ t : Tree, t.SameBare (t.modify id fun e => { e with name := name }) :=
    fun t => modify t id fun _ => rfl
  simp only [Tree.rename]
  split
  · exact ((strike t id).trans (hchange _)).trans (enter _ id)
  · exact hchange t

theorem modifySlot (t : Tree) (id container : ElementId) (slot : String)
    (f : List ElementId → List ElementId) (place : Option Place) :
    t.SameBare ((t.modify container (·.withSlot slot f)).modify id
      fun e => { e with place := place }) := by
  have hheld : t.SameBare (t.modify container (·.withSlot slot f)) :=
    modify t container fun _ => rfl
  exact hheld.trans (modify _ id fun _ => rfl)

theorem attach (t : Tree) (id : ElementId) (place : Place) (index : Nat) :
    t.SameBare (t.attach id place index) := by
  have hplaced := modifySlot t id place.container place.slot (insertAt index id) (some place)
  simp only [Tree.attach]
  split
  · split
    · exact hplaced.trans (enterAll _ id)
    · exact hplaced
  · exact refl t

theorem detach (t : Tree) (id : ElementId) : t.SameBare (t.detach id) := by
  simp only [Tree.detach]
  split
  · exact refl t
  · next place hplace =>
    have hstruck : t.SameBare (if t.isAttached id then t.strikeAll id else t) := by
      split
      · exact strikeAll t id
      · exact refl t
    generalize (if t.isAttached id then t.strikeAll id else t) = struck at hstruck ⊢
    split
    · exact hstruck.trans (modifySlot struck id place.container place.slot (·.erase id) none)
    · exact hstruck

end SameBare

end Tree

end ReportModel
