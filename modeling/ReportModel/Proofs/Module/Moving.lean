import ReportModel.Proofs.Editor.Adding
import ReportModel.Proofs.Module.Depth

/-!
# Moving elements

Moving an element takes it out of its slot and inserts it in another one, or in the same one, and
does nothing else but rename what is inside the element where it has to.
-/

namespace ReportModel.Module

variable {m m' : Module} {files : Files} {id : ElementId} {place : Place} {index : Option Nat}
  {reply : Reply} {event : Option Event}

/-- An element that moves is taken out of its slot and inserted at the index, or at the end. Nothing
else changes but names inside it, and none of them between slots in which names are unique in the
module. An attached element that moves to where it stands changes nothing. -/
theorem Reachable.move_exact (h : m.Reachable)
    (hok : m.perform files (.move id place index) = ⟨.ok reply, m', event⟩) :
    ∃ e old i, m.document.get? id = some e ∧ e.place = some old ∧
      i = index.getD (m.document.tree.contentsWithout id old place).length ∧
      i ≤ (m.document.tree.contentsWithout id old place).length ∧
      (∀ p, id ∉ m.document.tree.contentsWithout id old p) ∧
      (∀ p, m'.document.tree.contents p.container p.slot =
        if p = place then insertAt i id (m.document.tree.contentsWithout id old p)
        else m.document.tree.contentsWithout id old p) ∧
      (∀ x, m'.document.tree.contains x = m.document.tree.contains x) ∧
      (∀ x e, m.document.get? x = some e → ∃ e', m'.document.get? x = some e' ∧
        e'.bare = e.bare ∧ e'.place = (if x = id then some place else e.place) ∧
        e'.slots.map (·.name) = e.slots.map (·.name)) ∧
      m'.document.libraries = m.document.libraries ∧
      (∀ x, x ∉ m.document.tree.walk id →
        m'.document.tree.name? x = m.document.tree.name? x) ∧
      (m.document.tree.isAttached id = true →
        m.document.tree.slotScope old.container old.slot = .module →
        m.document.tree.slotScope place.container place.slot = .module →
        ∀ x, m'.document.tree.name? x = m.document.tree.name? x) ∧
      (m.document.tree.isAttached id = true → place = old →
        (m.document.tree.contents old.container old.slot).idxOf? id = some i →
        m'.document.tree = m.document.tree) := by
  have hm := h.sound
  have hmoved := hm.leaves_of_ok (congrArg Outcome.result hok)
    (Action.leaves_done (Action.leaves_move_moves hm.history.wellFormed id place index))
  have hchecked := hm.leaves_of_ok (congrArg Outcome.result hok)
    (Action.leaves_done (Action.leaves_move id place index))
  rw [hok] at hmoved hchecked
  obtain ⟨old, hmoves⟩ := hmoved
  obtain ⟨j, hunlink⟩ := hmoves.canUnlink
  obtain ⟨e, he, hold⟩ := hunlink.placed
  refine ⟨e, old, _, he, hold, rfl, hmoves.index_le, hmoves.notMem_contentsWithout,
    hmoves.contents_eq, hmoves.contains_eq, fun x e he => hmoves.exists_get? he,
    hchecked.libraries, fun x hx => hmoves.name?_of_notMem hx, hmoves.name?_eq_of_module, ?_⟩
  rintro hat rfl hindex
  exact hmoves.eq_of_stays hat (Tree.canUnlink_of_idxOf? he hold hindex) rfl

/-- Two labels in the body of a design. -/
def doubled : Module :=
  blank.run (placing 1 "Label" (some "a") 0 "body" ++ placing 2 "Label" (some "b") 0 "body")

/-- The first label is moved to the end of the body. -/
def reordered : Module :=
  (doubled.perform .empty (.move ⟨1, 0⟩ ⟨⟨0, 0⟩, "body"⟩ none)).module

/-- The label at the end is moved to the end. -/
def unmoved : Module :=
  (doubled.perform .empty (.move ⟨2, 0⟩ ⟨⟨0, 0⟩, "body"⟩ (some 1))).module

/-- The labels change places and keep their names, and nothing changes if the one at the end is
moved there. -/
theorem move_exact_doubled :
    reordered.document.tree.contents ⟨0, 0⟩ "body" = [⟨2, 0⟩, ⟨1, 0⟩] ∧
    (∀ x, reordered.document.tree.name? x = doubled.document.tree.name? x) ∧
    unmoved.document.tree = doubled.document.tree := by
  have hreachable : doubled.Reachable := reachable_blank.run _
  have hplaces : (doubled.document.get? ⟨1, 0⟩).bind (·.place) = some ⟨⟨0, 0⟩, "body"⟩ ∧
      (doubled.document.get? ⟨2, 0⟩).bind (·.place) = some ⟨⟨0, 0⟩, "body"⟩ := by
    decide +kernel
  have hfirst : doubled.perform .empty (.move ⟨1, 0⟩ ⟨⟨0, 0⟩, "body"⟩ none) =
      ⟨.ok .done, reordered,
        (doubled.perform .empty (.move ⟨1, 0⟩ ⟨⟨0, 0⟩, "body"⟩ none)).event⟩ := rfl
  have hsecond : doubled.perform .empty (.move ⟨2, 0⟩ ⟨⟨0, 0⟩, "body"⟩ (some 1)) =
      ⟨.ok .done, unmoved,
        (doubled.perform .empty (.move ⟨2, 0⟩ ⟨⟨0, 0⟩, "body"⟩ (some 1))).event⟩ := rfl
  obtain ⟨e, old, i, he, hold, rfl, -, -, hcontents, -, -, -, -, hnames, -⟩ :=
    hreachable.move_exact hfirst
  obtain rfl : old = ⟨⟨0, 0⟩, "body"⟩ := by simpa [he, hold] using hplaces.1
  obtain ⟨e₂, old₂, i₂, he₂, hold₂, rfl, -, -, -, -, -, -, -, -, hstays⟩ :=
    hreachable.move_exact hsecond
  obtain rfl : old₂ = ⟨⟨0, 0⟩, "body"⟩ := by simpa [he₂, hold₂] using hplaces.2
  refine ⟨(hcontents ⟨⟨0, 0⟩, "body"⟩).trans ?_, hnames ?_ ?_ ?_, hstays ?_ rfl ?_⟩ <;>
    decide +kernel

end ReportModel.Module
