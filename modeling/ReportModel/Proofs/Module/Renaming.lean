import ReportModel.Proofs.Editor.Adding
import ReportModel.Proofs.Module.Depth

/-!
# Names in an added subtree

An element that is added keeps its name if nothing shares it, and so does what is inside it, but for
one case: a member further in front may be given a number, and with it the very name of a member
behind it. That member gets another number then, though nothing shared its name.
-/

namespace ReportModel

namespace Module

variable {m m' : Module} {files : Files} {id : ElementId} {place : Place} {index : Option Nat}
  {reply : Reply} {event : Option Event}

theorem Sound.adds (hm : m.Sound)
    (hok : m.perform files (.add id place index) = ⟨.ok reply, m', event⟩) :
    Tree.Adds id place m.document.tree m'.document.tree := by
  have hleft := hm.leaves_of_ok (congrArg Outcome.result hok)
    (Action.leaves_done (Action.leaves_add_adds hm.history.wellFormed id place index))
  rwa [hok] at hleft

/-- A member that alone has its name keeps it if and only if no member in front has been given it,
and nothing is renamed if every member alone has its name, and has one if it needs one. -/
theorem Reachable.name?_add (h : m.Reachable)
    (hok : m.perform files (.add id place index) = ⟨.ok reply, m', event⟩) :
    (∀ before x after name, m.document.tree.walk id = before ++ x :: after →
      m.document.tree.name? x = some name → Tree.Alone m.document.tree m'.document.tree x →
      (m'.document.tree.name? x = some name ↔
        ∀ y ∈ before, m'.document.tree.name? y ≠ m.document.tree.name? y →
          ∀ w, m'.document.tree.claim y = some w →
            m'.document.tree.claimUnder x name ≠ some w)) ∧
    ((∀ x ∈ m.document.tree.walk id, Tree.Alone m.document.tree m'.document.tree x) →
      (∀ x ∈ m.document.tree.walk id, ∀ e, m.document.get? x = some e → e.name = none →
        m.document.tree.dictionary.nameRequired e.typeName = false) →
      ∀ x ∈ m.document.tree.walk id,
        m'.document.tree.name? x = m.document.tree.name? x) := by
  have hadds := h.sound.adds hok
  refine ⟨fun before x after name hwalk hname halone => ?_, fun hall hneeds => ?_⟩
  · exact hadds.name?_eq_some_iff hwalk hname halone
  · exact hadds.name?_of_forall_alone hall hneeds

/-- A label with the name `a1` in a grid with the name `a`, which is in no place, and a label with
the name `a` in the body. -/
def detached : Module :=
  blank.run (placing 1 "Grid" (some "a") 0 "body" ++ placing 2 "Row" none 1 "rows" ++
    placing 3 "Cell" none 2 "cells" ++ placing 4 "Label" (some "a1") 3 "content" ++
    [.perform .empty (.drop ⟨1, 0⟩)] ++ placing 5 "Label" (some "a") 0 "body")

def readded : Module :=
  (detached.perform .empty (.add ⟨1, 0⟩ ⟨⟨0, 0⟩, "body"⟩ none)).module

theorem perform_readded : detached.perform .empty (.add ⟨1, 0⟩ ⟨⟨0, 0⟩, "body"⟩ none) =
    ⟨.ok .done, readded, (detached.perform .empty (.add ⟨1, 0⟩ ⟨⟨0, 0⟩, "body"⟩ none)).event⟩ := by
  have hresult : (detached.perform .empty (.add ⟨1, 0⟩ ⟨⟨0, 0⟩, "body"⟩ none)).result =
      .ok .done := by
    decide +kernel
  rw [← hresult]
  rfl

/-- The grid is given the name of the label in it. -/
theorem name?_add_readded :
    Tree.Alone detached.document.tree readded.document.tree ⟨4, 0⟩ ∧
    detached.document.tree.name? ⟨4, 0⟩ = some "a1" ∧
    readded.document.tree.name? ⟨4, 0⟩ ≠ some "a1" := by
  have hreachable : detached.Reachable := reachable_blank.run _
  have hf : readded.document.tree.Forest :=
    (hreachable.next (.perform .empty (.add ⟨1, 0⟩ ⟨⟨0, 0⟩, "body"⟩
      none))).sound.history.wellFormed.forest
  have halone : Tree.Alone detached.document.tree readded.document.tree ⟨4, 0⟩ :=
    hf.alone_iff.2 (by decide +kernel)
  have hname : detached.document.tree.name? ⟨4, 0⟩ = some "a1" := by decide +kernel
  have hwalk : detached.document.tree.walk ⟨1, 0⟩ = [⟨1, 0⟩, ⟨2, 0⟩, ⟨3, 0⟩] ++ ⟨4, 0⟩ :: [] := by
    decide +kernel
  obtain ⟨hiff, -⟩ := hreachable.name?_add perform_readded
  refine ⟨halone, hname, fun hkept => ?_⟩
  have hfree := (hiff _ _ _ _ hwalk hname halone).1 hkept ⟨1, 0⟩ (by simp) (by decide +kernel)
    (.inModule ⟨"element", "a1"⟩) (by decide +kernel)
  exact hfree (by decide +kernel)

/-- The label is the only element with its name, and it is renamed. -/
theorem readded_renamed :
    (detached.perform .empty (.add ⟨1, 0⟩ ⟨⟨0, 0⟩, "body"⟩ none)).result = .ok .done ∧
    detached.document.tree.name? ⟨4, 0⟩ = some "a1" ∧
    (∀ y ∈ readded.document.tree.attached, y ≠ ⟨4, 0⟩ →
      detached.document.tree.name? y ≠ some "a1") ∧
    readded.document.tree.name? ⟨4, 0⟩ = some "a11" := by
  decide +kernel

end Module

end ReportModel
