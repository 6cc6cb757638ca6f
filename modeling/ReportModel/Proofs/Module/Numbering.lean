import ReportModel.Proofs.Module.Depth
import ReportModel.Proofs.Tree.Numbering

/-!
# Numbers for names that are taken

Where an addition is allowed, the plan of its names is made: each search for a number ends, and each
rename is due and has the smallest number that is free when the member is reached.
-/

namespace ReportModel.Module

variable {m : Module} {id : ElementId} {place : Place} {index : Option Nat} {i : Nat}

/-- Every search for a number ends, whatever was reserved before. Each rename is of a member whose
name is occupied, or which lacks a name that it needs, and its number is the smallest with which the
name is occupied by no attached element and no member in front. No member that needs a number is
left out. -/
theorem Reachable.planNames_exact (h : m.Reachable)
    (hcheck : m.document.checkAdd id place index = .ok i) :
    (∀ held x p base, ∃ count ≤ m.document.tree.takenBound held p + 1, Tree.CountsTo (fun n =>
        m.document.tree.isTaken id held x p (base ++ toString n) = true) 1 count ∧
      m.document.tree.freeName id held x p base = base ++ toString count) ∧
    (∀ r ∈ m.document.tree.planNames id place, ∃ before after e p base count,
      m.document.tree.walk id = before ++ r.element :: after ∧
      m.document.get? r.element = some e ∧ Tree.settled id place r.element e = some p ∧
      r.old = e.name ∧ m.document.tree.IsBase id place before r.element p e base ∧
      r.new = base ++ toString count ∧
      Tree.IsSmallestFree (m.document.tree.IsOccupied id place before r.element p) base count) ∧
    (∀ before x after e p base, m.document.tree.walk id = before ++ x :: after →
      m.document.get? x = some e → Tree.settled id place x e = some p →
      m.document.tree.IsBase id place before x p e base →
      ∃ r ∈ m.document.tree.planNames id place, r.element = x) := by
  obtain ⟨hc, hat⟩ := Document.canLink_of_checkAdd hcheck
  have hwf := h.sound.history.wellFormed
  refine ⟨Tree.exists_countsTo m.document.tree id, fun r hr => ?_, ?_⟩
  · exact hwf.isSmallestFree_of_mem hc hat hr
  · intro before x after e p base hwalk he hplace hbase
    exact hwf.exists_rename hc hat hwalk he hplace hbase

/-- A grid in no place and a label in it are both called `a`. In the body there are labels `a` and
`a1`. -/
def namesakes : Module :=
  blank.run (placing 1 "Grid" (some "a") 0 "body" ++ placing 2 "Row" none 1 "rows" ++
    placing 3 "Cell" none 2 "cells" ++ placing 4 "Label" (some "b") 3 "content" ++
    [.perform .empty (.drop ⟨1, 0⟩), .perform .empty (.rename ⟨4, 0⟩ (some "a"))] ++
    placing 5 "Label" (some "a") 0 "body" ++ placing 6 "Label" (some "a1") 0 "body")

/-- The grid is to be `a2`, so the label in it is left with `a3`. -/
theorem planNames_exact_namesakes :
    namesakes.document.checkAdd ⟨1, 0⟩ ⟨⟨0, 0⟩, "body"⟩ none = .ok 2 ∧
    namesakes.document.tree.planNames ⟨1, 0⟩ ⟨⟨0, 0⟩, "body"⟩ =
      [⟨⟨1, 0⟩, some "a", "a2"⟩, ⟨⟨4, 0⟩, some "a", "a3"⟩] ∧
    ∃ before after p count,
      namesakes.document.tree.walk ⟨1, 0⟩ = before ++ ⟨4, 0⟩ :: after ∧
      "a3" = "a" ++ toString count ∧ Tree.IsSmallestFree
        (namesakes.document.tree.IsOccupied ⟨1, 0⟩ ⟨⟨0, 0⟩, "body"⟩ before ⟨4, 0⟩ p) "a" count := by
  have hcheck : namesakes.document.checkAdd ⟨1, 0⟩ ⟨⟨0, 0⟩, "body"⟩ none = .ok 2 := by
    decide +kernel
  have hplan : namesakes.document.tree.planNames ⟨1, 0⟩ ⟨⟨0, 0⟩, "body"⟩ =
      [⟨⟨1, 0⟩, some "a", "a2"⟩, ⟨⟨4, 0⟩, some "a", "a3"⟩] := by
    decide +kernel
  have hreachable : namesakes.Reachable := reachable_blank.run _
  obtain ⟨-, hrenames, -⟩ := hreachable.planNames_exact hcheck
  obtain ⟨before, after, e, p, base, count, hwalk, -, -, hold, hbase, hnew, hsmallest⟩ :=
    hrenames ⟨⟨4, 0⟩, some "a", "a3"⟩ (by simp [hplan])
  -- the label has a name of its own, so it is this one that the number is put behind
  obtain rfl : base = "a" := by
    rcases hbase with ⟨hname, -⟩ | ⟨hname, -⟩
    · exact (Option.some.inj (hold.trans hname)).symm
    · cases hold.trans hname
  exact ⟨hcheck, hplan, before, after, p, count, hwalk, hnew, hsmallest⟩

end ReportModel.Module
