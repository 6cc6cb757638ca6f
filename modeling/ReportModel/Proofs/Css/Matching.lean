import Mathlib.Data.List.Forall2
import Mathlib.Logic.Relation
import ReportModel.Proofs.Module.Reachable

/-!
# What selectors describe

A selector is matched from its last compound outwards, and a descendant step tries every container
further out. It describes an element if and only if a trail leads to that element: an element for
each compound, each of them the container of the next one or further out, as the combinator between
them says.
-/

namespace ReportModel

namespace Tree

variable {t : Tree} {x y : ElementId}

/-- An element lies directly in another one. -/
def LiesIn (t : Tree) (inner outer : ElementId) : Prop :=
  t.parent inner = some outer

theorem Ascends.transGen {l : List ElementId} (h : t.Ascends x l) (hy : y ∈ l) :
    Relation.TransGen t.LiesIn x y := by
  induction h with
  | top => cases hy
  | step hp _ ih =>
      rcases List.mem_cons.1 hy with rfl | hy
      · exact .single hp
      · exact .head hp (ih hy)

theorem Forest.mem_ancestors_iff (hf : t.Forest) :
    y ∈ t.ancestors x ↔ Relation.TransGen t.LiesIn x y := by
  refine ⟨(hf.ascends_ancestors x).transGen, fun h => ?_⟩
  induction h using Relation.TransGen.head_induction_on with
  | single hp =>
      rw [hf.ancestors_step hp]
      exact List.mem_cons_self
  | head hp _ ih =>
      rw [hf.ancestors_step hp]
      exact List.mem_cons_of_mem _ ih

end Tree

namespace Css

open ReportModel.Tree

variable {t : Tree} {s : Selector} {id : ElementId}

/-- What it is for a condition to be true of an element. A pseudo-class is true of none. -/
inductive Component.Satisfied (e : Element) : Component → Prop
  | ofType {name : String}
    (h : List.Forall₂ (fun c d => c.toLower = d.toLower) e.typeName.toList name.toList) :
    Satisfied e (.ofType name)
  | universal : Satisfied e .universal
  | ofClass {name : String} (h : e.text? Vocabulary.styleProperty = some name) :
    Satisfied e (.ofClass name)
  | ofId {name : String} (h : e.name = some name) : Satisfied e (.ofId name)

theorem equalIgnoringCase_iff {a b : String} : equalIgnoringCase a b = true ↔
    List.Forall₂ (fun c d => c.toLower = d.toLower) a.toList b.toList := by
  rw [equalIgnoringCase, decide_eq_true_iff, ← List.forall₂_eq_eq_eq, List.forall₂_map_left_iff,
    List.forall₂_map_right_iff]

theorem Component.holds_iff {c : Component} {e : Element} :
    c.holds e = true ↔ c.Satisfied e := by
  cases c with
  | ofType name =>
      rw [holds, equalIgnoringCase_iff]
      exact ⟨.ofType, fun h => by cases h; assumption⟩
  | universal => exact iff_of_true rfl .universal
  | ofClass name =>
      rw [holds, decide_eq_true_iff]
      exact ⟨.ofClass, fun h => by cases h; assumption⟩
  | ofId name =>
      rw [holds, decide_eq_true_iff]
      exact ⟨.ofId, fun h => by cases h; assumption⟩
  | ofPseudo name => exact iff_of_false Bool.false_ne_true fun h => by cases h

def Satisfies (t : Tree) (id : ElementId) (conditions : Compound) : Prop :=
  ∃ e, t.get? id = some e ∧ ∀ c ∈ conditions, c.Satisfied e

theorem holdsAt_iff {conditions : Compound} :
    holdsAt t conditions id = true ↔ Satisfies t id conditions := by
  simp only [holdsAt, Option.any_eq_true, List.all_eq_true, Component.holds_iff, Satisfies]

/-- What it is for an element to lie around another one as a combinator says. -/
def Combinator.Relates (t : Tree) : Combinator → ElementId → ElementId → Prop
  | .child, outer, inner => t.LiesIn inner outer
  | .descendant, outer, inner => Relation.TransGen t.LiesIn inner outer

def Selector.combinators : Selector → List Combinator
  | .compound _ => []
  | .within outer combinator _ => outer.combinators ++ [combinator]

theorem Selector.length_compounds (s : Selector) :
    s.compounds.length = s.combinators.length + 1 := by
  induction s with
  | compound => rfl
  | within outer combinator conditions ih => simp [compounds, combinators, ih]

/-- Elements from the outside in, one for each compound of a selector: each satisfies its compound,
and lies around the next one as the combinator between them says. -/
structure Selector.Trail (t : Tree) (s : Selector) (x : Nat → ElementId) : Prop where
  satisfies : ∀ (i : Nat) (conditions : Compound), s.compounds[i]? = some conditions →
    Satisfies t (x i) conditions
  relates : ∀ (i : Nat) (combinator : Combinator), s.combinators[i]? = some combinator →
    combinator.Relates t (x i) (x (i + 1))

namespace Selector

variable {outer : Selector} {combinator : Combinator} {conditions : Compound}
  {x y : Nat → ElementId}

theorem Trail.congr (h : s.Trail t x) (hxy : ∀ i ≤ s.combinators.length, x i = y i) :
    s.Trail t y where
  satisfies i cs hcs := by
    obtain ⟨hlt, -⟩ := List.getElem?_eq_some_iff.1 hcs
    rw [length_compounds] at hlt
    rw [← hxy i (Nat.le_of_lt_succ hlt)]
    exact h.satisfies i cs hcs
  relates i k hk := by
    obtain ⟨hlt, -⟩ := List.getElem?_eq_some_iff.1 hk
    rw [← hxy i (Nat.le_of_lt hlt), ← hxy (i + 1) hlt]
    exact h.relates i k hk

/-- A trail goes on by one element for one more compound. -/
theorem trail_within : (within outer combinator conditions).Trail t x ↔
    outer.Trail t x ∧
      combinator.Relates t (x outer.combinators.length) (x (outer.combinators.length + 1)) ∧
      Satisfies t (x (outer.combinators.length + 1)) conditions := by
  constructor
  · intro h
    refine ⟨⟨fun i cs hcs => ?_, fun i k hk => ?_⟩, ?_, ?_⟩
    · exact h.satisfies i cs (getElem?_concat_eq_some.2 (Or.inl hcs))
    · exact h.relates i k (getElem?_concat_eq_some.2 (Or.inl hk))
    · exact h.relates _ _ (getElem?_concat_eq_some.2 (Or.inr ⟨rfl, rfl⟩))
    · exact h.satisfies _ _ (getElem?_concat_eq_some.2 (Or.inr ⟨outer.length_compounds.symm, rfl⟩))
  · intro h
    obtain ⟨houter, hrelates, hsatisfies⟩ := h
    refine ⟨fun i cs hcs => ?_, fun i k hk => ?_⟩
    · rcases getElem?_concat_eq_some.1 hcs with hcs | ⟨rfl, rfl⟩
      · exact houter.satisfies i cs hcs
      · rwa [length_compounds]
    · rcases getElem?_concat_eq_some.1 hk with hk | ⟨rfl, rfl⟩
      · exact houter.relates i k hk
      · exact hrelates

/-- One step inwards is taken from an element that the selector so far describes. -/
theorem describes_within_iff (hf : t.Forest) :
    (within outer combinator conditions).describes t id = true ↔
      Satisfies t id conditions ∧
        ∃ o, combinator.Relates t o id ∧ outer.describes t o = true := by
  cases combinator with
  | child =>
      simp only [describes, Bool.and_eq_true, holdsAt_iff, Option.any_eq_true, Combinator.Relates,
        LiesIn]
  | descendant =>
      simp only [describes, Bool.and_eq_true, holdsAt_iff, List.any_eq_true, hf.mem_ancestors_iff,
        Combinator.Relates]

/-- A selector describes an element if and only if a trail leads to it. -/
theorem describes_iff_exists_trail (hf : t.Forest) (s : Selector) (id : ElementId) :
    s.describes t id = true ↔ ∃ x, s.Trail t x ∧ x s.combinators.length = id := by
  induction s generalizing id with
  | compound conditions =>
      rw [describes, holdsAt_iff]
      constructor
      · intro h
        refine ⟨fun _ => id, ⟨fun i cs hcs => ?_, fun i k hk => by cases hk⟩, rfl⟩
        obtain rfl := List.mem_singleton.1 (List.mem_of_getElem? hcs)
        exact h
      · rintro ⟨x, hx, rfl⟩
        exact hx.satisfies 0 conditions rfl
  | within outer combinator conditions ih =>
      rw [describes_within_iff hf]
      have hlength : (within outer combinator conditions).combinators.length =
          outer.combinators.length + 1 := List.length_append
      simp only [hlength, trail_within, ih]
      constructor
      · rintro ⟨hsatisfies, o, hrelates, x, hx, rfl⟩
        -- the trail so far, with the element itself behind it
        refine ⟨fun i => if i ≤ outer.combinators.length then x i else id, ⟨?_, ?_, ?_⟩, ?_⟩
        · exact hx.congr fun i hi => (if_pos hi).symm
        · simpa [Nat.not_succ_le_self] using hrelates
        · simpa [Nat.not_succ_le_self] using hsatisfies
        · exact if_neg (Nat.not_succ_le_self _)
      · rintro ⟨x, ⟨hx, hrelates, hsatisfies⟩, rfl⟩
        exact ⟨hsatisfies, _, hrelates, x, hx, rfl⟩

/-- A grid in a cell of another grid of the style `Outer`, with a label in a cell of its own. -/
def nesting : List Input :=
  Module.placing 1 "Grid" none 0 "body" ++ Module.placing 2 "Row" none 1 "rows" ++
    Module.placing 3 "Cell" none 2 "cells" ++ Module.placing 4 "Grid" none 3 "content" ++
    Module.placing 5 "Row" none 4 "rows" ++ Module.placing 6 "Cell" none 5 "cells" ++
    Module.placing 7 "Label" none 6 "content" ++
    [.perform .empty (.setValue ⟨1, 0⟩ "style" (.string "Outer"))]

def nested : Module :=
  Module.blank.run nesting

/-- The row next to the label does not lie in the grid of the style, so the trail goes by the other
row. -/
theorem describes_iff_exists_trail_nested :
    nested.document.tree.Forest ∧
    (∃ x, (within (within (compound [.ofClass "Outer"]) .child [.ofType "row"]) .descendant
      [.ofType "Label"]).Trail nested.document.tree x ∧ x 2 = ⟨7, 0⟩) ∧
    ¬ ∃ x, (within (within (compound [.ofClass "Outer"]) .child [.ofType "Cell"]) .descendant
      [.ofType "Label"]).Trail nested.document.tree x ∧ x 2 = ⟨7, 0⟩ := by
  have hf : nested.document.tree.Forest :=
    (Module.reachable_blank.run nesting).sound.history.wellFormed.forest
  refine ⟨hf, (describes_iff_exists_trail hf _ ⟨7, 0⟩).1 ?_, fun h => ?_⟩
  · decide +kernel
  · exact absurd ((describes_iff_exists_trail hf _ ⟨7, 0⟩).2 h) (by decide +kernel)

end Selector

end Css

end ReportModel
