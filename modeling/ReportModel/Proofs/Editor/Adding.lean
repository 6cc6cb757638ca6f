import ReportModel.Proofs.Editor.Leaves
import ReportModel.Proofs.Tree.Moving

/-!
# What adding and moving make of the tree

Adding an element makes the renames that are planned and then links the element; moving takes it out
of its slot before. Both change names, places and slots only.
-/

namespace ReportModel

open Edit

namespace Document

variable {d : Document} {id : ElementId} {place old : Place} {index : Option Nat} {i j : Nat}

theorem tree_added (hwf : d.tree.WellFormed) (hcheck : d.checkAdd id place index = .ok i) :
    ∃ d₁ names, Reversible ((d.tree.planNames id place).map Rename.edit) d d₁ ∧
      Tree.SameLinks d.tree d₁.tree ∧
      (∀ x e, d.tree.get? x = some e → ∃ e', d₁.tree.get? x = some e' ∧
        e'.name = Tree.plannedName (d.tree.planNames id place) x e) ∧
      (d.added id place i).tree = (d₁.tree.link id place i).withNames names ∧
      (d.added id place i).tree.WellFormed := by
  obtain ⟨hc, hat⟩ := canLink_of_checkAdd hcheck
  obtain ⟨d₁, hrev, hlinks, hnames⟩ := reversible_planNames hwf hc
  have hnamed := (Tree.plans_planNames hwf.forest id place).named_link hlinks
    (fun {x e} => hnames x e) hwf hc hat
  obtain ⟨names, hattach, hwf'⟩ :=
    (hrev.wellFormed hwf).attach (hc.sameLinks hwf.forest hlinks) hnamed
  have htree : (d.added id place i).tree = (d₁.tree.link id place i).withNames names := by
    rw [← hattach, added, hrev.applyAll_eq]
    rfl
  exact ⟨d₁, names, hrev, hlinks, hnames, htree, htree ▸ hwf'⟩

theorem adds_added (hwf : d.tree.WellFormed) (hcheck : d.checkAdd id place index = .ok i) :
    Tree.Adds id place d.tree (d.added id place i).tree := by
  obtain ⟨hc, hat⟩ := canLink_of_checkAdd hcheck
  obtain ⟨d₁, names, -, hlinks, hnames, htree, -⟩ := tree_added hwf hcheck
  rw [htree]
  exact hwf.adds hc hat hlinks (fun {x e} => hnames x e) names

theorem sameBare_renames (plan : List Rename) :
    d.tree.SameBare (applyAll (plan.map Rename.edit) d).tree := by
  induction plan generalizing d with
  | nil => exact .refl d.tree
  | cons rename plan ih =>
      have hfirst : d.tree.SameBare (rename.edit.apply d).tree := .rename d.tree _ _
      exact hfirst.trans ih

theorem sameBare_added (d : Document) (id : ElementId) (place : Place) (i : Nat) :
    d.tree.SameBare (d.added id place i).tree :=
  (sameBare_renames _).trans (.attach _ id place i)

theorem contents_detach (hwf : d.tree.WellFormed) (hunlink : d.tree.CanUnlink id old j)
    (p : Place) :
    (Edit.apply d (.detach id old j)).tree.contents p.container p.slot =
      d.tree.contentsWithout id old p := by
  obtain ⟨names, hdetach, -⟩ := hwf.detach hunlink
  have htree : (Edit.apply d (.detach id old j)).tree = (d.tree.unlink id old).withNames names :=
    hdetach
  rw [htree, Tree.contents_withNames, hunlink.contents_unlink]

theorem moves_added (hwf : d.tree.WellFormed) (hunlink : d.tree.CanUnlink id old j)
    (hcheck : (Edit.apply d (.detach id old j)).checkAdd id place index = .ok i) :
    Tree.Moves id old place i d.tree ((Edit.apply d (.detach id old j)).added id place i).tree := by
  have hf := hwf.forest
  obtain ⟨names, hdetach, hwf₁⟩ := hwf.detach hunlink
  have htree₁ : (Edit.apply d (.detach id old j)).tree =
      (d.tree.unlink id old).withNames names := hdetach
  have hunlinked : Tree.SameLinks (d.tree.unlink id old)
      (Edit.apply d (.detach id old j)).tree :=
    htree₁ ▸ Tree.sameLinks_withNames _ names
  have hbare : d.tree.SameBare (Edit.apply d (.detach id old j)).tree := .detach d.tree id
  have hshape : (Edit.apply d (.detach id old j)).tree.elements.shape = d.tree.elements.shape := by
    rw [htree₁]
    exact (Arena.shape_modify ..).trans (Arena.shape_modify ..)
  rw [← htree₁] at hwf₁
  obtain ⟨hc, -⟩ := canLink_of_checkAdd hcheck
  obtain ⟨d₁, names', hrev, hlinks, -, htree, hwf'⟩ := tree_added hwf₁ hcheck
  refine ⟨hwf, hwf', ⟨j, hunlink⟩, hc.sameLinks hwf₁.forest hunlinked.symm, ?_,
    hbare.trans (sameBare_added _ id place i), ?_, names, htree₁ ▸ adds_added hwf₁ hcheck⟩
  · rw [htree]
    exact (hunlinked.trans hlinks).link.trans (Tree.sameLinks_withNames _ names')
  · rw [htree, ← hshape, ← hrev.forth.shape_eq]
    exact (Arena.shape_modify ..).trans (Arena.shape_modify ..)

end Document

namespace Action

variable {ed : Editor}

theorem leaves_add_adds (hwf : ed.document.tree.WellFormed) (id : ElementId) (place : Place)
    (index : Option Nat) : (add false id place index).Leaves ed fun d =>
      Tree.Adds id place ed.document.tree d.tree :=
  leaves_add_of fun _ hcheck _ => Document.adds_added hwf hcheck

theorem leaves_move_moves (hwf : ed.document.tree.WellFormed) (id : ElementId) (place : Place)
    (index : Option Nat) :
    (move false id place index).Leaves ed fun d => ∃ old, Tree.Moves id old place
      (index.getD (ed.document.tree.contentsWithout id old place).length)
      ed.document.tree d.tree := by
  refine leaves_move_of fun e old j d he hold hj hd i hcheck _ => ⟨old, ?_⟩
  rw [← hd] at hcheck ⊢
  have hunlink := Tree.canUnlink_of_idxOf? he hold hj
  have hi := Document.eq_getD_of_checkAdd hcheck
  rw [Document.contents_detach hwf hunlink] at hi
  rw [← hi]
  exact Document.moves_added hwf hunlink hcheck

end Action

end ReportModel
