import Mathlib.Logic.Relation
import ReportModel.Proofs.Module.Reachable

/-!
# What holds in every reachable module

Links to containers and contents of slots tell of one forest, names differ where they have to, the
name index is exact, and nothing in the history speaks of an element that is gone.
-/

namespace ReportModel

namespace Tree

variable {t : Tree} {c x y : ElementId}

/-- Containers and slots agree, ways up end, and slots hold what they are defined to hold. -/
structure Nested (t : Tree) : Prop where
  placed : ∀ {c host s x}, t.get? c = some host → s ∈ host.slots → x ∈ s.contents →
    ∃ e, t.get? x = some e ∧ e.place = some ⟨c, s.name⟩
  once : ∀ {x e p}, t.get? x = some e → e.place = some p →
    (t.contents p.container p.slot).count x = 1
  nowhere_else : ∀ {x e p}, t.get? x = some e → e.place = some p →
    ∀ c, (t.children c).count x = if c = p.container then 1 else 0
  root_top : ∃ e, t.get? t.root = some e ∧ e.place = none
  acyclic : ∀ x, ¬ Relation.TransGen (fun x c => t.parent x = some c) x x
  accepted : ∀ {x e p}, t.get? x = some e → e.place = some p →
    ∃ host definition, t.get? p.container = some host ∧
      t.dictionary.slot? host.typeName p.slot = some definition ∧
      definition.allowed.any (t.dictionary.isKindOf e.typeName) = true
  single : ∀ {c host s definition}, t.get? c = some host → s ∈ host.slots →
    t.dictionary.slot? host.typeName s.name = some definition → definition.multiple = false →
    s.contents.length ≤ 1

theorem Forest.length_ancestors_lt (hf : t.Forest)
    (h : Relation.TransGen (fun x c => t.parent x = some c) x y) :
    (t.ancestors y).length < (t.ancestors x).length := by
  induction h with
  | single hp => simp [hf.ancestors_step hp]
  | tail _ hp ih =>
      have hstep := hf.ancestors_step hp
      rw [hstep, List.length_cons] at ih
      omega

theorem Forest.nested (hf : t.Forest) : t.Nested where
  placed hhost hs hx := hf.place_of_mem hhost hs hx
  once hx hp := List.count_eq_one_of_mem (hf.contents_nodup _ _) (hf.mem_of_place hx hp)
  nowhere_else {x e p} hx hp c := by
    have hparent := parent_eq_some_iff.2 ⟨e, p, hx, hp, rfl⟩
    split
    · next hc =>
      rw [← hc] at hparent
      exact List.count_eq_one_of_mem (hf.nodup_children c) (hf.mem_children_iff.2 hparent)
    · next hc =>
      apply List.count_eq_zero_of_not_mem
      intro hmem
      exact hc (Option.some.inj ((hf.parent_of_mem hmem).symm.trans hparent))
  root_top := hf.root_top
  acyclic x h := by
    have hlt := hf.length_ancestors_lt h
    omega
  accepted {x e p} hx hp := by
    obtain ⟨host, l, hhost, -⟩ := mem_contents_iff.1 (hf.mem_of_place hx hp)
    obtain ⟨definition, hdefinition, hallowed⟩ := hf.accepted hx hp hhost
    exact ⟨host, definition, hhost, hdefinition, hallowed⟩
  single {c host s definition} hhost hs hdefinition hmultiple := by
    have hsub : s.contents ⊆ t.contents c s.name := by
      intro x hx
      exact hf.mem_contents_iff_place.2 (hf.place_of_mem hhost hs hx)
    have hnodup : s.contents.Nodup := by
      have hchildren := hf.nodup_children c
      rw [children_eq hhost] at hchildren
      exact (List.nodup_flatMap.1 hchildren).1 s hs
    have hle := (hnodup.subperm hsub).length_le
    have hone := hf.single hhost hdefinition hmultiple
    omega

end Tree

def Edit.elements : Edit → List ElementId
  | .value element .. | .mask element .. | .name element .. | .base element .. => [element]
  | .attach element place _ | .detach element place _ => [element, place.container]
  | .sheets host _ => [host]
  | .libraries _ => []

theorem Edit.touches_eq_any (edit : Edit) (ids : List ElementId) :
    edit.touches ids = edit.elements.any ids.contains := by
  cases edit <;> simp [touches, elements]

theorem Edit.touches_singleton {edit : Edit} {x : ElementId} (h : x ∈ edit.elements) :
    edit.touches [x] = true := by
  rw [touches_eq_any]
  exact List.any_eq_true.2 ⟨x, h, by simp⟩

namespace Module

variable {m : Module}

/-- Containment is a forest, told alike by containers and by slots, and what the history speaks of
is there. -/
theorem Reachable.containment_agrees (h : m.Reachable) :
    m.document.tree.Nested ∧
    ∀ r ∈ m.history.current ++ m.history.undo ++ m.history.redo, ∀ edit ∈ r.edits,
      ∀ x ∈ edit.elements, m.document.tree.contains x = true := by
  have hs := h.sound.history
  refine ⟨hs.wellFormed.forest.nested, ?_⟩
  intro r hr edit hedit x hx
  rw [List.mem_append, List.mem_append, or_assoc] at hr
  exact hs.contains_of_touches hr hedit (Edit.touches_singleton hx)

theorem containment_labelled :
    labelled.document.tree.parent ⟨1, 0⟩ = some ⟨0, 0⟩ ∧ labelled.document.tree.Nested ∧
    ∀ r ∈ labelled.history.current ++ labelled.history.undo ++ labelled.history.redo,
      ∀ edit ∈ r.edits, ∀ x ∈ edit.elements, labelled.document.tree.contains x = true :=
  ⟨by decide +kernel, reachable_labelled.containment_agrees⟩

/-- The index finds what it should and nothing else, siblings that have to be told apart have
different names, and what needs a name has one. -/
theorem Reachable.names_exact (h : m.Reachable) :
    (∀ space name x, m.document.tree.find space name = some x ↔
      m.document.tree.isAttached x = true ∧ ∃ e p, m.document.get? x = some e ∧
        e.place = some p ∧ m.document.tree.slotScope p.container p.slot = .module ∧
        m.document.tree.dictionary.nameSpace e.typeName = some space ∧ e.name = some name) ∧
    (∀ c host s x y ex ey name, m.document.tree.isAttached c = true →
      m.document.get? c = some host → s ∈ host.slots →
      m.document.tree.slotScope c s.name = .slot → x ∈ s.contents → y ∈ s.contents →
      m.document.get? x = some ex → m.document.get? y = some ey →
      ex.name = some name → ey.name = some name → x = y) ∧
    (∀ x e, m.document.tree.isAttached x = true → x ≠ m.document.root →
      m.document.get? x = some e → m.document.tree.dictionary.nameRequired e.typeName = true →
      ∃ name, e.name = some name) := by
  have hwf := h.sound.history.wellFormed
  have hf := hwf.forest
  refine ⟨?_, ?_, ?_⟩
  · intro space name x
    refine (hwf.indexed ⟨space, name⟩ x).trans (and_congr_right fun _ => ?_)
    simp only [Tree.claim_eq_some_iff, Tree.reservation_eq_inModule_iff, Tree.nameKey_eq_some_iff]
    constructor
    · intro hclaim
      obtain ⟨e, name', p, he, hname, hp, hscope, e', he', hspace, hkey⟩ := hclaim
      obtain rfl := Option.some.inj (he.symm.trans he')
      exact ⟨e, p, he, hp, hscope, hspace, hname.trans (congrArg some hkey.symm)⟩
    · intro hfound
      obtain ⟨e, p, he, hp, hscope, hspace, hname⟩ := hfound
      exact ⟨e, name, p, he, hname, hp, hscope, e, he, hspace, rfl⟩
  · intro c host s x y ex ey name hc hhost hs hscope hx hy hex hey hnx hny
    -- whatever stands in the slot under the name claims it there
    have hclaim : ∀ {z ez}, z ∈ s.contents → m.document.get? z = some ez → ez.name = some name →
        m.document.tree.isAttached z = true ∧
          m.document.tree.claim z = some (.inSlot ⟨c, s.name⟩ name) := by
      intro z ez hz hez hname
      obtain ⟨e, he, hp⟩ := hf.place_of_mem hhost hs hz
      obtain rfl := Option.some.inj (he.symm.trans hez)
      have hparent := Tree.parent_eq_some_iff.2 ⟨e, _, he, hp, rfl⟩
      refine ⟨(hf.isAttached_of_parent hparent).2 hc, ?_⟩
      refine Tree.claim_eq_some_iff.2 ⟨e, name, _, he, hname, hp, ?_⟩
      exact Tree.reservation_eq_inSlot_iff.2 ⟨hscope, rfl, rfl⟩
    obtain ⟨hax, hcx⟩ := hclaim hx hex hnx
    obtain ⟨hay, hcy⟩ := hclaim hy hey hny
    exact hwf.named.unique hax hay hcx hcy
  · intro x e hx hroot he hrequired
    exact Option.ne_none_iff_exists'.1 (hwf.named.required hx hroot he hrequired)

theorem names_labelled :
    labelled.document.tree.find "element" "total" = some ⟨1, 0⟩ ∧
    labelled.document.tree.isAttached ⟨1, 0⟩ = true := by
  have hfind : labelled.document.tree.find "element" "total" = some ⟨1, 0⟩ := by decide +kernel
  exact ⟨hfind, ((reachable_labelled.names_exact.1 _ _ _).1 hfind).1⟩

end Module

end ReportModel
