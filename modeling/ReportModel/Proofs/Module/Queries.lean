import ReportModel.Document.Queries
import ReportModel.Proofs.Document.Caching
import ReportModel.Proofs.Module.Reachable
import ReportModel.Proofs.Tree.Templates

/-!
# What modules answer

In a module that is reached, the walks from the root meet the attached elements, the search for
items made from templates lists the outermost ones, and cached values are those of the queries.
-/

namespace ReportModel.Module

variable {m : Module} {files : Files}

def templating (index : Nat) : Input :=
  .perform .empty (.setValue ⟨index, 0⟩ Vocabulary.templateProperty (.string "standard"))

/-- A grid around a label, another label, and a page around a third one are put in a design, and one
more label nowhere. The grid, the label inside it, the one on the page and the one that stands
nowhere are made from templates. -/
def cataloguing : List Input :=
  placing 1 "Grid" none 0 "body" ++ placing 2 "Row" none 1 "rows" ++
    placing 3 "Cell" none 2 "cells" ++ placing 4 "Label" none 3 "content" ++
    placing 5 "Label" none 0 "body" ++ placing 6 "SimpleMasterPage" (some "front") 0 "pageSetup" ++
    placing 7 "Label" none 6 "pageHeader" ++ [.perform .empty (.create "Label" none)] ++
    [1, 4, 7, 8].map templating

def catalogue : Module :=
  blank.run cataloguing

theorem reachable_catalogue : catalogue.Reachable :=
  reachable_blank.run cataloguing

/-- An element is attached by its containers exactly if either walk from the root meets it. Both
walks from an element list all within it, each once and each behind its container, and are what the
loops over a stack and over a queue come to in the end. The one that goes down first takes the slots
in their order and keeps together what is within an element. -/
theorem Reachable.attachedness_agrees (h : m.Reachable) :
    (∀ x, m.document.tree.Ascends x (m.document.tree.ancestors x)) ∧
    (∀ x, m.document.tree.isAttached x = true ↔
      x ∈ m.document.tree.walk m.document.root) ∧
    (∀ x, m.document.tree.isAttached x = true ↔
      x ∈ m.document.tree.walkLevels m.document.root) ∧
    ∀ start e, m.document.get? start = some e →
      m.document.tree.Traverses start (m.document.tree.walk start) ∧
      m.document.tree.Traverses start (m.document.tree.walkLevels start) ∧
      Exhausts m.document.tree.walkStep onTop [start] (m.document.tree.walk start) ∧
      Exhausts m.document.tree.walkStep atEnd [start] (m.document.tree.walkLevels start) ∧
      m.document.tree.walk start =
        start :: e.slots.flatMap (fun s => s.contents.flatMap m.document.tree.walk) ∧
      ∀ x ∈ m.document.tree.walk start, m.document.tree.walk x <:+: m.document.tree.walk start := by
  have hf := h.sound.history.wellFormed.forest
  refine ⟨hf.ascends_ancestors, fun x => hf.mem_attached.symm, fun x => ?_, ?_⟩
  · rw [(Tree.perm_walkLevels _ _).mem_iff]
    exact hf.mem_attached.symm
  · intro start e he
    have hwalk := hf.walk_eq_cons (Tree.contains_of_get? he)
    rw [Tree.children_eq he, Element.children, List.flatMap_assoc] at hwalk
    exact ⟨hf.traverses_walk start, hf.traverses_walkLevels start, hf.exhausts_walk start,
      hf.exhausts_walkLevels start, hwalk, fun _ => hf.walk_infix⟩

/-- The label inside the grid comes before the other label if the walk goes down first, and behind
it level by level. -/
theorem attachedness_agrees_catalogue :
    catalogue.document.tree.Traverses ⟨0, 0⟩
      [⟨0, 0⟩, ⟨1, 0⟩, ⟨2, 0⟩, ⟨3, 0⟩, ⟨4, 0⟩, ⟨5, 0⟩, ⟨6, 0⟩, ⟨7, 0⟩] ∧
    catalogue.document.tree.Traverses ⟨0, 0⟩
      [⟨0, 0⟩, ⟨1, 0⟩, ⟨5, 0⟩, ⟨6, 0⟩, ⟨2, 0⟩, ⟨7, 0⟩, ⟨3, 0⟩, ⟨4, 0⟩] ∧
    ¬ (⟨8, 0⟩ : ElementId) ∈ catalogue.document.tree.walk ⟨0, 0⟩ := by
  have hdown : catalogue.document.tree.walk ⟨0, 0⟩ =
      [⟨0, 0⟩, ⟨1, 0⟩, ⟨2, 0⟩, ⟨3, 0⟩, ⟨4, 0⟩, ⟨5, 0⟩, ⟨6, 0⟩, ⟨7, 0⟩] := by decide +kernel
  have hlevels : catalogue.document.tree.walkLevels ⟨0, 0⟩ =
      [⟨0, 0⟩, ⟨1, 0⟩, ⟨5, 0⟩, ⟨6, 0⟩, ⟨2, 0⟩, ⟨7, 0⟩, ⟨3, 0⟩, ⟨4, 0⟩] := by decide +kernel
  have hroot : catalogue.document.root = ⟨0, 0⟩ := by decide +kernel
  have hdetached : ¬ catalogue.document.tree.isAttached ⟨8, 0⟩ = true := by decide +kernel
  obtain ⟨-, hattached, -, hwalks⟩ := reachable_catalogue.attachedness_agrees
  obtain ⟨e, he⟩ := Tree.contains_iff.1
    reachable_catalogue.sound.history.wellFormed.forest.root_contained
  obtain ⟨hfirst, hsecond, -⟩ := hwalks _ e he
  change catalogue.document.tree.root = ⟨0, 0⟩ at hroot
  rw [hroot, hdown] at hfirst
  rw [hroot, hlevels] at hsecond
  refine ⟨hfirst, hsecond, fun hmem => hdetached ((hattached ⟨8, 0⟩).2 ?_)⟩
  change _ ∈ catalogue.document.tree.walk catalogue.document.tree.root
  rwa [hroot]

/-- The items made from templates are listed in the order of the walk from the root, those in the
body first. They are the items below the two slots around which there is no other one but perhaps
the root, each is listed once, and a loop over a stack lists them. -/
theorem Reachable.templateItems_exact (h : m.Reachable) :
    m.document.templateItems =
      m.document.tree.outermostBelow Vocabulary.bodySlot ++
        m.document.tree.outermostBelow Vocabulary.pageSetupSlot ∧
    m.document.templateItems.Nodup ∧
    (∀ x, x ∈ m.document.templateItems ↔
      (m.document.tree.isBelow Vocabulary.bodySlot x = true ∨
        m.document.tree.isBelow Vocabulary.pageSetupSlot x = true) ∧
      m.document.tree.isTemplated x = true ∧
      ∀ outer ∈ m.document.tree.ancestors x, outer ≠ m.document.root →
        m.document.tree.isTemplated outer = false) ∧
    ∀ slot, Exhausts m.document.tree.templateStep onTop
      (m.document.tree.contents m.document.root slot) (m.document.tree.outermostBelow slot) := by
  have hf := h.sound.history.wellFormed.forest
  have hitems := hf.templateItems_eq [Vocabulary.bodySlot, Vocabulary.pageSetupSlot]
  have happend : m.document.templateItems =
      m.document.tree.outermostBelow Vocabulary.bodySlot ++
        m.document.tree.outermostBelow Vocabulary.pageSetupSlot := by
    rw [Document.templateItems, hitems, List.flatMap_cons, List.flatMap_singleton]
  refine ⟨happend, ?_, fun x => ?_, hf.exhausts_outermostBelow⟩
  · rw [Document.templateItems, hitems]
    exact hf.nodup_outermostBelow _ (by decide)
  · rw [happend, List.mem_append, hf.mem_outermostBelow, hf.mem_outermostBelow, ← or_and_right,
      Tree.isOutermost_iff]
    rfl

/-- The label inside the grid is passed over, and so is the one that stands nowhere. -/
theorem templateItems_exact_catalogue :
    catalogue.document.templateItems = [⟨1, 0⟩, ⟨7, 0⟩] ∧
    catalogue.document.tree.outermostBelow "body" = [⟨1, 0⟩] ∧
    catalogue.document.tree.isTemplated ⟨4, 0⟩ = true ∧
    ¬ (⟨4, 0⟩ : ElementId) ∈ catalogue.document.templateItems := by
  have hbody : catalogue.document.tree.outermostBelow "body" = [⟨1, 0⟩] := by decide +kernel
  have hpages : catalogue.document.tree.outermostBelow "pageSetup" = [⟨7, 0⟩] := by decide +kernel
  have hlabel : catalogue.document.tree.isTemplated ⟨4, 0⟩ = true := by decide +kernel
  have hitems : catalogue.document.templateItems = [⟨1, 0⟩, ⟨7, 0⟩] := by
    refine reachable_catalogue.templateItems_exact.1.trans ?_
    rw [Vocabulary.bodySlot, Vocabulary.pageSetupSlot, hbody, hpages]
    rfl
  exact ⟨hitems, hbody, hlabel, by rw [hitems]; decide⟩

theorem Sound.perform_cacheValues (hm : m.Sound) (hquiet : m.isNotifying = false)
    (hclosed : m.history.current = []) (files : Files) :
    m.perform files .cacheValues = ⟨.ok (.snapshot m.document.snapshot), m, none⟩ := by
  have hok : Command.cacheValues.action false files m.editor =
      .ok (.snapshot m.document.snapshot) m.editor := by
    obtain ⟨⟨document, ⟨limit, current, undo, redo⟩, announced⟩, listeners⟩ := m
    obtain rfl : current = [] := hclosed
    rfl
  rw [hm.perform_of_ok hquiet hok, hm.editor_eq, hm.silent]

/-- With no transaction open and outside all rounds, caching succeeds and changes nothing. There is
one entry for each attached element in the order of the walk from the root, found by the position of
the element, and it holds what the queries of that element answer. -/
theorem Reachable.cacheValues_exact (h : m.Reachable) (hquiet : m.isNotifying = false)
    (hclosed : m.history.current = []) (files : Files) :
    ∃ s cache, m.perform files .cacheValues = ⟨.ok (.snapshot s), m, none⟩ ∧
      m.document.valueCache = .ok cache ∧ cache.Holds s ∧
      s.map (·.1) = m.document.tree.attached ∧ m.document.tree.attached.Nodup ∧
      ∀ id, cache.get? id = s.find? id ∧
        (s.find? id).isSome = m.document.tree.isAttached id ∧
        ∀ entry, s.find? id = some entry → ∃ e style, m.document.get? id = some e ∧
          m.document.effectiveStyle id = .ok style ∧
          entry = ⟨e.typeName, e.name, style.map (·.1),
            (m.document.accessRule? id).map (·.expression)⟩ := by
  have hf := h.sound.history.wellFormed.forest
  obtain ⟨cache, hcache, hholds⟩ := Document.exists_valueCache hf
  refine ⟨m.document.snapshot, cache, ?_, hcache, hholds, Document.map_snapshot hf,
    hf.nodup_walk _, fun id => ⟨hholds.get?_eq id, Document.isSome_find?_snapshot hf id, ?_⟩⟩
  · exact h.sound.perform_cacheValues hquiet hclosed files
  · intro entry hentry
    rw [Document.find?_snapshot hf] at hentry
    split at hentry
    · exact Document.elementSnapshot?_eq_some hentry
    · cases hentry

/-- The label inside the grid has an entry at its place in the walk, the one that stands nowhere has
none. -/
theorem cacheValues_exact_catalogue :
    ∃ s cache, catalogue.perform .empty .cacheValues = ⟨.ok (.snapshot s), catalogue, none⟩ ∧
      catalogue.document.valueCache = .ok cache ∧ cache.position ⟨4, 0⟩ = some 4 ∧
      (cache.get? ⟨4, 0⟩).isSome = true ∧ cache.get? ⟨8, 0⟩ = none := by
  have hattached : catalogue.document.tree.isAttached ⟨4, 0⟩ = true := by decide +kernel
  have hdetached : catalogue.document.tree.isAttached ⟨8, 0⟩ = false := by decide +kernel
  have hplace : catalogue.document.tree.attached[4]? = some ⟨4, 0⟩ := by decide +kernel
  obtain ⟨s, cache, hperform, hcache, hholds, hwalk, -, hentries⟩ :=
    reachable_catalogue.cacheValues_exact (by decide +kernel)
      (List.isEmpty_iff.1 (by decide +kernel)) .empty
  refine ⟨s, cache, hperform, hcache, ?_, ?_, ?_⟩
  · rw [hholds.position, hwalk, hplace]
  · rw [(hentries _).1, (hentries _).2.1, hattached]
  · rw [(hentries _).1, ← Option.isNone_iff_eq_none, ← Option.not_isSome, (hentries _).2.1,
      hdetached]
    rfl

end ReportModel.Module
