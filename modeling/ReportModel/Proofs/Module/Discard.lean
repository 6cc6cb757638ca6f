import Mathlib.Data.List.TakeWhile
import ReportModel.Proofs.Module.Invariants
import ReportModel.Proofs.Module.Recovery

/-!
# Discarding elements

Discarding an element frees it and what is inside it, and forgets the revisions that cannot be
replayed without them. What can still be undone and redone does what it would have done anyway: a
module and the same module after a discard walk side by side, and differ only in what was freed.
-/

namespace ReportModel

open Edit Editor

structure Document.Without (d' d : Document) (freed : List ElementId) : Prop where
  there : ∀ x ∈ freed, d.tree.contains x = true
  gone : ∀ x ∈ freed, d'.tree.contains x = false
  kept : ∀ x, x ∉ freed → d'.get? x = d.get? x
  root : d'.root = d.root
  names : d'.tree.names = d.tree.names
  libraries : d'.libraries = d.libraries

theorem Document.without_eraseAll {d : Document} (hf : d.tree.Forest) (id : ElementId) :
    (d.eraseAll id).Without d (d.tree.walk id) where
  there _ hx := (hf.mem_walk.1 hx).1
  gone x hx := by
    have hnone : (d.eraseAll id).tree.get? x = none :=
      (Tree.get?_eraseAll ..).trans (if_pos hx)
    apply Bool.eq_false_iff.2
    intro hcontains
    obtain ⟨e, he⟩ := Tree.contains_iff.1 hcontains
    exact absurd (hnone.symm.trans he) (by simp)
  kept _ hx := (Tree.get?_eraseAll ..).trans (if_neg hx)
  root := rfl
  names := rfl
  libraries := rfl

/-- Nothing but undo and redo, and what happens to listeners. -/
def Input.Walks : Input → Prop
  | .perform _ command => command = .undo ∨ command = .redo
  | _ => True

namespace History

variable {ids : List ElementId} {revisions : List Revision} {r : Revision}

theorem forgetIn_prefix (ids : List ElementId) (revisions : List Revision) :
    forgetIn ids revisions <+: revisions :=
  List.takeWhile_prefix _

theorem not_touches_of_mem_forgetIn (hr : r ∈ forgetIn ids revisions) :
    r.touches ids = false := by
  simpa using List.mem_takeWhile_imp hr

/-- The revision behind those that are left speaks of what is to be forgotten. -/
theorem touches_of_forgetIn_append (h : forgetIn ids revisions ++ [r] <+: revisions) :
    r.touches ids = true := by
  obtain ⟨rest, hrest⟩ := h
  induction revisions with
  | nil => simp at hrest
  | cons first revisions ih =>
      cases hfirst : first.touches ids with
      | true =>
          have hempty : forgetIn ids (first :: revisions) = [] := by simp [forgetIn, hfirst]
          rw [hempty] at hrest
          obtain ⟨rfl, -⟩ := List.cons.inj hrest
          exact hfirst
      | false =>
          have hcons : forgetIn ids (first :: revisions) = first :: forgetIn ids revisions := by
            simp [forgetIn, hfirst]
          rw [hcons] at hrest
          exact ih (List.cons.inj hrest).2

end History

theorem Revision.touches_iff {r : Revision} {ids : List ElementId} :
    r.touches ids = true ↔ ∃ edit ∈ r.edits, ∃ x ∈ edit.elements, x ∈ ids := by
  simp [Revision.touches, Edit.touches_eq_any]

namespace Module

variable {m m' : Module} {id : ElementId} {freed : List ElementId} {r : Revision}
  {rest : List Revision}

def Succeeds (m : Module) : List Input → Prop
  | [] => True
  | input :: inputs =>
    (∀ files command, input = .perform files command →
      ∃ reply, (m.perform files command).result = .ok reply) ∧ (m.next input).Succeeds inputs

/-- A module walks behind another one, without what has been freed in it: it has the nearest of the
other one's revisions, and none of them speaks of what is gone. -/
structure Trails (m' m : Module) (id : ElementId) (freed : List ElementId) : Prop where
  sound : m.Sound
  sound' : m'.Sound
  listeners : m'.listeners = m.listeners
  closed : m.history.current = []
  canErase : m.document.tree.CanErase id
  walk : m.document.tree.walk id = freed
  document : m'.document = m.document.eraseAll id
  undo : m'.history.undo <+: m.history.undo
  redo : m'.history.redo <+: m.history.redo
  untouched : ∀ r ∈ m'.history.undo ++ m'.history.redo, r.touches freed = false

theorem Trails.without (h : Trails m' m id freed) : m'.document.Without m.document freed := by
  rw [h.document, ← h.walk]
  exact Document.without_eraseAll h.sound.history.wellFormed.forest id

/-- Edits that do not speak of what is freed lead both on alike. -/
private theorem Trails.replay (h : Trails m' m id freed) {edits : List Edit} {mid : Document}
    (hr : Reversible edits m.document mid) (hedits : ∀ edit ∈ edits, edit.touches freed = false)
    {past past' : History} (hm : Sound ⟨⟨mid, past, none⟩, m.listeners⟩)
    (hm' : Sound ⟨⟨applyAll edits m'.document, past', none⟩, m'.listeners⟩)
    (hclosed : past.current = []) (hundo : past'.undo <+: past.undo)
    (hredo : past'.redo <+: past.redo)
    (hpast : ∀ r ∈ past'.undo ++ past'.redo, r ∈ m'.history.undo ++ m'.history.redo) :
    Trails ⟨⟨applyAll edits m'.document, past', none⟩, m'.listeners⟩
      ⟨⟨mid, past, none⟩, m.listeners⟩ id freed := by
  rw [← h.walk] at hedits
  -- what is freed is as it was before and after the edits, so erasing it commutes with them
  obtain ⟨hmid, hwalk⟩ := hr.forth.canErase h.canErase hedits
  have hgone := (hr.forth.eraseAll h.canErase hedits).applyAll_eq
  rw [← h.document] at hgone
  exact ⟨hm, hm', h.listeners, hclosed, hmid, hwalk.trans h.walk, hgone, hundo, hredo,
    fun r hr => h.untouched r (hpast r hr)⟩

private theorem Trails.quiet (h : Trails m' m id freed) (hquiet : m'.isNotifying = false) :
    m.isNotifying = false := by
  rwa [isNotifying, ← h.listeners]

private theorem exists_eq_cons_of_prefix {all rest' : List Revision} (h : r :: rest' <+: all) :
    ∃ rest, all = r :: rest ∧ rest' <+: rest := by
  obtain ⟨behind, hbehind⟩ := h
  exact ⟨rest' ++ behind, hbehind.symm, List.prefix_append _ _⟩

theorem Trails.undo_step (h : Trails m' m id freed) (files : Files) {reply : Reply}
    (hok : (m'.perform files .undo).result = .ok reply) :
    (m.perform files .undo).result = .ok .done ∧
      Trails (m'.next (.perform files .undo)) (m.next (.perform files .undo)) id freed := by
  obtain ⟨hquiet', hcur', r, rest', hundo'⟩ := h.sound'.exists_undo_of_ok hok
  -- the revision that is nearest behind is the nearest in front too, and speaks of nothing freed
  obtain ⟨rest, hundo, hrest⟩ := exists_eq_cons_of_prefix (hundo' ▸ h.undo)
  obtain ⟨mid, hr, -⟩ := h.sound.history.exists_undo h.closed hundo
  have hmem : r ∈ m'.history.undo ++ m'.history.redo := by simp [hundo']
  have hedits := History.not_touches_of_mem_inverses (h.untouched r hmem)
  have hsound := h.sound.next (.perform files .undo)
  have hsound' := h.sound'.next (.perform files .undo)
  rw [Module.next] at hsound hsound'
  rw [Module.next, Module.next]
  rw [h.sound.perform_undo (h.quiet hquiet') files h.closed hundo, hr.revertAll_eq] at hsound ⊢
  rw [h.sound'.perform_undo hquiet' files hcur' hundo', revertAll_eq_applyAll] at hsound' ⊢
  refine ⟨rfl, h.replay hr.symm hedits hsound hsound' h.closed hrest ?_ ?_⟩
  · exact (List.prefix_cons_inj r).2 h.redo
  · intro other hother
    rw [hundo']
    simp only [List.mem_append, List.mem_cons] at hother ⊢
    tauto

theorem Trails.redo_step (h : Trails m' m id freed) (files : Files) {reply : Reply}
    (hok : (m'.perform files .redo).result = .ok reply) :
    (m.perform files .redo).result = .ok .done ∧
      Trails (m'.next (.perform files .redo)) (m.next (.perform files .redo)) id freed := by
  obtain ⟨hquiet', hcur', r, rest', hredo'⟩ := h.sound'.exists_redo_of_ok hok
  obtain ⟨rest, hredo, hrest⟩ := exists_eq_cons_of_prefix (hredo' ▸ h.redo)
  obtain ⟨mid, hr, -⟩ := h.sound.history.exists_redo h.closed hredo
  have hmem : r ∈ m'.history.undo ++ m'.history.redo := by simp [hredo']
  have hedits := History.not_touches_of_mem_edits (h.untouched r hmem)
  have hsound := h.sound.next (.perform files .redo)
  have hsound' := h.sound'.next (.perform files .redo)
  rw [Module.next] at hsound hsound'
  rw [Module.next, Module.next]
  rw [h.sound.perform_redo (h.quiet hquiet') files h.closed hredo, hr.applyAll_eq] at hsound ⊢
  rw [h.sound'.perform_redo hquiet' files hcur' hredo'] at hsound' ⊢
  refine ⟨rfl, h.replay hr hedits hsound hsound' h.closed ?_ hrest ?_⟩
  · exact (List.prefix_cons_inj r).2 h.undo
  · intro other hother
    rw [hredo']
    simp only [List.mem_append, List.mem_cons] at hother ⊢
    tauto

theorem Trails.step (h : Trails m' m id freed) {input : Input} (hwalks : input.Walks)
    (hok : ∀ files command, input = .perform files command →
      ∃ reply, (m'.perform files command).result = .ok reply) :
    (∀ files command, input = .perform files command →
      ∃ reply, (m.perform files command).result = .ok reply) ∧
    Trails (m'.next input) (m.next input) id freed := by
  -- listeners have no part in what is undone or redone
  have htold : ∀ l : Listeners,
      Trails { m' with listeners := l } { m with listeners := l } id freed := fun l =>
    { h with
      sound := h.sound.withListeners l
      sound' := h.sound'.withListeners l
      listeners := rfl }
  cases input with
  | perform files command =>
      obtain ⟨reply, hreply⟩ := hok files command rfl
      rcases hwalks with rfl | rfl
      · obtain ⟨hdone, hnext⟩ := h.undo_step files hreply
        refine ⟨?_, hnext⟩
        rintro _ _ ⟨⟩
        exact ⟨_, hdone⟩
      · obtain ⟨hdone, hnext⟩ := h.redo_step files hreply
        refine ⟨?_, hnext⟩
        rintro _ _ ⟨⟩
        exact ⟨_, hdone⟩
  | addListener =>
      refine ⟨by simp, ?_⟩
      simp only [Module.next, Module.addListener, h.listeners]
      exact htold _
  | removeListener l =>
      refine ⟨by simp, ?_⟩
      simp only [Module.next, Module.removeListener, h.listeners]
      exact htold _
  | beginRound =>
      refine ⟨by simp, ?_⟩
      simp only [Module.next, h.listeners]
      exact htold _
  | endRound =>
      refine ⟨by simp, ?_⟩
      simp only [Module.next, h.listeners]
      exact htold _

theorem Trails.run (h : Trails m' m id freed) {inputs : List Input}
    (hwalks : ∀ input ∈ inputs, input.Walks) (hok : m'.Succeeds inputs) :
    m.Succeeds inputs ∧ Trails (m'.run inputs) (m.run inputs) id freed := by
  induction inputs generalizing m m' with
  | nil => exact ⟨trivial, h⟩
  | cons input inputs ih =>
      -- both modules change, and the distance between them stays
      obtain ⟨hdone, hnext⟩ := h.step (hwalks input List.mem_cons_self) hok.1
      obtain ⟨hrest, hlast⟩ := ih hnext (fun i hi => hwalks i (List.mem_cons_of_mem _ hi)) hok.2
      exact ⟨⟨hdone, hrest⟩, hlast⟩

theorem Sound.perform_discard (hm : m.Sound) {files : Files} {reply : Reply}
    (hok : (m.perform files (.discard id)).result = .ok reply) :
    m.history.current = [] ∧ m.document.tree.CanErase id ∧
      (m.perform files (.discard id)).module = { m with
        editor := ⟨m.document.eraseAll id,
          m.history.forget (m.document.tree.walk id), none⟩ } := by
  have hdone : ((Command.discard id).action false files).Yields m.editor
      (fun _ ed' => m.editor.history.current = [] ∧ m.editor.document.tree.CanErase id ∧
        ed' = { m.editor with
          document := m.editor.document.eraseAll id
          history := m.editor.history.forget (m.editor.document.tree.walk id) })
      (· = m.editor) := Action.yields_bind.2 (Action.yields_discard id)
  obtain ⟨ed, hresult, hmodule⟩ := hm.exists_of_ok hok
  obtain ⟨hcur, hx, rfl⟩ := hdone.of_ok hresult
  exact ⟨hcur, hx, hmodule⟩

theorem Sound.trails_discard (hm : m.Sound) {files : Files} {reply : Reply}
    (hok : (m.perform files (.discard id)).result = .ok reply) :
    Trails (m.perform files (.discard id)).module m id (m.document.tree.walk id) := by
  have hsound := hm.next (.perform files (.discard id))
  obtain ⟨hcur, hx, hmodule⟩ := hm.perform_discard hok
  rw [Module.next] at hsound
  rw [hmodule] at hsound ⊢
  refine ⟨hm, hsound, rfl, hcur, hx, rfl, rfl, History.forgetIn_prefix _ _,
    History.forgetIn_prefix _ _, ?_⟩
  intro r hr
  rcases List.mem_append.1 hr with hr | hr
  · exact History.not_touches_of_mem_forgetIn hr
  · exact History.not_touches_of_mem_forgetIn hr

/-- Some revisions are the nearest of others, up to the first that speaks of what is gone. -/
structure Nearest (kept all : List Revision) (freed : List ElementId) : Prop where
  nearest : kept <+: all
  untouched : ∀ r ∈ kept, ∀ edit ∈ r.edits, ∀ x ∈ edit.elements, x ∉ freed
  longest : ∀ r, kept ++ [r] <+: all → ∃ edit ∈ r.edits, ∃ x ∈ edit.elements, x ∈ freed

theorem nearest_forgetIn (freed : List ElementId) (revisions : List Revision) :
    Nearest (History.forgetIn freed revisions) revisions freed where
  nearest := History.forgetIn_prefix _ _
  untouched r hr edit hedit x hx hfreed := by
    have htouches := Revision.touches_iff.2 ⟨edit, hedit, x, hx, hfreed⟩
    rw [History.not_touches_of_mem_forgetIn hr] at htouches
    cases htouches
  longest _ hr := Revision.touches_iff.1 (History.touches_of_forgetIn_append hr)

/-- A discard frees an element with what is inside it and nothing else, and what can be undone and
redone after it does what it would have done without it. -/
theorem Reachable.discard_exact (h : m.Reachable) (files : Files) (id : ElementId) {reply : Reply}
    (hok : (m.perform files (.discard id)).result = .ok reply) {after : Module}
    (hafter : (m.perform files (.discard id)).module = after)
    (hfreed : m.document.tree.walk id = freed) :
    id ∈ freed ∧
    (∀ x, x ∈ freed ↔ m.document.tree.contains x = true ∧
      m.document.tree.isWithin x id = true) ∧
    after.document.Without m.document freed ∧ after.history.current = m.history.current ∧
    Nearest after.history.undo m.history.undo freed ∧
    Nearest after.history.redo m.history.redo freed ∧
    ∀ inputs, (∀ input ∈ inputs, Input.Walks input) → after.Succeeds inputs →
      m.Succeeds inputs ∧ (after.run inputs).document.Without (m.run inputs).document freed := by
  have hm := h.sound
  have hf := hm.history.wellFormed.forest
  have htrails := hm.trails_discard hok
  obtain ⟨hcur, hx, hmodule⟩ := hm.perform_discard hok
  rw [hafter] at htrails hmodule
  subst hfreed
  refine ⟨hx.mem_walk hf, fun x => hf.mem_walk, htrails.without, ?_, ?_, ?_, ?_⟩
  · rw [hmodule]
    rfl
  · rw [hmodule]
    exact nearest_forgetIn _ _
  · rw [hmodule]
    exact nearest_forgetIn _ _
  · intro inputs hwalks hsucceeds
    obtain ⟨hdone, hlast⟩ := htrails.run hwalks hsucceeds
    exact ⟨hdone, hlast.without⟩

/-- A label that is in no place is discarded from a design with another one, and then the other one
is taken out of the design. -/
theorem discard_spare :
    let spare := labelled.run [.perform .empty (.create "Label" none)]
    let after := (spare.perform .empty (.discard ⟨2, 0⟩)).module
    (after.run [.perform .empty .undo]).document.Without
      (spare.run [.perform .empty .undo]).document [⟨2, 0⟩] := by
  intro spare after
  have hspare : spare.Reachable := reachable_labelled.run _
  have hok : (spare.perform .empty (.discard ⟨2, 0⟩)).result = .ok .done := rfl
  have hundo : after.Succeeds [.perform .empty .undo] := by
    refine ⟨?_, trivial⟩
    rintro _ _ ⟨⟩
    exact ⟨.done, rfl⟩
  have hafter : (spare.perform .empty (.discard ⟨2, 0⟩)).module = after := rfl
  have hfreed : spare.document.tree.walk ⟨2, 0⟩ = [⟨2, 0⟩] := by decide +kernel
  have hexact := hspare.discard_exact .empty ⟨2, 0⟩ hok hafter hfreed
  refine (hexact.2.2.2.2.2.2 _ ?_ hundo).2
  simp [Input.Walks]

end Module

end ReportModel
