import Mathlib.Data.List.Infix
import ReportModel.Proofs.Module.Transaction

/-!
# Taking back and making again

A command that fails, a rollback and an undo leave a document as it was before, apart from elements
created since then, which stand nowhere and hold nothing. Undo and redo walk exactly over what was
there before.
-/

namespace ReportModel

open Edit Editor

/-- A document is an earlier one again, apart from elements created since, which are detached, empty
and named as they were created. -/
structure Document.ReturnsTo (d' d : Document) (created : List Creation) : Prop where
  exactly : d' = d.createAll created
  kept : ∀ {x e}, d.get? x = some e → d'.get? x = some e
  fresh : ∀ {x e}, d.get? x = none → d'.get? x = some e → d'.tree.isAttached x = false ∧
    ∃ c ∈ created, e = Element.create d.tree.dictionary c.typeName c.name
  names : d'.tree.names = d.tree.names
  libraries : d'.libraries = d.libraries

namespace Document

variable {d : Document} {x : ElementId} {e : Element}

theorem get?_createAll_of_get? (h : d.get? x = some e) (cs : List Creation) :
    (d.createAll cs).get? x = some e := by
  induction cs generalizing d with
  | nil => exact h
  | cons c cs ih => exact ih (Tree.get?_create_of_get? h)

theorem exists_of_get?_createAll {cs : List Creation} (hx : d.get? x = none)
    (h : (d.createAll cs).get? x = some e) :
    ∃ c ∈ cs, e = Element.create d.tree.dictionary c.typeName c.name := by
  induction cs generalizing d with
  | nil =>
      rw [createAll, List.foldl_nil, hx] at h
      cases h
  | cons c cs ih =>
      cases hc : (d.create c).get? x with
      | none =>
          obtain ⟨c', hc', he⟩ := ih hc h
          exact ⟨c', List.mem_cons_of_mem _ hc', he⟩
      | some e' =>
          have hkept := get?_createAll_of_get? hc cs
          obtain rfl := Option.some.inj (h.symm.trans hkept)
          have hcreate : (d.create c).get? x = _ := Tree.get?_create ..
          rw [hc] at hcreate
          split at hcreate
          · exact ⟨c, List.mem_cons_self, Option.some.inj hcreate⟩
          · exact absurd (hcreate.trans hx) (by simp)

theorem isAttached_createAll (hwf : d.tree.WellFormed) (cs : List Creation) (x : ElementId) :
    (d.createAll cs).tree.isAttached x = d.tree.isAttached x := by
  induction cs generalizing d with
  | nil => rfl
  | cons c cs ih =>
      have hcreate : (d.create c).tree.WellFormed := hwf.create _ _
      exact (ih hcreate).trans (hwf.forest.isAttached_create x)

theorem returnsTo_createAll (hwf : d.tree.WellFormed) (cs : List Creation) :
    (d.createAll cs).ReturnsTo d cs where
  exactly := rfl
  kept h := get?_createAll_of_get? h cs
  fresh {x e} hx h := by
    refine ⟨?_, exists_of_get?_createAll hx h⟩
    rw [isAttached_createAll hwf]
    apply Bool.eq_false_iff.2
    intro hattached
    obtain ⟨e', he'⟩ := Tree.contains_iff.1 (Tree.Forest.contained_of_isAttached hattached)
    exact absurd (hx.symm.trans he') (by simp)
  names := by
    induction cs generalizing d with
    | nil => rfl
    | cons c cs ih => exact ih (hwf.create _ _)
  libraries := by
    induction cs generalizing d with
    | nil => rfl
    | cons c cs ih => exact ih (hwf.create _ _)

end Document

namespace Module

variable {m : Module} {r : Revision} {rest outer : List Revision} {listeners : Listeners}

theorem Sound.withListeners (hm : m.Sound) (listeners : Listeners) :
    ({ m with listeners } : Module).Sound :=
  ⟨hm.history, hm.silent⟩

theorem not_notifying_of_ok {files : Files} {command : Command} {reply : Reply}
    (h : (m.perform files command).result = .ok reply) : m.isNotifying = false := by
  cases hnotifying : m.isNotifying with
  | false => rfl
  | true =>
      rw [perform_of_notifying hnotifying] at h
      cases h

theorem Sound.exists_of_ok (hm : m.Sound) {files : Files} {command : Command} {reply : Reply}
    (h : (m.perform files command).result = .ok reply) :
    ∃ ed, command.action false files m.editor = .ok reply ed ∧
      (m.perform files command).module = { m with editor := { ed with announced := none } } := by
  have hquiet := not_notifying_of_ok h
  cases hresult : command.action false files m.editor with
  | ok result ed =>
      rw [hm.perform_of_ok hquiet hresult] at h ⊢
      obtain rfl := Except.ok.inj h
      exact ⟨ed, rfl, rfl⟩
  | error error ed =>
      rw [hm.perform_eq hquiet, hresult] at h
      cases h

theorem Sound.exists_undo_of_ok (hm : m.Sound) {files : Files} {reply : Reply}
    (h : (m.perform files .undo).result = .ok reply) :
    m.isNotifying = false ∧ m.history.current = [] ∧ ∃ r rest, m.history.undo = r :: rest := by
  have hquiet := not_notifying_of_ok h
  refine ⟨hquiet, ?_⟩
  rw [hm.perform_eq hquiet] at h
  obtain ⟨⟨document, ⟨limit, current, undo, redo⟩, announced⟩, listeners⟩ := m
  cases current with
  | cons => cases h
  | nil =>
      refine ⟨rfl, ?_⟩
      cases undo with
      | nil => cases h
      | cons r rest => exact ⟨r, rest, rfl⟩

theorem Sound.exists_redo_of_ok (hm : m.Sound) {files : Files} {reply : Reply}
    (h : (m.perform files .redo).result = .ok reply) :
    m.isNotifying = false ∧ m.history.current = [] ∧ ∃ r rest, m.history.redo = r :: rest := by
  have hquiet := not_notifying_of_ok h
  refine ⟨hquiet, ?_⟩
  rw [hm.perform_eq hquiet] at h
  obtain ⟨⟨document, ⟨limit, current, undo, redo⟩, announced⟩, listeners⟩ := m
  cases current with
  | cons => cases h
  | nil =>
      refine ⟨rfl, ?_⟩
      cases redo with
      | nil => cases h
      | cons r rest => exact ⟨r, rest, rfl⟩

theorem Sound.undo_then_redo (hm : m.Sound) {files : Files} {reply : Reply}
    (h : (m.perform files .undo).result = .ok reply) (hround : listeners.round = none)
    (files' : Files) {undone : Module}
    (hundone : { (m.perform files .undo).module with listeners } = undone) :
    (undone.perform files' .redo).result = .ok .done ∧
      (undone.perform files' .redo).module = { m with listeners } := by
  obtain ⟨hquiet, hcur, r, rest, hundo⟩ := hm.exists_undo_of_ok h
  obtain ⟨mid, hr, -⟩ := hm.history.exists_undo hcur hundo
  have hsound := (hm.next (.perform files .undo)).withListeners listeners
  rw [Module.next, hundone] at hsound
  rw [hm.perform_undo hquiet files hcur hundo, hr.revertAll_eq] at hundone
  subst hundone
  have hready := congrArg Option.isSome hround
  rw [hsound.perform_redo hready files' hcur rfl]
  refine ⟨rfl, ?_⟩
  have heditor : m.editor = ⟨m.document, { m.history with undo := r :: rest }, none⟩ := by
    rw [← hundo, ← hm.silent]
    rfl
  rw [heditor, ← hr.applyAll_eq]
  rfl

theorem Sound.redo_then_undo (hm : m.Sound) {files : Files} {reply : Reply}
    (h : (m.perform files .redo).result = .ok reply) (hround : listeners.round = none)
    (files' : Files) {redone : Module}
    (hredone : { (m.perform files .redo).module with listeners } = redone) :
    (redone.perform files' .undo).result = .ok .done ∧
      (redone.perform files' .undo).module = { m with listeners } := by
  obtain ⟨hquiet, hcur, r, rest, hredo⟩ := hm.exists_redo_of_ok h
  obtain ⟨mid, hr, -⟩ := hm.history.exists_redo hcur hredo
  have hsound := (hm.next (.perform files .redo)).withListeners listeners
  rw [Module.next, hredone] at hsound
  rw [hm.perform_redo hquiet files hcur hredo, hr.applyAll_eq] at hredone
  subst hredone
  have hready := congrArg Option.isSome hround
  rw [hsound.perform_undo hready files' hcur rfl]
  refine ⟨rfl, ?_⟩
  have heditor : m.editor = ⟨m.document, { m.history with redo := r :: rest }, none⟩ := by
    rw [← hredo, ← hm.silent]
    rfl
  rw [heditor, ← hr.revertAll_eq]
  rfl

theorem Sound.perform_of_error (hm : m.Sound) {files : Files} {command : Command}
    {error : DesignError} (h : (m.perform files command).result = .error error) :
    m.perform files command = ⟨.error error,
      { m with editor := m.editor.grown (m.created (.perform files command)) }, none⟩ := by
  rcases hm.perform_cases files command with ⟨-, reply, ed, -, heq⟩ | ⟨error', cs, hcs, heq⟩
  · rw [heq] at h
    cases h
  · have hnext : m.next (.perform files command) = { m with editor := m.editor.grown cs } :=
      congrArg (·.module) heq
    have hcreated : m.created (.perform files command) = cs := by
      apply created_eq hcs
      rw [hnext]
      exact Document.size_createAll _ _
    rw [heq] at h
    cases h
    rw [heq, hcreated]

/-- An undo, once no round of notifications is going on, leads back to a document, and nothing that
is there is freed by it. -/
def UndoReturnsTo (m : Module) (start : Document) (created : List Creation) : Prop :=
  ∀ listeners files back, listeners.round = none →
    ({ m with listeners } : Module).perform files .undo = back →
    back.result = .ok .done ∧ back.module.document.ReturnsTo start created ∧
      ∀ x, back.module.document.tree.contains x = m.document.tree.contains x

theorem Sound.undoReturnsTo (hm : m.Sound) {start : Document} {created : List Creation}
    (hwf : start.tree.WellFormed) (hcur : m.history.current = [])
    (hundo : m.history.undo = r :: rest)
    (hr : Reversible r.edits (start.createAll created) m.document) :
    m.UndoReturnsTo start created := by
  intro listeners files back hround hback
  have hready := congrArg Option.isSome hround
  rw [(hm.withListeners listeners).perform_undo hready files hcur hundo] at hback
  subst hback
  have hrevert : revertAll r.edits m.document = start.createAll created := hr.revertAll_eq
  have hreturns := Document.returnsTo_createAll hwf created
  rw [← hrevert] at hreturns
  refine ⟨rfl, hreturns, fun x => ?_⟩
  rw [hr.forth.contains_eq, ← hrevert]
  rfl

/-- A command outside all transactions that is announced as a commit has made a revision. -/
theorem Sound.undoReturnsTo_command (hm : m.Sound) {files : Files} {command : Command}
    {event : Event} (hcur : m.history.current = [])
    (hevent : (m.perform files command).event = some event) (hkind : event.kind = .commit)
    (hchanges : event.changes ≠ []) :
    (m.next (.perform files command)).UndoReturnsTo m.document
      (m.created (.perform files command)) := by
  have hsound := hm.next (.perform files command)
  rcases hm.perform_cases files command with ⟨-, reply, ed, hstep, heq⟩ | ⟨error, cs, -, heq⟩
  · have hnext : m.next (.perform files command) =
        { m with editor := { ed with announced := none } } := congrArg (·.module) heq
    rw [heq] at hevent
    obtain ⟨r, hr, rfl⟩ := hstep.exists_absorbs hcur hm.silent hevent hkind
    have hedits : r.edits ≠ [] := by
      intro hnil
      rw [Revision.event, hnil] at hchanges
      exact hchanges rfl
    obtain ⟨hnone, rest, hundo⟩ := History.exists_undo_absorb hcur hedits
    have hcreated : m.created (.perform files command) = command.creations := by
      apply created_eq List.prefix_rfl
      rw [hnext]
      exact hr.document.forth.size_eq.trans (Document.size_createAll _ _)
    rw [hcreated]
    rw [hnext] at hsound ⊢
    apply hsound.undoReturnsTo hm.history.wellFormed
    · exact (congrArg (·.current) hr.history).trans hnone
    · exact (congrArg (·.undo) hr.history).trans hundo
    · exact hr.document
  · rw [heq] at hevent
    cases hevent

/-- The commit of an outermost transaction that changed something is undone to its start. -/
theorem Sound.undoReturnsTo_commit (hm : m.Sound) (hquiet : m.isNotifying = false)
    {start : Document} {created : List Creation} (hwf : start.tree.WellFormed)
    (hcur : m.history.current = [r]) (hedits : r.edits ≠ [])
    (hr : Reversible r.edits (start.createAll created) m.document) (files : Files) :
    (m.perform files .commit).result = .ok .done ∧
      (m.perform files .commit).module.UndoReturnsTo start created := by
  have hsound := hm.next (.perform files .commit)
  rw [Module.next] at hsound
  rw [hm.perform_commit hquiet files hcur] at hsound ⊢
  refine ⟨rfl, ?_⟩
  have hclosed : ({ m.history with current := [] } : History).current = [] := rfl
  obtain ⟨hnone, rest, hundo⟩ := History.exists_undo_absorb hclosed hedits
  exact hsound.undoReturnsTo hwf hnone hundo hr

/-- A command that fails, and a rollback, leave what was there before as it was. -/
theorem Reachable.failure_atomic (h : m.Reachable) :
    (∀ files command error, (m.perform files command).result = .error error →
      ∀ failed, (m.perform files command).module = failed →
        failed.document.ReturnsTo m.document (m.created (.perform files command)) ∧
        failed.history = m.history ∧ failed.listeners = m.listeners ∧
        (m.perform files command).event = none ∧
        ∀ error' ed, command.action false files m.editor = .error error' ed → ed.announced = none) ∧
    -- a transaction that stays open from its start to its rollback
    (∀ files label inputs last, m.isNotifying = false →
      (∀ before, before <+: inputs → m.history.depth <
        (m.run (.perform files (.start label) :: before)).history.depth) →
      m.run (.perform files (.start label) :: inputs) = last →
      last.history.depth = m.history.depth + 1 → last.isNotifying = false →
      ∀ files' back, last.perform files' .rollback = back →
        back.result = .ok .done ∧
        back.module.document.ReturnsTo m.document
          (m.createdBy (.perform files (.start label) :: inputs)) ∧
        back.module.history = { last.history with current := m.history.current } ∧
        back.module.listeners = last.listeners ∧ back.event = none) := by
  have hm := h.sound
  have hwf := hm.history.wellFormed
  constructor
  · intro files command error herror failed hfailed
    have hperform := hm.perform_of_error herror
    rw [hperform] at hfailed
    subst hfailed
    refine ⟨Document.returnsTo_createAll hwf _, rfl, rfl, ?_, ?_⟩
    · rw [hperform]
    · intro error' ed hresult
      obtain ⟨cs, -, rfl⟩ := (command.steps_action files hwf).of_error hresult
      exact hm.silent
  · intro files label inputs last hquiet hstay hlast hdepth hready files' back hback
    obtain ⟨hsound, r, hcur, hr⟩ := hm.exists_last hquiet hstay hlast hdepth
    rw [hsound.perform_rollback hready files' hcur, hr.revertAll_eq] at hback
    subst hback
    exact ⟨rfl, Document.returnsTo_createAll hwf _, rfl, rfl, rfl⟩

private theorem staysOpen_labelling : ∀ before, before <+: labelling →
    0 < (blank.run (.perform .empty (.start "insert") :: before)).history.depth := by
  intro before hprefix
  have hall : ∀ before ∈ labelling.inits,
      0 < (blank.run (.perform .empty (.start "insert") :: before)).history.depth := by
    decide +kernel
  exact hall before ((List.mem_inits _ _).2 hprefix)

theorem failure_labelled :
    (labelled.perform .empty (.add ⟨1, 0⟩ ⟨⟨0, 0⟩, "body"⟩ none)).event = none ∧
    ((blank.run (.perform .empty (.start "insert") :: labelling)).perform .empty
      .rollback).module.document.ReturnsTo blank.document [⟨"Label", some "total"⟩] := by
  have hfail := reachable_labelled.failure_atomic.1 .empty
    (.add ⟨1, 0⟩ ⟨⟨0, 0⟩, "body"⟩ none) _ rfl _ rfl
  have hback := reachable_blank.failure_atomic.2 .empty "insert" labelling _ rfl
    staysOpen_labelling rfl rfl rfl .empty _ rfl
  have hcreated : blank.createdBy (.perform .empty (.start "insert") :: labelling) =
      [⟨"Label", some "total"⟩] := by decide +kernel
  rw [hcreated] at hback
  exact ⟨hfail.2.2.2.1, hback.2.1⟩

/-- Undo and redo are an exact walk over past states, and no redo drops a revision. -/
theorem Reachable.undo_redo_exact (h : m.Reachable) :
    (∀ files reply listeners undone, (m.perform files .undo).result = .ok reply →
      { (m.perform files .undo).module with listeners } = undone → listeners.round = none →
      ∀ files', (undone.perform files' .redo).result = .ok .done ∧
        (undone.perform files' .redo).module = { m with listeners }) ∧
    (∀ files reply listeners redone, (m.perform files .redo).result = .ok reply →
      { (m.perform files .redo).module with listeners } = redone → listeners.round = none →
      ∀ files', (redone.perform files' .undo).result = .ok .done ∧
        (redone.perform files' .undo).module = { m with listeners }) ∧
    -- undoing an operation that was a transaction of its own
    (∀ files command event, m.history.current = [] →
      (m.perform files command).event = some event → event.kind = .commit → event.changes ≠ [] →
      (m.perform files command).module.UndoReturnsTo m.document
        (m.created (.perform files command))) ∧
    -- undoing a transaction that stayed open from its start to its commit
    (∀ files label inputs last r, m.history.current = [] → m.isNotifying = false →
      (∀ before, before <+: inputs →
        0 < (m.run (.perform files (.start label) :: before)).history.depth) →
      m.run (.perform files (.start label) :: inputs) = last →
      last.history.current = [r] → r.edits ≠ [] → last.isNotifying = false →
      ∀ files', (last.perform files' .commit).result = .ok .done ∧
        (last.perform files' .commit).module.UndoReturnsTo m.document
          (m.createdBy (.perform files (.start label) :: inputs))) ∧
    (m.history.limit ≠ 0 → m.history.undo.length + m.history.redo.length ≤ m.history.limit) ∧
    (∀ files reply redone, (m.perform files .redo).result = .ok reply →
      (m.perform files .redo).module = redone →
      ∃ r, m.history.redo = r :: redone.history.redo ∧
        redone.history.undo = r :: m.history.undo) := by
  have hm := h.sound
  refine ⟨?_, ?_, ?_, ?_, hm.history.bounded, ?_⟩
  · intro files reply listeners undone hok hundone hround files'
    exact hm.undo_then_redo hok hround files' hundone
  · intro files reply listeners redone hok hredone hround files'
    exact hm.redo_then_undo hok hround files' hredone
  · intro files command event hcur hevent hkind hchanges
    exact hm.undoReturnsTo_command hcur hevent hkind hchanges
  · intro files label inputs last r hcur hquiet hstay hlast hlastcur hedits hready files'
    have hdepth : m.history.depth = 0 := congrArg List.length hcur
    have hlastdepth : last.history.depth = m.history.depth + 1 := by
      rw [hdepth]
      exact congrArg List.length hlastcur
    rw [← hdepth] at hstay
    obtain ⟨hsound, r', hcur', hr⟩ := hm.exists_last hquiet hstay hlast hlastdepth
    obtain ⟨rfl, -⟩ := List.cons.inj (hlastcur.symm.trans hcur')
    exact hsound.undoReturnsTo_commit hready hm.history.wellFormed hlastcur hedits hr files'
  · intro files reply redone hok hredone
    obtain ⟨hquiet, hcur, r, rest, hredo⟩ := hm.exists_redo_of_ok hok
    rw [hm.perform_redo hquiet files hcur hredo] at hredone
    subst hredone
    exact ⟨r, hredo, rfl⟩

theorem undo_redo_labelled :
    ((labelled.perform .empty .undo).module.perform .empty .redo).module = labelled ∧
    ((blank.run (.perform .empty (.start "insert") :: labelling)).perform .empty
      .commit).module.UndoReturnsTo blank.document [⟨"Label", some "total"⟩] := by
  have hwalk := reachable_labelled.undo_redo_exact.1 .empty .done {} _ rfl rfl rfl .empty
  have hcommit := reachable_blank.undo_redo_exact.2.2.2.1 .empty "insert" labelling _ _ rfl rfl
    staysOpen_labelling rfl rfl (List.cons_ne_nil _ _) rfl .empty
  have hcreated : blank.createdBy (.perform .empty (.start "insert") :: labelling) =
      [⟨"Label", some "total"⟩] := by decide +kernel
  rw [hcreated] at hcommit
  exact ⟨hwalk.2, hcommit.2⟩

end Module

end ReportModel
