import ReportModel.Proofs.Editor.Effects
import ReportModel.Proofs.Module.Rounds

/-!
# Grouping edits

Calls made in a transaction do what they do without it. The two runs go in lockstep: their documents
are the same, the transactions opened by the calls hold the same edits, and what one run has added
to the revisions that can be undone, the other has in the transaction around.
-/

namespace ReportModel

open Edit Editor

/-- A command with the files that it reads, and what the listeners do when it is announced. -/
structure Call where
  visits : ListenerId → Event → Visit
  files : Files
  command : Command

/-- Calls that edit and that close the transactions they open, and as many more as are open
already. -/
inductive Call.Balanced : Nat → List Call → Prop
  | nil : Balanced 0 []
  | start {n : Nat} {c : Call} {rest : List Call} {label : String} (hc : c.command = .start label)
    (h : Balanced (n + 1) rest) : Balanced n (c :: rest)
  | commit {n : Nat} {c : Call} {rest : List Call} (hc : c.command = .commit)
    (h : Balanced n rest) : Balanced (n + 1) (c :: rest)
  | rollback {n : Nat} {c : Call} {rest : List Call} (hc : c.command = .rollback)
    (h : Balanced n rest) : Balanced (n + 1) (c :: rest)
  | edit {n : Nat} {c : Call} {rest : List Call} (hc : c.command.isEdit = true)
    (h : Balanced n rest) : Balanced n (c :: rest)

/-- How many revisions a command adds: one, if a commit is announced that changes something. -/
def Outcome.added (outcome : Outcome) : Nat :=
  match outcome.event with
  | some event => if event.kind = .commit ∧ event.changes ≠ [] then 1 else 0
  | none => 0

theorem Outcome.added_of_closed {outcome : Outcome} {stack : List Revision} {r : Revision}
    (h : outcome.event = if stack = [] then some (r.event .commit) else none) :
    outcome.added = if stack = [] ∧ r.edits ≠ [] then 1 else 0 := by
  rw [added, h]
  by_cases hstack : stack = []
  · simp [hstack, Revision.event]
  · simp [hstack]

namespace Module

def calls : Module → List Call → List (Except DesignError Reply) × Module
  | m, [] => ([], m)
  | m, c :: rest =>
    let (result, after) := m.call c.visits c.files c.command
    let (results, last) := after.calls rest
    (result :: results, last)

def added : Module → List Call → Nat
  | _, [] => 0
  | m, c :: rest =>
    (m.perform c.files c.command).added + added (m.call c.visits c.files c.command).2 rest

theorem calls_append (m : Module) (l l' : List Call) : m.calls (l ++ l') =
    ((m.calls l).1 ++ ((m.calls l).2.calls l').1, ((m.calls l).2.calls l').2) := by
  induction l generalizing m with
  | nil => rfl
  | cons c rest ih => simp only [List.cons_append, calls, ih]

end Module

namespace History

variable {h : History}

/-- As many of some revisions as the limit leaves. -/
def capped (h : History) (revisions : List Revision) : List Revision :=
  if h.limit = 0 then revisions else revisions.take h.limit

/-- The history after some revisions have been made, the last one first. -/
def pushAll (h : History) (units : List Revision) : History :=
  units.foldr (fun r h => { h with redo := [] }.pushUndo r) h

theorem limit_pushAll (h : History) (units : List Revision) :
    (h.pushAll units).limit = h.limit := by
  induction units with
  | nil => rfl
  | cons r units ih => exact ih

theorem current_pushAll (h : History) (units : List Revision) :
    (h.pushAll units).current = h.current := by
  induction units with
  | nil => rfl
  | cons r units ih => exact ih

theorem capped_cons_capped (h : History) (r : Revision) (revisions : List Revision) :
    h.capped (r :: h.capped revisions) = h.capped (r :: revisions) := by
  simp only [capped]
  split
  · rfl
  · next hlimit =>
    obtain ⟨n, hn⟩ := Nat.exists_eq_succ_of_ne_zero hlimit
    simp only [hn, List.take_succ_cons, List.take_take]
    rw [Nat.min_eq_left (Nat.le_succ n)]

theorem undo_pushAll (hbound : h.limit ≠ 0 → h.undo.length ≤ h.limit) (units : List Revision) :
    (h.pushAll units).undo = h.capped (units ++ h.undo) := by
  induction units with
  | nil =>
      simp only [pushAll, List.foldr_nil, List.nil_append, capped]
      split
      · rfl
      · next hlimit => rw [List.take_of_length_le (hbound hlimit)]
  | cons r units ih =>
      have hpush : (h.pushAll (r :: units)).undo = h.capped (r :: (h.pushAll units).undo) := by
        rw [capped, ← limit_pushAll h units]
        rfl
      rw [hpush, ih, capped_cons_capped, List.cons_append]

/-- As long as the limit is kept to, what is made goes on top. -/
theorem exists_undo_pushAll (hbound : h.limit ≠ 0 → h.undo.length ≤ h.limit)
    {units : List Revision} (hroom : h.limit = 0 ∨ units.length ≤ h.limit) :
    ∃ rest, (h.pushAll units).undo = units ++ rest := by
  rw [undo_pushAll hbound, capped]
  split
  · exact ⟨h.undo, rfl⟩
  · next hlimit =>
    have hle : units.length ≤ h.limit := hroom.resolve_left hlimit
    refine ⟨h.undo.take (h.limit - units.length), ?_⟩
    rw [List.take_append, List.take_of_length_le hle]

end History

/-- What calls have led to: the transactions that they have opened, innermost first, and the
revisions that they have made, the last one first. -/
structure Tally where
  stack : List Revision
  units : List Revision
  filled : ∀ r ∈ units, r.edits ≠ []

namespace Tally

variable {t : Tally} {r : Revision} {outer : List Revision}

def empty : Tally :=
  ⟨[], [], List.forall_mem_nil _⟩

def edits (t : Tally) : List Edit :=
  t.units.reverse.flatMap (·.edits)

def within (t : Tally) (stack : List Revision) : Tally :=
  { t with stack }

def close (t : Tally) (r : Revision) : Tally :=
  match t.stack with
  | [] =>
    if hr : r.edits = [] then t
    else { t with units := r :: t.units, filled := List.forall_mem_cons.2 ⟨hr, t.filled⟩ }
  | first :: rest => t.within ({ first with edits := first.edits ++ r.edits } :: rest)

/-- The history of a run. -/
def direct (t : Tally) (h : History) : History :=
  { h.pushAll t.units with current := t.stack }

/-- The history of a run that goes on in a transaction. -/
def grouped (t : Tally) (h : History) (label : String) : History :=
  { h with current := t.stack ++ [⟨label, t.edits⟩] }

theorem length_stack_close (t : Tally) (r : Revision) :
    (t.close r).stack.length = t.stack.length := by
  cases hstack : t.stack with
  | nil =>
      simp only [close, hstack]
      split <;> simp [hstack]
  | cons first rest => simp [close, hstack, within]

theorem length_units_close (t : Tally) (r : Revision) : (t.close r).units.length =
    t.units.length + if t.stack = [] ∧ r.edits ≠ [] then 1 else 0 := by
  cases hstack : t.stack with
  | nil =>
      simp only [close, hstack]
      split
      · next hr => simp [hr]
      · next hr => simp [hr]
  | cons first rest => simp [close, hstack, within]

theorem absorb_direct (t : Tally) (h : History) (r : Revision) :
    (t.direct h).absorb r = (t.close r).direct h := by
  cases hstack : t.stack with
  | nil =>
      have hcur : (t.direct h).current = [] := hstack
      simp only [History.absorb, hcur, close, hstack, List.isEmpty_iff]
      split
      · rfl
      · simp only [direct, hstack]
        rfl
  | cons first rest =>
      have hcur : (t.direct h).current = first :: rest := hstack
      rw [History.absorb_of_cons hcur]
      simp only [close, hstack]
      rfl

theorem absorb_grouped (t : Tally) (h : History) (label : String) (r : Revision) :
    (t.grouped h label).absorb r = (t.close r).grouped h label := by
  cases hstack : t.stack with
  | nil =>
      have hcur : (t.grouped h label).current = [⟨label, t.edits⟩] := by
        rw [grouped, hstack]
        rfl
      rw [History.absorb_of_cons hcur]
      simp only [close, hstack]
      split
      · next hr => simp [grouped, hstack, hr]
      · simp [grouped, hstack, edits]
  | cons first rest =>
      have hcur : (t.grouped h label).current = first :: (rest ++ [⟨label, t.edits⟩]) := by
        rw [grouped, hstack]
        rfl
      rw [History.absorb_of_cons hcur]
      simp only [close, hstack]
      rfl

theorem direct_of_nil {h : History} (hcur : h.current = []) (hstack : t.stack = []) :
    t.direct h = h.pushAll t.units := by
  rw [direct, hstack, ← hcur, ← History.current_pushAll h t.units]

theorem edits_eq_nil_iff (t : Tally) : t.edits = [] ↔ t.units = [] := by
  rw [edits, List.flatMap_eq_nil_iff]
  constructor
  · intro hnone
    cases hunits : t.units with
    | nil => rfl
    | cons r rest =>
        have hr : r ∈ t.units := hunits ▸ List.mem_cons_self
        exact absurd (hnone r (List.mem_reverse.2 hr)) (t.filled r hr)
  · intro hunits
    rw [hunits]
    exact List.forall_mem_nil _

/-- Taking all edits back at once is taking them back one revision after another. -/
theorem revertAll_edits (t : Tally) (d : Document) :
    revertAll t.edits d = t.units.foldl (fun d r => revertAll r.edits d) d := by
  rw [edits]
  induction t.units generalizing d with
  | nil => rfl
  | cons r units ih =>
      rw [List.reverse_cons, List.flatMap_append, List.flatMap_singleton, List.foldl_cons, ← ih]
      exact List.foldr_append

end Tally

namespace Action

theorem gives_undo {ed : Editor} {r : Revision} {rest : List Revision}
    (hcur : ed.history.current = []) (hundo : ed.history.undo = r :: rest) :
    (undo false).Gives ed (.ok ()) { ed with
      document := revertAll r.edits ed.document
      history := { ed.history with undo := rest, redo := r :: ed.history.redo }
      announced := some (r.event .undo) } := by
  obtain ⟨document, ⟨limit, current, undo, redo⟩, announced⟩ := ed
  obtain rfl : current = [] := hcur
  obtain rfl : undo = r :: rest := hundo
  rfl

theorem Gives.done {action : Action Unit} {ed ed' : Editor} (h : action.Gives ed (.ok ()) ed') :
    (Action.done action).Gives ed (.ok .done) ed' :=
  h.bind rfl

end Action

namespace Module

open ReportModel.Action

variable {m : Module} {r : Revision} {outer rest : List Revision}

def eventOf (result : Except DesignError Reply) (ed : Editor) : Option Event :=
  match result with
  | .ok _ => ed.announced
  | .error _ => none

theorem perform_of_gives (hquiet : m.isNotifying = false) {files : Files} {command : Command}
    {result : Except DesignError Reply} {ed : Editor}
    (h : (command.action false files).Gives { m.editor with announced := none } result ed) :
    m.perform files command =
      ⟨result, { m with editor := { ed with announced := none } }, eventOf result ed⟩ := by
  rw [perform, hquiet, h]
  cases result <;> rfl

theorem call_of_gives (hquiet : m.isNotifying = false) {c : Call}
    {result : Except DesignError Reply} {ed : Editor}
    (h : (c.command.action false c.files).Gives { m.editor with announced := none } result ed) :
    (m.call c.visits c.files c.command).1 = result ∧
      (m.call c.visits c.files c.command).2.editor = { ed with announced := none } ∧
      (m.call c.visits c.files c.command).2.isNotifying = false := by
  obtain ⟨hresult, heditor, hnotifying⟩ := m.call_eq c.visits c.files c.command
  rw [perform_of_gives hquiet h] at hresult heditor
  exact ⟨hresult, heditor, hnotifying.trans hquiet⟩

theorem call_start (hquiet : m.isNotifying = false) {c : Call} {label : String}
    (hc : c.command = .start label) : (m.call c.visits c.files c.command).1 = .ok .done ∧
      (m.call c.visits c.files c.command).2.editor =
        ⟨m.document, m.history.start label, none⟩ ∧
      (m.call c.visits c.files c.command).2.isNotifying = false := by
  let ready : Editor := { m.editor with announced := none }
  have hgives : (c.command.action false c.files).Gives ready (.ok .done)
      { ready with history := m.history.start label } := by
    rw [hc]
    rfl
  exact call_of_gives hquiet hgives

theorem call_commit (hquiet : m.isNotifying = false) (hcur : m.history.current = [r]) {c : Call}
    (hc : c.command = .commit) : (m.call c.visits c.files c.command).1 = .ok .done ∧
      (m.call c.visits c.files c.command).2.editor =
        ⟨m.document, { m.history with current := [] }.absorb r, none⟩ ∧
      (m.call c.visits c.files c.command).2.isNotifying = false := by
  let ready : Editor := { m.editor with announced := none }
  have hcur' : ready.history.current = [r] := hcur
  have hgives : (c.command.action false c.files).Gives ready (.ok .done) { ready with
      history := { m.history with current := [] }.absorb r
      announced := some (r.event .commit) } := by
    rw [hc]
    exact (gives_commit hcur').done
  exact call_of_gives hquiet hgives

theorem call_undo (hquiet : m.isNotifying = false) (hcur : m.history.current = [])
    (hundo : m.history.undo = r :: rest) {c : Call} (hc : c.command = .undo) :
    (m.call c.visits c.files c.command).1 = .ok .done ∧
      (m.call c.visits c.files c.command).2.editor = ⟨revertAll r.edits m.document,
        { m.history with undo := rest, redo := r :: m.history.redo }, none⟩ ∧
      (m.call c.visits c.files c.command).2.isNotifying = false := by
  let ready : Editor := { m.editor with announced := none }
  have hcur' : ready.history.current = [] := hcur
  have hundo' : ready.history.undo = r :: rest := hundo
  have hgives : (c.command.action false c.files).Gives ready (.ok .done) { ready with
      document := revertAll r.edits m.document
      history := { m.history with undo := rest, redo := r :: m.history.redo }
      announced := some (r.event .undo) } := by
    rw [hc]
    exact (gives_undo hcur' hundo').done
  exact call_of_gives hquiet hgives

theorem calls_of_notifying (h : m.isNotifying = true) (hsilent : m.editor.announced = none)
    (cs : List Call) :
    m.calls cs = (cs.map fun _ => .error .reentrantMutation, m) ∧ m.added cs = 0 := by
  induction cs with
  | nil => exact ⟨rfl, rfl⟩
  | cons c rest ih =>
      have hperform := perform_eq_self h hsilent c.files c.command
      have hcall : m.call c.visits c.files c.command = (.error .reentrantMutation, m) := by
        rw [call, hperform]
      constructor
      · simp only [calls, hcall, ih.1, List.map_cons]
      · simp only [added, hcall, hperform, ih.2]
        rfl

/-- A run, and the same run in a transaction with a label, as they go on from a history. -/
structure Lockstep (start : History) (label : String) (t : Tally) (direct grouped : Module) :
    Prop where
  quiet : direct.isNotifying = false ∧ grouped.isNotifying = false
  document : grouped.document = direct.document
  direct : direct.history = t.direct start
  grouped : grouped.history = t.grouped start label

section Lockstep

variable {start : History} {label : String} {t t' : Tally} {direct grouped : Module} {c : Call}

/-- A call takes both runs on, and has the same answer in both. -/
structure InStep (start : History) (label : String) (t t' : Tally) (direct grouped : Module)
    (c : Call) : Prop where
  after : Lockstep start label t' (direct.call c.visits c.files c.command).2
    (grouped.call c.visits c.files c.command).2
  answer : (grouped.call c.visits c.files c.command).1 =
    (direct.call c.visits c.files c.command).1
  added : t'.units.length = t.units.length + (direct.perform c.files c.command).added

theorem Lockstep.of_gives (hl : Lockstep start label t direct grouped)
    {result : Except DesignError Reply} {ed ed' : Editor}
    (hd : (c.command.action false c.files).Gives { direct.editor with announced := none } result ed)
    (hg : (c.command.action false c.files).Gives { grouped.editor with announced := none }
      result ed')
    (hdocument : ed'.document = ed.document) (hdirect : ed.history = t'.direct start)
    (hgrouped : ed'.history = t'.grouped start label)
    (hadded : t'.units.length = t.units.length +
      Outcome.added ⟨result, direct, eventOf result ed⟩) :
    InStep start label t t' direct grouped c := by
  obtain ⟨hquiet, hquiet'⟩ := hl.quiet
  obtain ⟨hresult, heditor, hover⟩ := call_of_gives hquiet hd
  obtain ⟨hresult', heditor', hover'⟩ := call_of_gives hquiet' hg
  refine ⟨⟨⟨hover, hover'⟩, ?_, ?_, ?_⟩, ?_, ?_⟩
  · rw [Module.document, Module.document, heditor, heditor']
    exact hdocument
  · rw [history, heditor]
    exact hdirect
  · rw [history, heditor']
    exact hgrouped
  · rw [hresult, hresult']
  · rw [perform_of_gives hquiet hd]
    exact hadded

/-- The innermost transaction that the calls have opened is the innermost one in both runs. -/
theorem Lockstep.current_eq (hl : Lockstep start label t direct grouped)
    (hstack : t.stack = r :: outer) : direct.editor.history.current = r :: outer ∧
      grouped.editor.history.current = r :: (outer ++ [⟨label, t.edits⟩]) := by
  have hdirect := congrArg (·.current) hl.direct
  have hgrouped := congrArg (·.current) hl.grouped
  simp only [Tally.direct, Tally.grouped, hstack] at hdirect hgrouped
  exact ⟨hdirect, hgrouped⟩

theorem Lockstep.history_within (hl : Lockstep start label t direct grouped)
    (outer : List Revision) :
    ({ direct.history with current := outer } : History) = (t.within outer).direct start ∧
    ({ grouped.history with current := outer ++ [⟨label, t.edits⟩] } : History) =
      (t.within outer).grouped start label := by
  rw [hl.direct, hl.grouped]
  exact ⟨rfl, rfl⟩

theorem Lockstep.start_call (hl : Lockstep start label t direct grouped) {inner : String}
    (hc : c.command = .start inner) :
    InStep start label t (t.within (⟨inner, []⟩ :: t.stack)) direct grouped c := by
  have hgives : ∀ ed : Editor, (c.command.action false c.files).Gives ed (.ok .done)
      { ed with history := ed.history.start inner } := by
    intro ed
    rw [hc]
    rfl
  refine hl.of_gives (hgives _) (hgives _) hl.document ?_ ?_ rfl
  · exact congrArg (History.start · inner) hl.direct
  · exact congrArg (History.start · inner) hl.grouped

theorem Lockstep.commit_call (hl : Lockstep start label t direct grouped)
    (hc : c.command = .commit) (hstack : t.stack = r :: outer) :
    InStep start label t ((t.within outer).close r) direct grouped c := by
  have hgives : ∀ {ed : Editor} {outer : List Revision}, ed.history.current = r :: outer →
      (c.command.action false c.files).Gives ed (.ok .done) { ed with
        history := { ed.history with current := outer }.absorb r
        announced := if outer = [] then some (r.event .commit) else ed.announced } := by
    intro ed outer hcur
    rw [hc]
    exact (gives_commit hcur).done
  obtain ⟨hcur, hcur'⟩ := hl.current_eq hstack
  obtain ⟨hdirect, hgrouped⟩ := hl.history_within outer
  refine hl.of_gives (hgives hcur) (hgives hcur') hl.document ?_ ?_ ?_
  · rw [← Tally.absorb_direct, ← hdirect]
    rfl
  · rw [← Tally.absorb_grouped, ← hgrouped]
    rfl
  · rw [Tally.length_units_close, Outcome.added_of_closed rfl]
    rfl

theorem Lockstep.rollback_call (hl : Lockstep start label t direct grouped)
    (hc : c.command = .rollback) (hstack : t.stack = r :: outer) :
    InStep start label t (t.within outer) direct grouped c := by
  have hgives : ∀ {ed : Editor} {outer : List Revision}, ed.history.current = r :: outer →
      (c.command.action false c.files).Gives ed (.ok .done) { ed with
        history := { ed.history with current := outer }
        document := revertAll r.edits ed.document } := by
    intro ed outer hcur
    rw [hc]
    exact (gives_rollback hcur).done
  obtain ⟨hcur, hcur'⟩ := hl.current_eq hstack
  obtain ⟨hdirect, hgrouped⟩ := hl.history_within outer
  exact hl.of_gives (hgives hcur) (hgives hcur') (congrArg (revertAll r.edits) hl.document) hdirect
    hgrouped rfl

theorem Lockstep.edit_call (hl : Lockstep start label t direct grouped)
    (hc : c.command.isEdit = true) : ∃ t' : Tally, t'.stack.length = t.stack.length ∧
      InStep start label t t' direct grouped c := by
  obtain ⟨result, d, revision, hfail, hgives⟩ :=
    Command.closes_action c.files hc direct.document
  cases revision with
  | none =>
      refine ⟨t, rfl, hl.of_gives (hgives _ rfl) (hgives _ hl.document) rfl hl.direct hl.grouped ?_⟩
      cases result <;> rfl
  | some r =>
      refine ⟨t.close r, t.length_stack_close r, hl.of_gives (hgives _ rfl)
        (hgives _ hl.document) rfl ?_ ?_ ?_⟩
      · exact (congrArg (History.absorb · r) hl.direct).trans (t.absorb_direct start r)
      · exact (congrArg (History.absorb · r) hl.grouped).trans (t.absorb_grouped start label r)
      · cases result with
        | error error => cases hfail error rfl
        | ok reply =>
            have hcur : direct.editor.history.current = t.stack := congrArg (·.current) hl.direct
            rw [Tally.length_units_close, ← hcur, Outcome.added_of_closed rfl]

theorem Lockstep.call (hl : Lockstep start label t direct grouped) {rest : List Call}
    (hc : Call.Balanced t.stack.length (c :: rest)) :
    ∃ t' : Tally, Call.Balanced t'.stack.length rest ∧
      InStep start label t t' direct grouped c := by
  generalize hn : t.stack.length = n at hc
  cases hc with
  | @start _ _ _ inner hc h =>
      refine ⟨t.within (⟨inner, []⟩ :: t.stack), ?_, hl.start_call hc⟩
      rw [← hn] at h
      exact h
  | commit hc h =>
      obtain ⟨r, outer, hstack⟩ := List.exists_cons_of_length_eq_add_one hn
      refine ⟨(t.within outer).close r, ?_, hl.commit_call hc hstack⟩
      rw [Tally.length_stack_close]
      rw [hstack, List.length_cons] at hn
      exact Nat.succ.inj hn ▸ h
  | rollback hc h =>
      obtain ⟨r, outer, hstack⟩ := List.exists_cons_of_length_eq_add_one hn
      refine ⟨t.within outer, ?_, hl.rollback_call hc hstack⟩
      rw [hstack, List.length_cons] at hn
      exact Nat.succ.inj hn ▸ h
  | edit hc h =>
      obtain ⟨t', hlength, hstep⟩ := hl.edit_call hc
      exact ⟨t', hlength ▸ hn ▸ h, hstep⟩

theorem Lockstep.calls {cs : List Call} (hl : Lockstep start label t direct grouped)
    (hcs : Call.Balanced t.stack.length cs) : ∃ t' : Tally, t'.stack = [] ∧
      Lockstep start label t' (direct.calls cs).2 (grouped.calls cs).2 ∧
      (grouped.calls cs).1 = (direct.calls cs).1 ∧
      t'.units.length = t.units.length + direct.added cs := by
  induction cs generalizing t direct grouped with
  | nil =>
      refine ⟨t, ?_, hl, rfl, rfl⟩
      generalize hn : t.stack.length = n at hcs
      cases hcs
      exact List.eq_nil_of_length_eq_zero hn
  | cons c rest ih =>
      obtain ⟨t₁, hrest, hstep⟩ := hl.call hcs
      obtain ⟨t', hstack, hl', hanswers, hadded⟩ := ih hstep.after hrest
      refine ⟨t', hstack, hl', ?_, ?_⟩
      · simp only [Module.calls, hstep.answer, hanswers]
      · rw [hadded, hstep.added, Nat.add_assoc]
        rfl

theorem lockstep_call (hquiet : m.isNotifying = false) (hcur : m.history.current = [])
    (hc : c.command = .start label) :
    Lockstep m.history label .empty m (m.call c.visits c.files c.command).2 := by
  obtain ⟨-, heditor, hquiet'⟩ := call_start hquiet hc
  refine ⟨⟨hquiet, hquiet'⟩, congrArg (·.document) heditor, ?_, ?_⟩
  · exact (Tally.direct_of_nil (t := .empty) hcur rfl).symm
  · refine (congrArg (·.history) heditor).trans ?_
    rw [History.start, hcur]
    rfl

/-- When the transaction around is closed, it becomes the one revision made, unless it is empty. -/
theorem Lockstep.close_call (hl : Lockstep start label t direct grouped)
    (hcur : start.current = []) (hstack : t.stack = []) (hc : c.command = .commit) :
    (grouped.call c.visits c.files c.command).1 = .ok .done ∧
      (grouped.call c.visits c.files c.command).2.isNotifying = false ∧
      (grouped.call c.visits c.files c.command).2.document = direct.document ∧
      (grouped.call c.visits c.files c.command).2.history =
        start.pushAll (if t.units = [] then [] else [⟨label, t.edits⟩]) := by
  have hcurrent : grouped.history.current = [⟨label, t.edits⟩] := by
    rw [hl.grouped, Tally.grouped, hstack]
    rfl
  obtain ⟨hanswer, heditor, hover⟩ := call_commit hl.quiet.2 hcurrent hc
  have hclosed : ({ grouped.history with current := [] } : History) = start := by
    rw [hl.grouped, ← hcur]
    rfl
  have hhistory := congrArg (·.history) heditor
  refine ⟨hanswer, hover, (congrArg (·.document) heditor).trans hl.document, hhistory.trans ?_⟩
  simp only [hclosed]
  split
  · next hunits =>
    have hedits := t.edits_eq_nil_iff.2 hunits
    simp only [History.absorb, hcur, hedits]
    rfl
  · next hunits =>
    exact History.absorb_of_nil hcur (mt t.edits_eq_nil_iff.1 hunits)

end Lockstep

/-- Undoing one by one takes the last revisions back. -/
theorem calls_undo (hquiet : m.isNotifying = false) (hcur : m.history.current = [])
    {units : List Revision} (hundo : m.history.undo = units ++ rest) {undos : List Call}
    (hundos : ∀ c ∈ undos, c.command = .undo) (hlength : undos.length = units.length) :
    (∀ answer ∈ (m.calls undos).1, answer = .ok .done) ∧ (m.calls undos).2.document =
      units.foldl (fun d r => revertAll r.edits d) m.document := by
  induction units generalizing m undos with
  | nil =>
      obtain rfl := List.eq_nil_of_length_eq_zero hlength
      exact ⟨List.forall_mem_nil _, rfl⟩
  | cons r units ih =>
      obtain ⟨c, undos, rfl⟩ := List.exists_cons_of_length_eq_add_one hlength
      obtain ⟨hc, hundos⟩ := List.forall_mem_cons.1 hundos
      obtain ⟨hanswer, heditor, hquiet'⟩ := call_undo hquiet hcur hundo hc
      have hcur' := (congrArg (·.history.current) heditor).trans hcur
      have hundo' := congrArg (·.history.undo) heditor
      obtain ⟨hanswers, hdocument⟩ := ih hquiet' hcur' hundo' hundos (Nat.succ.inj hlength)
      refine ⟨List.forall_mem_cons.2 ⟨hanswer, hanswers⟩, hdocument.trans ?_⟩
      rw [List.foldl_cons, Module.document, heditor]

/-- Undoing the one revision leads where undoing the others one by one leads. -/
theorem call_undo_eq {start : History} {label : String} {t : Tally} {direct grouped : Module}
    (hbound : start.limit ≠ 0 → start.undo.length ≤ start.limit) (hcur : start.current = [])
    (hquiet : direct.isNotifying = false ∧ grouped.isNotifying = false)
    (hdocument : grouped.document = direct.document)
    (hdirect : direct.history = start.pushAll t.units)
    (hgrouped : grouped.history = start.pushAll [⟨label, t.edits⟩]) (hunits : t.units ≠ [])
    (hroom : start.limit = 0 ∨ t.units.length ≤ start.limit) {undos : List Call} {undo : Call}
    (hundos : ∀ c ∈ undos, c.command = .undo) (hlength : undos.length = t.units.length)
    (hundo : undo.command = .undo) :
    (∀ answer ∈ (direct.calls undos).1, answer = .ok .done) ∧
      (grouped.call undo.visits undo.files undo.command).1 = .ok .done ∧
      (grouped.call undo.visits undo.files undo.command).2.document =
        (direct.calls undos).2.document := by
  have hroom' : start.limit = 0 ∨ [(⟨label, t.edits⟩ : Revision)].length ≤ start.limit :=
    hroom.imp_right fun hle => Nat.le_trans (List.length_pos_of_ne_nil hunits) hle
  obtain ⟨rest, hrest⟩ := History.exists_undo_pushAll hbound hroom
  obtain ⟨rest', hrest'⟩ := History.exists_undo_pushAll hbound hroom'
  rw [← hdirect] at hrest
  rw [← hgrouped] at hrest'
  have hcur₁ : direct.history.current = [] := by rw [hdirect, History.current_pushAll, hcur]
  have hcur₂ : grouped.history.current = [] := by rw [hgrouped, History.current_pushAll, hcur]
  obtain ⟨hanswers, hback⟩ := calls_undo hquiet.1 hcur₁ hrest hundos hlength
  obtain ⟨hanswer, heditor, -⟩ := call_undo hquiet.2 hcur₂ hrest' hundo
  refine ⟨hanswers, hanswer, (congrArg (·.document) heditor).trans ?_⟩
  rw [hback, hdocument]
  exact t.revertAll_edits direct.document

/-- Edits that are made in a transaction do what they do without it: they have the same answers and
lead to the same document. The revisions that they make without it are a single one with it, which
holds all their edits, and undoing that one leads where undoing the others one by one leads, if the
limit leaves room for them. -/
theorem Reachable.grouping_exact (h : m.Reachable) (hcur : m.history.current = [])
    {cs : List Call} (hcs : Call.Balanced 0 cs) {opening closing : Call} {label : String}
    (hopening : opening.command = .start label) (hclosing : closing.command = .commit)
    {answers answers' : List (Except DesignError Reply)} {direct grouped : Module}
    (hdirect : m.calls cs = (answers, direct))
    (hgrouped : m.calls (opening :: (cs ++ [closing])) = (answers', grouped)) :
    (∃ answer, answers' = answer :: (answers ++ [answer]) ∧
      (m.isNotifying = false → answer = .ok .done)) ∧
    grouped.document = direct.document ∧
    ∃ units : List Revision, units.length = m.added cs ∧
      direct.history = m.history.pushAll units ∧
      grouped.history = m.history.pushAll
        (if units = [] then [] else [⟨label, units.reverse.flatMap (·.edits)⟩]) ∧
      (units ≠ [] → m.history.limit = 0 ∨ units.length ≤ m.history.limit →
        ∀ (undos : List Call) (undo : Call), (∀ c ∈ undos, c.command = .undo) →
          undos.length = units.length → undo.command = .undo →
          (∀ answer ∈ (direct.calls undos).1, answer = .ok .done) ∧
            (grouped.call undo.visits undo.files undo.command).1 = .ok .done ∧
            (grouped.call undo.visits undo.files undo.command).2.document =
              (direct.calls undos).2.document) := by
  cases hquiet : m.isNotifying with
  | true =>
      -- all calls are refused, the one that opens the transaction included
      obtain ⟨hrefused, hadded⟩ := calls_of_notifying hquiet h.sound.silent cs
      obtain ⟨hrefused', -⟩ :=
        calls_of_notifying hquiet h.sound.silent (opening :: (cs ++ [closing]))
      obtain ⟨rfl, rfl⟩ := Prod.mk.inj (hrefused.symm.trans hdirect)
      obtain ⟨rfl, rfl⟩ := Prod.mk.inj (hrefused'.symm.trans hgrouped)
      refine ⟨⟨.error .reentrantMutation, by simp, by simp⟩, rfl, [], hadded.symm, rfl, rfl, ?_⟩
      exact fun hnone => absurd rfl hnone
  | false =>
      -- the two runs are in lockstep up to the call that closes the transaction
      obtain ⟨hanswer, -, -⟩ := call_start hquiet hopening
      obtain ⟨t, hstack, hl, hanswers, hadded⟩ :=
        (lockstep_call hquiet hcur hopening).calls hcs
      obtain ⟨hanswer', hover, hdocument, hhistory⟩ := hl.close_call hcur hstack hclosing
      rw [hdirect] at hl hanswers hdocument
      have hrun : m.calls (opening :: (cs ++ [closing])) = (.ok .done :: (answers ++ [.ok .done]),
          (((m.call opening.visits opening.files opening.command).2.calls cs).2.call
            closing.visits closing.files closing.command).2) := by
        simp only [calls, calls_append, hanswer, hanswer', hanswers]
      obtain ⟨rfl, rfl⟩ := Prod.mk.inj (hrun.symm.trans hgrouped)
      have hmade := hl.direct.trans (t.direct_of_nil hcur hstack)
      have hbound : m.history.limit ≠ 0 → m.history.undo.length ≤ m.history.limit :=
        fun hlimit => Nat.le_trans (Nat.le_add_right _ _) (h.sound.history.bounded hlimit)
      refine ⟨⟨.ok .done, rfl, fun _ => rfl⟩, hdocument, t.units, hadded.trans (Nat.zero_add _),
        hmade, hhistory, fun hunits hroom undos undo hundos hlength hundo => ?_⟩
      rw [if_neg hunits] at hhistory
      exact call_undo_eq hbound hcur ⟨hl.quiet.1, hover⟩ hdocument hmade hhistory hunits hroom
        hundos hlength hundo

/-- A command with nothing to read, at which no listener does anything. -/
def quietly (command : Command) : Call where
  visits _ _ := .leave
  files := .empty
  command := command

/-- The label is renamed, is put back after having been dropped, and is dropped at last in a
transaction; no other element is there to be dropped. -/
def tidying : List Call :=
  [quietly (.rename ⟨1, 0⟩ (some "sum")), quietly (.start "try"), quietly (.drop ⟨1, 0⟩),
    quietly .rollback, quietly (.drop ⟨2, 0⟩), quietly (.start "tidy"), quietly (.drop ⟨1, 0⟩),
    quietly .commit]

theorem balanced_tidying : Call.Balanced 0 tidying :=
  .edit rfl (.start rfl (.edit rfl (.rollback rfl (.edit rfl (.start rfl (.edit rfl (.commit rfl
    .nil)))))))

theorem grouping_exact_tidying : ∃ direct grouped,
    labelled.calls tidying = ([.ok .done, .ok .done, .ok .done, .ok .done,
      .error (.elementNotFound ⟨2, 0⟩), .ok .done, .ok .done, .ok .done], direct) ∧
    (labelled.calls (quietly (.start "all") :: (tidying ++ [quietly .commit]))).2 = grouped ∧
    labelled.added tidying = 2 ∧ grouped.document = direct.document ∧
    (grouped.call (fun _ _ => .leave) .empty .undo).2.document =
      (direct.calls [quietly .undo, quietly .undo]).2.document := by
  have hanswers : (labelled.calls tidying).1 = [.ok .done, .ok .done, .ok .done, .ok .done,
      .error (.elementNotFound ⟨2, 0⟩), .ok .done, .ok .done, .ok .done] := by
    decide +kernel
  have hadded : labelled.added tidying = 2 := by decide +kernel
  have hlimit : labelled.history.limit = 100 := by decide +kernel
  obtain ⟨-, hdocument, units, hlength, -, -, hback⟩ :=
    reachable_labelled.grouping_exact rfl balanced_tidying
      (rfl : (quietly (.start "all")).command = .start "all")
      (rfl : (quietly .commit).command = .commit) rfl rfl
  rw [hadded] at hlength
  have hunits : units ≠ [] := List.ne_nil_of_length_eq_add_one hlength
  have hroom : labelled.history.limit = 0 ∨ units.length ≤ labelled.history.limit := by omega
  obtain ⟨-, -, hdocument'⟩ := hback hunits hroom [quietly .undo, quietly .undo] (quietly .undo)
    (by simp [quietly]) hlength.symm rfl
  exact ⟨_, _, Prod.ext hanswers rfl, rfl, hadded, hdocument, hdocument'⟩

end Module

end ReportModel
