import ReportModel.Proofs.Editor.History
import ReportModel.Proofs.Editor.Outcome

/-!
# Transactions

Inside a transaction an action adds reversible edits to the innermost one, and may create elements.
In a transaction of its own it either does all of that, or fails and leaves nothing but elements it
created.
-/

namespace ReportModel

open Edit

namespace Editor

variable {ed ed' ed'' : Editor} {cs cs' : List Creation} {r r' : Revision}

def grown (ed : Editor) (cs : List Creation) : Editor :=
  { ed with document := ed.document.createAll cs }

/-- The editor with some edits made and recorded in the innermost transaction. -/
def executed (ed : Editor) (edits : List Edit) : Editor :=
  { ed with
    history := ed.history.absorb ⟨"", edits⟩
    document := applyAll edits ed.document }

/-- Some elements were created, and then a revision was made and closed. -/
structure Absorbs (cs : List Creation) (r : Revision) (ed ed' : Editor) : Prop where
  history : ed'.history = ed.history.absorb r
  document : Reversible r.edits (ed.document.createAll cs) ed'.document
  announced : ed'.announced =
    if ed.history.current = [] then some (r.event .commit) else ed.announced

theorem createAll_wellFormed {d : Document} (hwf : d.tree.WellFormed) (cs : List Creation) :
    (d.createAll cs).tree.WellFormed := by
  induction cs generalizing d with
  | nil => exact hwf
  | cons c cs ih => exact ih (hwf.create _ _)

theorem Absorbs.wellFormed (h : Absorbs cs r ed ed') (hwf : ed.document.tree.WellFormed) :
    ed'.document.tree.WellFormed :=
  h.document.wellFormed (createAll_wellFormed hwf cs)

theorem current_absorb_ne_nil {h : History} (hin : h.current ≠ []) (r : Revision) :
    (h.absorb r).current ≠ [] := by
  cases hcur : h.current with
  | nil => exact absurd hcur hin
  | cons outer rest => simp [History.absorb, hcur]

theorem Absorbs.inside (h : Absorbs cs r ed ed') (hin : ed.history.current ≠ []) :
    ed'.history.current ≠ [] := by
  rw [h.history]
  exact current_absorb_ne_nil hin r

theorem absorb_nil {h : History} (hin : h.current ≠ []) (label : String) :
    h.absorb ⟨label, []⟩ = h := by
  cases hcur : h.current with
  | nil => exact absurd hcur hin
  | cons outer rest =>
      simp only [History.absorb, hcur, List.append_nil]
      rw [← hcur]

theorem absorbs_grown (hin : ed.history.current ≠ []) (cs : List Creation) :
    Absorbs cs ⟨"", []⟩ ed (ed.grown cs) where
  history := (absorb_nil hin "").symm
  document := Reversible.nil _
  announced := (if_neg hin).symm

theorem absorbs_executed (hin : ed.history.current ≠ []) {edits : List Edit} {d : Document}
    (h : Reversible edits ed.document d) : Absorbs [] ⟨"", edits⟩ ed (ed.executed edits) where
  history := rfl
  document := by
    have heq : (ed.executed edits).document = d := h.applyAll_eq
    rw [heq]
    exact h
  announced := (if_neg hin).symm

theorem Absorbs.trans (hin : ed.history.current ≠ []) (h : Absorbs cs r ed ed')
    (h' : Absorbs cs' r' ed' ed'') :
    Absorbs (cs ++ cs') ⟨"", r.edits ++ r'.edits⟩ ed ed'' where
  history := by
    rw [h'.history, h.history]
    cases hcur : ed.history.current with
    | nil => exact absurd hcur hin
    | cons outer rest => simp [History.absorb, hcur]
  document := by
    rw [Document.createAll_append]
    exact (h.document.createAll cs').append h'.document
  announced := by
    rw [h'.announced, if_neg (h.inside hin), h.announced]
    simp [if_neg hin]

end Editor

namespace Action

open Editor

variable {α β : Type} {ed : Editor} {wanted wanted' : List Creation} {P : α → Prop} {Q : β → Prop}

/-- Inside a transaction, an action creates what it has to and adds to the transaction. If it fails
it has got as far as it could. -/
def Progresses (action : Action α) (wanted : List Creation) (ed : Editor) (P : α → Prop) : Prop :=
  action.Yields ed (fun a ed' => P a ∧ ∃ r, Absorbs wanted r ed ed')
    fun ed' => ∃ cs, cs <+: wanted ∧ ∃ r, Absorbs cs r ed ed'

/-- An action creates what it has to and makes a revision. If it fails it has made nothing but
elements. -/
def Atomic (action : Action α) (wanted : List Creation) (ed : Editor) (P : α → Prop) : Prop :=
  action.Yields ed (fun a ed' => P a ∧ ∃ r, Absorbs wanted r ed ed')
    fun ed' => ∃ cs, cs <+: wanted ∧ ed' = ed.grown cs

/-- An action does nothing or makes a revision. If it fails it has done nothing. -/
def Settles (action : Action α) (ed : Editor) : Prop :=
  action.Yields ed (fun _ ed' => ed' = ed ∨ ∃ r, Absorbs [] r ed ed') (· = ed)

theorem Atomic.settles {action : Action α} (h : action.Atomic [] ed P) : action.Settles ed := by
  refine h.imp ?_ ?_
  · intro a ed' hok
    exact Or.inr hok.2
  · intro ed' hfail
    obtain ⟨cs, hcs, rfl⟩ := hfail
    rw [List.prefix_nil.1 hcs]
    rfl

theorem Atomic.progresses {action : Action α} (h : action.Atomic wanted ed P)
    (hin : ed.history.current ≠ []) : action.Progresses wanted ed P := by
  apply h.imp (fun _ _ hok => hok)
  rintro ed' ⟨cs, hcs, rfl⟩
  exact ⟨cs, hcs, _, absorbs_grown hin cs⟩

theorem Progresses.after {action : Action β} {ed' : Editor} {r : Revision}
    (h : action.Progresses wanted' ed' Q) (hin : ed.history.current ≠ [])
    (hr : Absorbs wanted r ed ed') : action.Yields ed'
      (fun b ed'' => Q b ∧ ∃ r, Absorbs (wanted ++ wanted') r ed ed'')
      fun ed'' => ∃ cs, cs <+: wanted ++ wanted' ∧ ∃ r, Absorbs cs r ed ed'' := by
  refine h.imp ?_ ?_
  · intro b ed'' hok
    obtain ⟨hb, r', hr'⟩ := hok
    exact ⟨hb, _, hr.trans hin hr'⟩
  · intro ed'' hfail
    obtain ⟨cs, hcs, r', hr'⟩ := hfail
    exact ⟨wanted ++ cs, (List.prefix_append_right_inj wanted).2 hcs, _, hr.trans hin hr'⟩

theorem Progresses.bind {action : Action α} {next : α → Action β}
    (h : action.Progresses wanted ed P) (hin : ed.history.current ≠ [])
    (hnext : ∀ a ed' r, P a → Absorbs wanted r ed ed' → (next a).Progresses wanted' ed' Q) :
    (action >>= next).Progresses (wanted ++ wanted') ed Q := by
  refine yields_bind.2 (h.imp ?_ ?_)
  · intro a ed' hok
    obtain ⟨ha, r, hr⟩ := hok
    exact (hnext a ed' r ha hr).after hin hr
  · intro ed' hfail
    obtain ⟨cs, hcs, hr⟩ := hfail
    exact ⟨cs, hcs.trans (List.prefix_append ..), hr⟩

theorem yields_execute (hin : ed.history.current ≠ []) (edit : Edit)
    {post : Unit → Editor → Prop} {fail : Editor → Prop} :
    (execute edit).Yields ed post fail ↔ post () (ed.executed [edit]) := by
  cases hcur : ed.history.current with
  | nil => exact absurd hcur hin
  | cons outer rest =>
      have hrecord : ed.history.record edit = some (ed.history.absorb ⟨"", [edit]⟩) := by
        simp [History.record, History.absorb, hcur]
      simp only [execute, yields_bind, yields_get, yields_demand, hrecord, yields_set]
      simp [executed, applyAll]

theorem executed_executed (hin : ed.history.current ≠ []) (edits rest : List Edit) :
    (ed.executed edits).executed rest = ed.executed (edits ++ rest) := by
  cases hcur : ed.history.current with
  | nil => exact absurd hcur hin
  | cons outer others =>
      simp [executed, History.absorb, hcur, applyAll]

theorem yields_executeAll (hin : ed.history.current ≠ []) (edits : List Edit)
    {post : Unit → Editor → Prop} {fail : Editor → Prop} :
    (executeAll edits).Yields ed post fail ↔ post () (ed.executed edits) := by
  induction edits generalizing ed with
  | nil =>
      have hnil : ed.executed [] = ed := by
        simp only [executed, absorb_nil hin, applyAll, List.foldl_nil]
      simp only [executeAll, yields_pure, hnil]
  | cons edit rest ih =>
      have hin' : (ed.executed [edit]).history.current ≠ [] := current_absorb_ne_nil hin _
      simp only [executeAll, yields_bind, yields_execute hin, ih hin', executed_executed hin,
        List.singleton_append]

/-- A transaction of its own closes the revision of an action, or takes it back and leaves what the
action has created. -/
theorem yields_transact {action : Action α} {R : List Creation → Prop} (label : String)
    (h : action.Yields { ed with history := ed.history.start label }
      (fun a ed' => P a ∧ ∃ r, Absorbs wanted r { ed with history := ed.history.start label } ed')
      fun ed' => ∃ cs, R cs ∧
        ∃ r, Absorbs cs r { ed with history := ed.history.start label } ed') :
    (transact false label action).Yields ed (fun a ed' => P a ∧ ∃ r, Absorbs wanted r ed ed')
      fun ed' => ∃ cs, R cs ∧ ed' = ed.grown cs := by
  have hhistory : ∀ {ed' : Editor} {cs r},
      Absorbs cs r { ed with history := ed.history.start label } ed' → ed'.history =
        { ed.history with current := ⟨label, r.edits⟩ :: ed.history.current } := by
    intro ed' cs r hr
    rw [hr.history]
    simp [History.absorb, History.start]
  have hannounced : ∀ {ed' : Editor} {cs r},
      Absorbs cs r { ed with history := ed.history.start label } ed' →
        ed'.announced = ed.announced := by
    intro ed' cs r hr
    rw [hr.announced]
    exact if_neg (by simp [History.start])
  refine yields_transact_iff.2 (h.imp ?_ ?_)
  · rintro a ed₁ ⟨ha, r, hr⟩
    have hcurrent : ed₁.history.current = ⟨label, r.edits⟩ :: ed.history.current := by
      rw [hhistory hr]
    have hcommit := History.commit_eq hcurrent
    simp only [commit, yields_bind, yields_ensureMutable, yields_get, yields_demand, hcommit,
      Option.some.injEq, forall_eq', reduceCtorEq, false_implies, true_and]
    -- outermost it becomes a revision, else it is recorded in the transaction around
    cases hcur : ed.history.current with
    | nil =>
        simp only [if_true, yields_set]
        refine ⟨ha, ⟨label, r.edits⟩, ?_, hr.document, ?_⟩
        · simp [hhistory hr, ← hcur]
        · simp [hcur]
    | cons outer rest =>
        simp only [reduceCtorEq, if_false, yields_set]
        refine ⟨ha, ⟨label, r.edits⟩, ?_, hr.document, ?_⟩
        · simp [hhistory hr, ← hcur]
        · simp [hcur, hannounced hr]
  · rintro ed₁ ⟨cs, hcs, r, hr⟩
    simp only [rollback, yields_bind, yields_ensureMutable, yields_get, hhistory hr, yields_set]
    refine ⟨cs, hcs, ?_⟩
    have hrevert : revertAll r.edits ed₁.document = ed.document.createAll cs :=
      hr.document.revertAll_eq
    simp only [grown, hrevert, hannounced hr]

/-- An action in a transaction of its own is atomic. -/
theorem atomic_transact {action : Action α} (label : String)
    (h : action.Progresses wanted { ed with history := ed.history.start label } P) :
    (transact false label action).Atomic wanted ed P :=
  yields_transact label h

end Action

end ReportModel
