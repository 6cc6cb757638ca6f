import ReportModel.Module.Command
import ReportModel.Proofs.Editor.Sheets

/-!
# Steps

All that a command can do to an editor. A command that succeeds takes one of a few kinds of steps; a
command that fails has created some of the elements it should create, and nothing else has changed.
-/

namespace ReportModel

def Command.creations : Command → List Creation
  | .create typeName name => [⟨typeName, name⟩]
  | .importStyles sheet names =>
    (names.filterMap fun name => (sheet.style? name).map (name, ·)).map fun entry =>
      Action.styleCreation entry.1
  | _ => []

namespace Editor

open Edit

variable {ed ed' : Editor} {wanted : List Creation} {r : Revision} {outer rest : List Revision}

/-- What a command that succeeds does to an editor, and the elements it creates. -/
inductive Step (ed : Editor) : List Creation → Editor → Prop
  | grown (wanted : List Creation) : Step ed wanted (ed.grown wanted)
  | absorbed {wanted : List Creation} {r : Revision} {ed' : Editor} (h : Absorbs wanted r ed ed') :
    Step ed wanted ed'
  | started (label : String) : Step ed [] { ed with history := ed.history.start label }
  | committed {r : Revision} {outer : List Revision} (hcur : ed.history.current = r :: outer) :
    Step ed [] { ed with
      history := { ed.history with current := outer }.absorb r
      announced := if outer = [] then some (r.event .commit) else ed.announced }
  | rolledBack {r : Revision} {outer : List Revision} (hcur : ed.history.current = r :: outer) :
    Step ed [] { ed with
      history := { ed.history with current := outer }
      document := revertAll r.edits ed.document }
  | undone {r : Revision} {rest : List Revision} (hcur : ed.history.current = [])
      (hundo : ed.history.undo = r :: rest) :
    Step ed [] { ed with
      document := revertAll r.edits ed.document
      history := { ed.history with undo := rest, redo := r :: ed.history.redo }
      announced := some (r.event .undo) }
  | redone {r : Revision} {rest : List Revision} (hcur : ed.history.current = [])
      (hredo : ed.history.redo = r :: rest) :
    Step ed [] { ed with
      document := applyAll r.edits ed.document
      history := { ed.history with redo := rest }.pushUndo r
      announced := some (r.event .redo) }
  | cleared : Step ed [] { ed with history := ed.history.clear }
  | discarded {id : ElementId} (hcur : ed.history.current = [])
      (hx : ed.document.tree.CanErase id) :
    Step ed [] { ed with
      document := ed.document.eraseAll id
      history := ed.history.forget (ed.document.tree.walk id) }

theorem Step.sound (h : Step ed wanted ed') (hs : ed.history.Sound ed.document) :
    ed'.history.Sound ed'.document := by
  cases h with
  | grown => exact hs.createAll _
  | absorbed hr =>
      rw [hr.history]
      exact (hs.createAll _).absorb hr.document
  | started label => exact hs.start label
  | committed hcur =>
      obtain ⟨mid, hr, hinner⟩ := hs.exists_inner hcur
      exact hinner.absorb hr
  | rolledBack hcur =>
      obtain ⟨mid, hr, hinner⟩ := hs.exists_inner hcur
      simp only [hr.revertAll_eq]
      exact hinner
  | undone hcur hundo =>
      obtain ⟨mid, hr, hback⟩ := hs.exists_undo hcur hundo
      simp only [hr.revertAll_eq]
      exact hback
  | redone hcur hredo =>
      obtain ⟨mid, hr, hon⟩ := hs.exists_redo hcur hredo
      simp only [hr.applyAll_eq]
      exact hon
  | cleared => exact hs.clear
  | discarded hcur hx => exact hs.forget hcur hx

/-- Outside all transactions, what is announced as a commit is a revision that was made. -/
theorem Step.exists_absorbs (h : Step ed wanted ed') (hcur : ed.history.current = [])
    (hsilent : ed.announced = none) {event : Event} (hevent : ed'.announced = some event)
    (hkind : event.kind = .commit) : ∃ r, Absorbs wanted r ed ed' ∧ event = r.event .commit := by
  cases h with
  | @absorbed _ r _ hr =>
      have hannounced := hr.announced
      rw [if_pos hcur, hevent] at hannounced
      exact ⟨r, hr, Option.some.inj hannounced⟩
  | grown | started | cleared | discarded => cases hsilent.symm.trans hevent
  | committed hopen | rolledBack hopen => cases hcur.symm.trans hopen
  | undone | redone =>
      obtain rfl := Option.some.inj hevent
      cases hkind

end Editor

namespace Action

open Edit Editor

variable {ed : Editor} {wanted : List Creation}

/-- An action takes a step, or fails with nothing done but some of the elements created. -/
def Steps (action : Action Reply) (wanted : List Creation) (ed : Editor) : Prop :=
  action.Yields ed (fun _ ed' => Step ed wanted ed')
    fun ed' => ∃ cs, cs <+: wanted ∧ ed' = ed.grown cs

theorem Settles.steps {action : Action Unit} (h : action.Settles ed) :
    (done action).Steps [] ed := by
  refine yields_bind.2 (h.imp ?_ ?_)
  · intro _ ed' hok
    rcases hok with rfl | ⟨r, hr⟩
    · exact .grown []
    · exact .absorbed hr
  · intro ed' hfail
    obtain rfl : ed' = ed := hfail
    exact unchanged ed' []

theorem steps_done {action : Action Unit}
    (h : action.Yields ed (fun _ ed' => Step ed [] ed') (· = ed)) : (done action).Steps [] ed := by
  refine yields_bind.2 (h.imp (fun _ _ hok => hok) ?_)
  intro ed' hfail
  obtain rfl : ed' = ed := hfail
  exact unchanged ed' []

theorem steps_commit : (done (commit false)).Steps [] ed := by
  apply steps_done
  simp only [commit, yields_bind, yields_ensureMutable, yields_get, yields_demand]
  refine ⟨fun _ => trivial, fun closed hclosed => ?_⟩
  cases hcur : ed.history.current with
  | nil => simp [History.commit, hcur] at hclosed
  | cons r outer =>
      have hstep : Step ed [] _ := .committed hcur
      obtain rfl := Option.some.inj ((History.commit_eq hcur).symm.trans hclosed)
      by_cases houter : outer = []
      · simp only [if_pos houter] at hstep ⊢
        exact hstep
      · simp only [if_neg houter] at hstep ⊢
        exact hstep

theorem steps_rollback : (done (rollback false)).Steps [] ed := by
  apply steps_done
  simp only [rollback, yields_bind, yields_ensureMutable, yields_get]
  split
  · exact rfl
  · next r outer hcur => exact .rolledBack hcur

theorem yields_refuseInside {operation : Exclusive} {post : Unit → Editor → Prop}
    {fail : Editor → Prop} (hfail : fail ed) (hpost : ed.history.current = [] → post () ed) :
    (refuseInside operation).Yields ed post fail := by
  simp only [refuseInside, yields_bind, yields_get, yields_refuse]
  refine ⟨fun _ => hfail, fun hdepth => hpost ?_⟩
  have hlength : ¬ 0 < ed.history.current.length := of_decide_eq_false hdepth
  exact List.length_eq_zero_iff.1 (by omega)

theorem steps_undo : (done (undo false)).Steps [] ed := by
  refine steps_done (yields_bind.2 (yields_ensureMutable.2 (yields_bind.2 ?_)))
  refine yields_refuseInside rfl fun hcur => ?_
  simp only [yields_bind, yields_get]
  split
  · exact rfl
  · next r rest hundo => exact .undone hcur hundo

theorem steps_redo : (done (redo false)).Steps [] ed := by
  refine steps_done (yields_bind.2 (yields_ensureMutable.2 (yields_bind.2 ?_)))
  refine yields_refuseInside rfl fun hcur => ?_
  simp only [yields_bind, yields_get]
  split
  · exact rfl
  · next r rest hredo => exact .redone hcur hredo

theorem steps_discard (id : ElementId) : (done (discard false id)).Steps [] ed := by
  refine steps_done ((yields_discard id).imp ?_ fun _ hfail => hfail)
  intro _ ed' hok
  obtain ⟨hcur, hx, rfl⟩ := hok
  exact .discarded hcur hx

theorem steps_create (typeName : String) (name : Option String) :
    (Reply.element <$> create false typeName name).Steps [⟨typeName, name⟩] ed :=
  yields_map.2 (yields_create.2 ⟨fun _ => unchanged ed _, fun _ => .grown _⟩)

theorem steps_importStyles (hwf : ed.document.tree.WellFormed) (sheet : Css.StyleSheet)
    (names : List String) : (Reply.elements <$> importStyles false sheet names).Steps
      (Command.importStyles sheet names).creations ed := by
  refine yields_map.2 ((atomic_importStyles hwf sheet names).imp ?_ fun _ hfail => hfail)
  intro ids ed' hok
  obtain ⟨-, r, hr⟩ := hok
  exact .absorbed hr

theorem steps_cacheValues : (Reply.snapshot <$> cacheValues false).Steps [] ed := by
  refine yields_map.2 (yields_bind.2 (yields_ensureMutable.2 (yields_bind.2 ?_)))
  refine yields_refuseInside (unchanged ed []) fun _ => ?_
  simp only [yields_bind, yields_document, yields_pure]
  exact .grown _

end Action

/-- While listeners are being notified every command is refused by the operation that it is. -/
theorem Command.action_of_notifying (command : Command) (files : Files) :
    command.action true files = throw .reentrantMutation := by
  cases command <;> rfl

open ReportModel.Action in
/-- Every command takes a step, or fails with nothing done but some elements created. -/
theorem Command.steps_action (command : Command) (files : Files) {ed : Editor}
    (hwf : ed.document.tree.WellFormed) :
    (command.action false files).Steps command.creations ed := by
  cases command with
  | start label => exact steps_done (.started label)
  | commit => exact steps_commit
  | rollback => exact steps_rollback
  | undo => exact steps_undo
  | redo => exact steps_redo
  | clearHistory => exact steps_done .cleared
  | create typeName name => exact steps_create typeName name
  | add id place index => exact (atomic_add hwf id place index).settles.steps
  | drop id => exact (atomic_drop hwf id).settles.steps
  | move id place index => exact (atomic_move hwf id place index).settles.steps
  | discard id => exact steps_discard id
  | rename id name => exact (settles_rename hwf id name).steps
  | setValue id property value => exact (settles_setValue hwf id property value).steps
  | clearValue id property => exact (settles_clearValue hwf id property).steps
  | setMask id property mask => exact (settles_setMask hwf id property mask).steps
  | setBase id reference => exact (settles_setBase hwf id reference).steps
  | clearBase id => exact (settles_clearBase hwf id).steps
  | includeLibrary nameSpace library => exact (settles_includeLibrary hwf nameSpace library).steps
  | dropLibrary nameSpace => exact (settles_dropLibrary hwf nameSpace).steps
  | reloadLibrary nameSpace library => exact (settles_reloadLibrary hwf nameSpace library).steps
  | addFile host fileName => exact (settles_addFile hwf files host fileName).steps
  | addSheet host link sheet => exact (settles_addSheet hwf host link sheet).steps
  | dropSheet host fileName => exact (settles_dropSheet hwf host fileName).steps
  | renameSheet host fileName newName =>
      exact (settles_renameSheet hwf files host fileName newName).steps
  | reloadSheet host fileName => exact (settles_reloadSheet hwf files host fileName).steps
  | importStyles sheet names => exact steps_importStyles hwf sheet names
  | cacheValues => exact steps_cacheValues

end ReportModel
