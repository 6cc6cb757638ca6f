import ReportModel.Module.Command
import ReportModel.Proofs.Editor.Transaction

/-!
# What edits do

The answer of an edit, the document it leaves and the revision it closes depend on the document it
finds and not on the history: not on which transactions are open, and not on what can be undone. So
an edit does the same wherever it is made, and only its revision ends up in different places.
-/

namespace ReportModel

open Edit

namespace Editor

variable {ed : Editor} {d d' : Document} {edits rest : List Edit}

def closed (ed : Editor) (d : Document) : Option Revision → Editor
  | none => { ed with document := d }
  | some r => {
      document := d
      history := ed.history.absorb r
      announced := if ed.history.current = [] then some (r.event .commit) else ed.announced }

def worked (ed : Editor) (d : Document) (edits : List Edit) : Editor :=
  { ed with document := d, history := ed.history.absorb ⟨"", edits⟩ }

theorem worked_nil (hin : ed.history.current ≠ []) (d : Document) :
    ed.worked d [] = { ed with document := d } := by
  rw [worked, absorb_nil hin]

theorem worked_worked (hin : ed.history.current ≠ []) :
    (ed.worked d edits).worked d' rest = ed.worked d' (edits ++ rest) := by
  obtain ⟨first, outer, hcur⟩ := List.exists_cons_of_ne_nil hin
  simp [worked, History.absorb, hcur]

/-- Inside a transaction a revision that is closed is part of it. -/
theorem closed_eq_worked (hin : ed.history.current ≠ []) (d : Document) (r : Option Revision) :
    ed.closed d r = ed.worked d ((r.map (·.edits)).getD []) := by
  cases r with
  | none => exact (worked_nil hin d).symm
  | some r =>
      obtain ⟨first, outer, hcur⟩ := List.exists_cons_of_ne_nil hin
      simp [closed, worked, History.absorb, hcur]

end Editor

namespace Action

open Editor

variable {α β : Type} {ed ed₁ ed₂ : Editor}

/-- What an action answers and leaves. -/
def Gives (action : Action α) (ed : Editor) (result : Except DesignError α)
    (after : Editor) : Prop :=
  action ed = match result with
    | .ok a => .ok a after
    | .error error => .error error after

theorem Gives.bind {action : Action α} {next : α → Action β} {a : α}
    {result : Except DesignError β} (h : action.Gives ed (.ok a) ed₁)
    (hnext : (next a).Gives ed₁ result ed₂) : (action >>= next).Gives ed result ed₂ := by
  have hok : action ed = .ok a ed₁ := h
  have hbind : (action >>= next) ed = next a ed₁ := by
    simp only [Bind.bind, EStateM.bind, hok]
  exact hbind.trans hnext

theorem Gives.bind_error {action : Action α} {next : α → Action β} {error : DesignError}
    (h : action.Gives ed (.error error) ed₁) : (action >>= next).Gives ed (.error error) ed₁ := by
  have herror : action ed = .error error ed₁ := h
  simp only [Gives, Bind.bind, EStateM.bind, herror]

theorem Gives.seqRight {first : Action α} {second : Action β} {a : α}
    {result : Except DesignError β} (h : first.Gives ed (.ok a) ed₁)
    (hsecond : second.Gives ed₁ result ed₂) : (first *> second).Gives ed result ed₂ := by
  have hok : first ed = .ok a ed₁ := h
  have hseq : (first *> second) ed = second ed₁ := by
    simp only [SeqRight.seqRight, EStateM.seqRight, hok]
  exact hseq.trans hsecond

theorem gives_of_yields {action : Action α} {a : α}
    (h : action.Yields ed (fun b ed' => b = a ∧ ed' = ed₁) fun _ => False) :
    action.Gives ed (.ok a) ed₁ := by
  cases hresult : action ed with
  | ok b ed' =>
      obtain ⟨rfl, rfl⟩ := h.of_ok hresult
      exact hresult
  | error error ed' => exact (h.of_error hresult).elim

theorem gives_document : document.Gives ed (.ok ed.document) ed :=
  rfl

theorem gives_ensureMutable : (ensureMutable false).Gives ed (.ok ()) ed :=
  rfl

theorem gives_demand {error : DesignError} {o : Option α} {a : α} (h : o = some a) :
    (demand error o).Gives ed (.ok a) ed := by
  rw [h]
  rfl

theorem gives_refuse {condition : Bool} (h : condition = false) (error : DesignError) :
    (refuse condition error).Gives ed (.ok ()) ed := by
  rw [h]
  rfl

theorem gives_refuse_error {condition : Bool} (h : condition = true) (error : DesignError) :
    (refuse condition error).Gives ed (.error error) ed := by
  rw [h]
  rfl

theorem gives_lift_error {result : Except DesignError α} {error : DesignError}
    (h : result = .error error) : (lift result).Gives ed (.error error) ed := by
  rw [h]
  rfl

theorem gives_existing {id : ElementId} {e : Element} (he : ed.document.get? id = some e) :
    (existing id).Gives ed (.ok e) ed :=
  gives_document.bind (gives_demand he)

/-- A transaction that closes is a revision of the one around it, or one of its own. -/
theorem gives_commit {r : Revision} {outer : List Revision}
    (hcur : ed.history.current = r :: outer) :
    (commit false).Gives ed (.ok ()) { ed with
      history := { ed.history with current := outer }.absorb r
      announced := if outer = [] then some (r.event .commit) else ed.announced } := by
  apply gives_of_yields
  simp only [commit, yields_bind, yields_ensureMutable, yields_get, yields_demand,
    History.commit_eq hcur]
  refine ⟨Option.some_ne_none _, fun closed hclosed => ?_⟩
  obtain rfl := Option.some.inj hclosed
  by_cases houter : outer = []
  · simp only [if_pos houter]
    exact ⟨trivial, rfl⟩
  · simp only [if_neg houter]
    exact ⟨trivial, rfl⟩

theorem gives_rollback {r : Revision} {outer : List Revision}
    (hcur : ed.history.current = r :: outer) :
    (rollback false).Gives ed (.ok ()) { ed with
      history := { ed.history with current := outer }
      document := revertAll r.edits ed.document } := by
  apply gives_of_yields
  simp only [rollback, yields_bind, yields_ensureMutable, yields_get, hcur]
  exact ⟨trivial, rfl⟩

/-- An action only looks at the document. -/
def Reads (action : Action α) : Prop :=
  ∀ d, ∃ result, ∀ ed, ed.document = d → action.Gives ed result ed

/-- Inside a transaction an action changes the document and records some edits. -/
def Works (action : Action α) : Prop :=
  ∀ d, ∃ result d' edits, ∀ ed, ed.document = d → ed.history.current ≠ [] →
    action.Gives ed result (ed.worked d' edits)

/-- Wherever it is run, an action changes the document and closes a revision if it does more than
that. If it fails it closes none. -/
def Closes (action : Action α) : Prop :=
  ∀ d, ∃ result d' r, (∀ error, result = .error error → r = none) ∧
    ∀ ed, ed.document = d → action.Gives ed result (ed.closed d' r)

theorem Reads.closes {action : Action α} (h : action.Reads) : action.Closes := by
  intro d
  obtain ⟨result, h⟩ := h d
  refine ⟨result, d, none, fun _ _ => rfl, fun ed hd => ?_⟩
  subst hd
  exact h ed rfl

theorem Closes.works {action : Action α} (h : action.Closes) : action.Works := by
  intro d
  obtain ⟨result, d', r, -, h⟩ := h d
  refine ⟨result, d', (r.map (·.edits)).getD [], fun ed hd hin => ?_⟩
  rw [← closed_eq_worked hin]
  exact h ed hd

section bind

variable {action : Action α} {next : α → Action β}

theorem Reads.bind (h : action.Reads) (hnext : ∀ a, (next a).Reads) : (action >>= next).Reads := by
  intro d
  obtain ⟨result, h⟩ := h d
  cases result with
  | error error => exact ⟨.error error, fun ed hd => (h ed hd).bind_error⟩
  | ok a =>
      obtain ⟨result, hnext⟩ := hnext a d
      exact ⟨result, fun ed hd => (h ed hd).bind (hnext ed hd)⟩

theorem Closes.of_reads (h : action.Reads) (hnext : ∀ a, (next a).Closes) :
    (action >>= next).Closes := by
  intro d
  obtain ⟨result, h⟩ := h d
  cases result with
  | error error =>
      refine ⟨.error error, d, none, fun _ _ => rfl, fun ed hd => ?_⟩
      subst hd
      exact (h ed rfl).bind_error
  | ok a =>
      obtain ⟨result, d', r, hr, hnext⟩ := hnext a d
      exact ⟨result, d', r, hr, fun ed hd => (h ed hd).bind (hnext ed hd)⟩

theorem Closes.map (h : action.Closes) (f : α → β) : (f <$> action).Closes := by
  intro d
  obtain ⟨result, d', r, hr, h⟩ := h d
  cases result with
  | error error =>
      refine ⟨.error error, d', r, fun _ _ => hr error rfl, fun ed hd => ?_⟩
      have herror : action ed = .error error (ed.closed d' r) := h ed hd
      simp only [Gives, Functor.map, EStateM.map, herror]
  | ok a =>
      refine ⟨.ok (f a), d', r, by simp, fun ed hd => ?_⟩
      have hok : action ed = .ok a (ed.closed d' r) := h ed hd
      simp only [Gives, Functor.map, EStateM.map, hok]

theorem Closes.done {action : Action Unit} (h : action.Closes) : (Action.done action).Closes := by
  have hdone : Action.done action = (fun _ => Reply.done) <$> action := bind_pure_comp ..
  rw [hdone]
  exact h.map _

theorem Works.bind (h : action.Works) (hnext : ∀ a, (next a).Works) : (action >>= next).Works := by
  intro d
  obtain ⟨result, d₁, edits, h⟩ := h d
  cases result with
  | error error => exact ⟨.error error, d₁, edits, fun ed hd hin => (h ed hd hin).bind_error⟩
  | ok a =>
      obtain ⟨result, d₂, rest, hnext⟩ := hnext a d₁
      refine ⟨result, d₂, edits ++ rest, fun ed hd hin => (h ed hd hin).bind ?_⟩
      rw [← worked_worked hin]
      exact hnext (ed.worked d₁ edits) rfl (current_absorb_ne_nil hin _)

end bind

section reads

theorem reads_pure (a : α) : (pure a : Action α).Reads :=
  fun _ => ⟨.ok a, fun _ _ => rfl⟩

theorem reads_throw (error : DesignError) : (throw error : Action α).Reads :=
  fun _ => ⟨.error error, fun _ _ => rfl⟩

theorem reads_document : document.Reads := by
  intro d
  refine ⟨.ok d, fun ed hd => ?_⟩
  subst hd
  rfl

theorem reads_demand (error : DesignError) (o : Option α) : (demand error o).Reads := by
  cases o with
  | none => exact reads_throw error
  | some a => exact reads_pure a

theorem reads_refuse (condition : Bool) (error : DesignError) : (refuse condition error).Reads := by
  cases condition with
  | false => exact reads_pure ()
  | true => exact reads_throw error

theorem reads_lift (result : Except DesignError α) : (lift result).Reads := by
  cases result with
  | ok a => exact reads_pure a
  | error error => exact reads_throw error

theorem reads_ensureMutable : (ensureMutable false).Reads :=
  reads_pure ()

theorem closes_mutable {next : Unit → Action α} (h : (next ()).Closes) :
    (ensureMutable false >>= next).Closes :=
  .of_reads reads_ensureMutable fun _ => h

theorem reads_existing (id : ElementId) : (existing id).Reads :=
  reads_document.bind fun d => reads_demand _ (d.get? id)

theorem reads_checkBases : checkBases.Reads := by
  refine reads_document.bind fun d => ?_
  split
  · exact reads_throw _
  · exact reads_pure ()

theorem reads_included (nameSpace : String) : (included nameSpace).Reads := by
  refine reads_document.bind fun d => (reads_demand _ _).bind fun index => ?_
  exact (reads_demand _ _).bind fun library => reads_pure _

theorem reads_load (files : Files) (fileName : String) : (load files fileName).Reads :=
  reads_document.bind fun _ => reads_lift _

theorem reads_checkHost (host : ElementId) : (checkHost host).Reads :=
  (reads_existing host).bind fun _ => reads_document.bind fun _ => reads_refuse _ _

theorem reads_inclusion (host : ElementId) (fileName : String) :
    (inclusion host fileName).Reads := by
  refine (reads_checkHost host).bind fun _ => reads_document.bind fun d => ?_
  exact (reads_demand _ _).bind fun index => (reads_demand _ _).bind fun found => reads_pure _

end reads

section works

theorem works_execute (edit : Edit) : (execute edit).Works := by
  intro d
  refine ⟨.ok (), edit.apply d, [edit], fun ed hd hin => ?_⟩
  subst hd
  exact gives_of_yields ((yields_execute hin edit).2 ⟨rfl, rfl⟩)

theorem works_executeAll (edits : List Edit) : (executeAll edits).Works := by
  induction edits with
  | nil => exact (reads_pure ()).closes.works
  | cons edit rest ih => exact (works_execute edit).bind fun _ => ih

theorem works_mapM {f : α → Action β} (h : ∀ a, (f a).Works) (l : List α) : (l.mapM f).Works := by
  induction l with
  | nil => exact (reads_pure []).closes.works
  | cons a l ih =>
      rw [List.mapM_cons]
      exact (h a).bind fun b => ih.bind fun bs => (reads_pure _).closes.works

theorem start_worked (ed : Editor) (label : String) (d : Document) (edits : List Edit) :
    ({ ed with history := ed.history.start label } : Editor).worked d edits =
      { ed with
        document := d
        history := { ed.history with current := ⟨label, edits⟩ :: ed.history.current } } := by
  simp [worked, History.start, History.absorb]

theorem gives_transact {action : Action α} {label : String} {a : α}
    (h : action.Gives { ed with history := ed.history.start label } (.ok a) ed₁)
    (hcommit : (commit false).Gives ed₁ (.ok ()) ed₂) :
    (transact false label action).Gives ed (.ok a) ed₂ := by
  have hok : action { ed with history := ed.history.start label } = .ok a ed₁ := h
  have hpure : (pure a : Action α).Gives ed₂ (.ok a) ed₂ := rfl
  rw [Gives, transact_apply, hok]
  exact hcommit.seqRight hpure

theorem gives_transact_error {action : Action α} {label : String} {error : DesignError}
    (h : action.Gives { ed with history := ed.history.start label } (.error error) ed₁)
    (hrollback : (rollback false).Gives ed₁ (.ok ()) ed₂) :
    (transact false label action).Gives ed (.error error) ed₂ := by
  have herror : action { ed with history := ed.history.start label } = .error error ed₁ := h
  have hthrow : (throw error : Action α).Gives ed₂ (.error error) ed₂ := rfl
  rw [Gives, transact_apply, herror]
  exact hrollback.seqRight hthrow

/-- What an action does in a transaction of its own it does wherever it is run. -/
theorem closes_transact {action : Action α} (label : String) (h : action.Works) :
    (transact false label action).Closes := by
  intro d
  obtain ⟨result, d', edits, h⟩ := h d
  let opened (ed : Editor) : Editor := { ed with
    document := d'
    history := { ed.history with current := ⟨label, edits⟩ :: ed.history.current } }
  have hbody : ∀ ed : Editor, ed.document = d →
      action.Gives { ed with history := ed.history.start label } result (opened ed) := by
    intro ed hd
    have hgives := h { ed with history := ed.history.start label } hd (by simp [History.start])
    rwa [start_worked] at hgives
  have hcur : ∀ ed, (opened ed).history.current = ⟨label, edits⟩ :: ed.history.current :=
    fun _ => rfl
  cases result with
  | ok a =>
      refine ⟨.ok a, d', some ⟨label, edits⟩, by simp, fun ed hd => ?_⟩
      exact gives_transact (hbody ed hd) (gives_commit (hcur ed))
  | error error =>
      refine ⟨.error error, revertAll edits d', none, fun _ _ => rfl, fun ed hd => ?_⟩
      exact gives_transact_error (hbody ed hd) (gives_rollback (hcur ed))

end works

section edits

theorem closes_execute (label : String) (edit : Edit) :
    (transact false label (execute edit)).Closes :=
  closes_transact label (works_execute edit)

theorem closes_create (typeName : String) (name : Option String) :
    (create false typeName name).Closes := by
  intro d
  have hget : ∀ ed, (get : Action Editor).Gives ed (.ok ed) ed := fun _ => rfl
  cases hconcrete : d.tree.dictionary.isConcrete typeName with
  | false =>
      refine ⟨.error (.unknownElementType typeName), d, none, fun _ _ => rfl, fun ed hd => ?_⟩
      subst hd
      have hrefuse : (refuse (!ed.document.tree.dictionary.isConcrete typeName)
          (.unknownElementType typeName)).Gives ed (.error (.unknownElementType typeName)) ed := by
        rw [hconcrete]
        rfl
      exact gives_ensureMutable.bind ((hget ed).bind hrefuse.bind_error)
  | true =>
      refine ⟨.ok d.tree.elements.nextId, d.create ⟨typeName, name⟩, none, fun _ _ => rfl,
        fun ed hd => ?_⟩
      subst hd
      have hrefuse : (refuse (!ed.document.tree.dictionary.isConcrete typeName)
          (.unknownElementType typeName)).Gives ed (.ok ()) ed := by
        rw [hconcrete]
        rfl
      exact gives_ensureMutable.bind ((hget ed).bind (hrefuse.bind rfl))

theorem closes_add (id : ElementId) (place : Place) (index : Option Nat) :
    (add false id place index).Closes := by
  refine closes_mutable <| .of_reads reads_document fun d => .of_reads (reads_lift _) fun i => ?_
  apply closes_transact
  refine reads_document.closes.works.bind fun d' => (works_executeAll _).bind fun _ => ?_
  exact (works_execute _).bind fun _ => reads_checkBases.closes.works

theorem closes_drop (id : ElementId) : (drop false id).Closes := by
  refine closes_mutable <| .of_reads (reads_existing id) fun e =>
    .of_reads (reads_demand _ _) fun place => ?_
  refine .of_reads reads_document fun d => .of_reads (reads_demand _ _) fun index => ?_
  exact closes_execute _ _

theorem closes_move (id : ElementId) (place : Place) (index : Option Nat) :
    (move false id place index).Closes :=
  closes_transact _ ((closes_drop id).works.bind fun _ => (closes_add id place index).works)

theorem closes_rename (id : ElementId) (name : Option String) : (rename false id name).Closes := by
  have hrename : ∀ e : Element, Closes (if e.name ≠ name then transact false "rename element" (do
      execute (.name id e.name name)
      checkBases) else pure ()) := by
    intro e
    split
    · exact closes_transact _ ((works_execute _).bind fun _ => reads_checkBases.closes.works)
    · exact (reads_pure ()).closes
  refine closes_mutable <| .of_reads (reads_existing id) fun e =>
    .of_reads reads_document fun d => ?_
  refine .of_reads (reads_refuse _ _) fun _ => ?_
  cases name with
  | none => exact hrename e
  | some name =>
      cases hplace : e.place with
      | none => exact hrename e
      | some place => exact .of_reads (reads_refuse _ _) fun _ => hrename e

theorem closes_setValue (id : ElementId) (property : String) (value : Value) :
    (setValue false id property value).Closes := by
  refine closes_mutable <| .of_reads reads_document fun d =>
    .of_reads (reads_lift _) fun definition => ?_
  refine .of_reads (reads_existing id) fun e => .of_reads (reads_lift _) fun new => ?_
  change Closes (if _ then _ else _)
  split
  · exact closes_execute _ _
  · exact (reads_pure ()).closes

theorem closes_clearValue (id : ElementId) (property : String) :
    (clearValue false id property).Closes := by
  refine closes_mutable <| .of_reads reads_document fun d => .of_reads (reads_lift _) fun _ => ?_
  refine .of_reads (reads_existing id) fun e => ?_
  cases e.value? property with
  | none => exact (reads_pure ()).closes
  | some old => exact closes_execute _ _

theorem closes_setMask (id : ElementId) (property : String) (mask : Option Mask) :
    (setMask false id property mask).Closes := by
  refine closes_mutable <| .of_reads (reads_existing id) fun e =>
    .of_reads reads_document fun d => ?_
  refine .of_reads (reads_refuse _ _) fun _ => ?_
  change Closes (if _ then _ else _)
  split
  · exact closes_execute _ _
  · exact (reads_pure ()).closes

theorem closes_setBase (id : ElementId) (reference : Reference) :
    (setBase false id reference).Closes := by
  refine closes_mutable <| .of_reads (reads_existing id) fun e =>
    .of_reads reads_document fun d => ?_
  refine .of_reads (reads_demand _ _) fun base => .of_reads (reads_refuse _ _) fun _ => ?_
  exact .of_reads (reads_refuse _ _) fun _ => closes_execute _ _

theorem closes_clearBase (id : ElementId) : (clearBase false id).Closes := by
  refine closes_mutable <| .of_reads (reads_existing id) fun e => ?_
  cases e.base with
  | none => exact (reads_pure ()).closes
  | some old => exact closes_execute _ _

theorem closes_includeLibrary (nameSpace : String) (library : Document) :
    (includeLibrary false nameSpace library).Closes := by
  refine closes_mutable <| .of_reads (reads_refuse _ _) fun _ =>
    .of_reads reads_document fun d => ?_
  exact .of_reads (reads_refuse _ _) fun _ => closes_execute _ _

theorem closes_dropLibrary (nameSpace : String) : (dropLibrary false nameSpace).Closes :=
  closes_mutable <| .of_reads (reads_included nameSpace) fun _ => closes_execute _ _

theorem closes_reloadLibrary (nameSpace : String) (library : Document) :
    (reloadLibrary false nameSpace library).Closes := by
  refine closes_mutable <| .of_reads (reads_refuse _ _) fun _ => ?_
  exact .of_reads (reads_included nameSpace) fun _ => closes_execute _ _

theorem closes_addSheet (host : ElementId) (link : Css.Link) (sheet : Css.StyleSheet) :
    (addSheet false host link sheet).Closes := by
  refine closes_mutable <| .of_reads (reads_checkHost host) fun _ =>
    .of_reads reads_document fun d => ?_
  exact .of_reads (reads_refuse _ _) fun _ => closes_execute _ _

theorem closes_addFile (files : Files) (host : ElementId) (fileName : String) :
    (addFile false files host fileName).Closes := by
  refine closes_mutable <| .of_reads (reads_checkHost host) fun _ => ?_
  exact .of_reads (reads_load files fileName) fun sheet => closes_addSheet host _ sheet

theorem closes_dropSheet (host : ElementId) (fileName : String) :
    (dropSheet false host fileName).Closes := by
  refine closes_mutable <| .of_reads (reads_inclusion host fileName) fun found =>
    .of_reads reads_document fun d => ?_
  cases d.styleOnlyIn? host found.1 with
  | some style => exact .of_reads (reads_throw _) fun _ => closes_execute _ _
  | none => exact closes_execute _ _

theorem closes_renameSheet (files : Files) (host : ElementId) (fileName newName : String) :
    (renameSheet false files host fileName newName).Closes := by
  refine closes_mutable <| .of_reads (reads_inclusion host fileName) fun found =>
    .of_reads reads_document fun d => ?_
  refine .of_reads (reads_refuse _ _) fun _ => ?_
  exact .of_reads (reads_load files newName) fun sheet => closes_execute _ _

theorem closes_reloadSheet (files : Files) (host : ElementId) (fileName : String) :
    (reloadSheet false files host fileName).Closes := by
  refine closes_mutable <| .of_reads (reads_inclusion host fileName) fun found => ?_
  exact .of_reads (reads_load files fileName) fun sheet => closes_execute _ _

theorem works_importStyle (name : String) (style : Css.Style) :
    (importStyle false name style).Works := by
  refine (closes_create _ _).works.bind fun id => (works_executeAll _).bind fun _ => ?_
  refine reads_document.closes.works.bind fun d => (closes_add _ _ _).works.bind fun _ => ?_
  exact (reads_pure id).closes.works

theorem closes_importStyles (sheet : Css.StyleSheet) (names : List String) :
    (importStyles false sheet names).Closes := by
  refine closes_mutable <| closes_transact _ (works_mapM ?_ _)
  intro entry
  exact works_importStyle entry.1 entry.2

end edits

end Action

/-- A command that edits: it neither opens nor closes transactions itself, and does not go back and
forth in the history, free elements or look at the whole. -/
def Command.isEdit : Command → Bool
  | .start _ | .commit | .rollback | .undo | .redo | .clearHistory | .discard _ | .cacheValues =>
    false
  | _ => true

open ReportModel.Action in
/-- Every edit does the same wherever it is made. -/
theorem Command.closes_action (files : Files) {command : Command} (h : command.isEdit = true) :
    (command.action false files).Closes := by
  cases command with
  | start | commit | rollback | undo | redo | clearHistory | discard | cacheValues => cases h
  | create typeName name => exact (closes_create typeName name).map _
  | add id place index => exact (closes_add id place index).done
  | drop id => exact (closes_drop id).done
  | move id place index => exact (closes_move id place index).done
  | rename id name => exact (closes_rename id name).done
  | setValue id property value => exact (closes_setValue id property value).done
  | clearValue id property => exact (closes_clearValue id property).done
  | setMask id property mask => exact (closes_setMask id property mask).done
  | setBase id reference => exact (closes_setBase id reference).done
  | clearBase id => exact (closes_clearBase id).done
  | includeLibrary nameSpace library => exact (closes_includeLibrary nameSpace library).done
  | dropLibrary nameSpace => exact (closes_dropLibrary nameSpace).done
  | reloadLibrary nameSpace library => exact (closes_reloadLibrary nameSpace library).done
  | addFile host fileName => exact (closes_addFile files host fileName).done
  | addSheet host link sheet => exact (closes_addSheet host link sheet).done
  | dropSheet host fileName => exact (closes_dropSheet host fileName).done
  | renameSheet host fileName newName => exact (closes_renameSheet files host fileName newName).done
  | reloadSheet host fileName => exact (closes_reloadSheet files host fileName).done
  | importStyles sheet names => exact (closes_importStyles sheet names).map _

end ReportModel
