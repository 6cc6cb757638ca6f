import ReportModel.Proofs.Editor.Visits

/-!
# What operations leave

What an operation does to the document if it succeeds, said once for each operation: it passes its
checks, and what it leaves is the document with a certain edit made, or with some in turn, or the
document as it was.
-/

namespace ReportModel

open Edit

/-- The document with an element put at an index of a slot, and with the renames that this needs. -/
def Document.added (d : Document) (id : ElementId) (place : Place) (index : Nat) : Document :=
  Edit.apply (applyAll ((d.tree.planNames id place).map Rename.edit) d) (.attach id place index)

namespace Action

variable {α β : Type} {ed : Editor} {Q Q' : Document → Prop}

/-- If an action succeeds, it leaves a document of a certain kind. -/
def Leaves (action : Action α) (ed : Editor) (Q : Document → Prop) : Prop :=
  action.Yields ed (fun _ ed' => Q ed'.document) fun _ => True

theorem Leaves.imp {action : Action α} (h : action.Leaves ed Q) (hQ : ∀ d, Q d → Q' d) :
    action.Leaves ed Q' :=
  Yields.imp h (fun _ _ => hQ _) fun _ => id

theorem leaves_bind {action : Action β} {next : β → Action α} :
    (action >>= next).Leaves ed Q ↔
      action.Yields ed (fun b ed' => (next b).Leaves ed' Q) fun _ => True :=
  yields_bind

theorem Leaves.bind {action : Action β} {next : β → Action α} (h : action.Leaves ed Q')
    (hnext : ∀ b (ed' : Editor), Q' ed'.document → (next b).Leaves ed' Q) :
    (action >>= next).Leaves ed Q :=
  leaves_bind.2 (Yields.imp h (fun b ed' => hnext b ed') fun _ => id)

theorem Leaves.map {action : Action β} (h : action.Leaves ed Q) (f : β → α) :
    (f <$> action).Leaves ed Q :=
  yields_map.2 h

theorem leaves_ite {condition : Prop} [Decidable condition] {first second : Action α}
    (hfirst : condition → first.Leaves ed Q) (hsecond : ¬ condition → second.Leaves ed Q) :
    (if condition then first else second).Leaves ed Q :=
  yields_ite.2 ⟨hfirst, hsecond⟩

theorem leaves_commit (h : Q ed.document) : (commit false).Leaves ed Q := by
  simp only [Leaves, commit, yields_bind, yields_ensureMutable, yields_get, yields_demand]
  refine ⟨fun _ => trivial, fun closed _ => ?_⟩
  split <;> exact h

/-- A transaction keeps what its body gives and the document that its body leaves. -/
theorem yields_transact_document {body : Action α} {P : α → Document → Prop} (label : String)
    (h : body.Yields { ed with history := ed.history.start label }
      (fun a ed' => P a ed'.document) fun _ => True) :
    (transact false label body).Yields ed (fun a ed' => P a ed'.document) fun _ => True := by
  refine yields_transact_iff.2 (h.imp (fun a ed₁ hbody => leaves_commit hbody) fun ed₁ _ => ?_)
  simp only [rollback, yields_bind, yields_ensureMutable, yields_get]
  split <;> simp

theorem leaves_transact {body : Action α} (label : String)
    (h : body.Leaves { ed with history := ed.history.start label } Q) :
    (transact false label body).Leaves ed Q :=
  yields_transact_document label h

theorem leaves_execute {edit : Edit} (h : Q (edit.apply ed.document)) :
    (execute edit).Leaves ed Q := by
  simp only [Leaves, execute, yields_bind, yields_get, yields_demand, yields_set]
  exact ⟨fun _ => trivial, fun _ _ => h⟩

theorem leaves_executeAll {edits : List Edit} (h : Q (applyAll edits ed.document)) :
    (executeAll edits).Leaves ed Q := by
  induction edits generalizing ed with
  | nil => exact h
  | cons edit rest ih =>
      have hfirst : (execute edit).Leaves ed fun d => Q (applyAll rest d) := leaves_execute h
      exact hfirst.bind fun _ _ => ih

theorem leaves_transact_execute (label : String) {edit : Edit}
    (h : Q (edit.apply ed.document)) : (transact false label (execute edit)).Leaves ed Q :=
  leaves_transact label (leaves_execute h)

/-- A single edit in a transaction of its own is always made. -/
theorem yields_transact_execute (label : String) (edit : Edit) :
    (transact false label (execute edit)).Yields ed
      (fun _ ed' => ed'.document = edit.apply ed.document) fun _ => False := by
  obtain ⟨document, ⟨limit, current, undo, redo⟩, announced⟩ := ed
  cases current with
  | nil => exact rfl
  | cons outermost outer => exact rfl

theorem leaves_done {action : Action Unit} (h : action.Leaves ed Q) : (done action).Leaves ed Q :=
  h.bind fun _ _ hd => hd

theorem leaves_checkBases (h : ed.document.runawayReference? = none → Q ed.document) :
    checkBases.Leaves ed Q := by
  simp only [Leaves, checkBases, yields_bind, yields_document]
  split
  · trivial
  · next hpassed => exact h hpassed

section operations

variable {id : ElementId}

theorem leaves_create {typeName : String} {name : Option String}
    (hQ : Q (ed.document.create ⟨typeName, name⟩)) : (create false typeName name).Leaves ed Q :=
  yields_create.2 ⟨fun _ => trivial, fun _ => hQ⟩

theorem leaves_add_of {place : Place} {index : Option Nat}
    (hQ : ∀ i, ed.document.checkAdd id place index = .ok i →
      (ed.document.added id place i).runawayReference? = none →
      Q (ed.document.added id place i)) : (add false id place index).Leaves ed Q := by
  simp only [add, leaves_bind, yields_ensureMutable, yields_document, yields_lift]
  refine ⟨fun _ _ => trivial, fun i hi => leaves_transact "add element" (leaves_bind.2 ?_)⟩
  simp only [yields_document]
  have hrenames : (executeAll ((ed.document.tree.planNames id place).map Rename.edit)).Leaves
      { ed with history := ed.history.start "add element" }
      (· = applyAll ((ed.document.tree.planNames id place).map Rename.edit) ed.document) :=
    leaves_executeAll rfl
  refine hrenames.bind fun _ ed₁ hed₁ => ?_
  have hattach : (execute (.attach id place i)).Leaves ed₁ (· = ed.document.added id place i) :=
    leaves_execute (by rw [hed₁]; rfl)
  refine hattach.bind fun _ ed₂ hed₂ => leaves_checkBases fun hpassed => ?_
  rw [hed₂] at hpassed ⊢
  exact hQ i hi hpassed

theorem leaves_drop (hQ : ∀ e place i, ed.document.get? id = some e → e.place = some place →
      (ed.document.tree.contents place.container place.slot).idxOf? id = some i →
      Q (Edit.apply ed.document (.detach id place i))) : (drop false id).Leaves ed Q := by
  simp only [Leaves, drop, yields_bind, yields_ensureMutable, yields_document, yields_demand,
    yields_existing]
  refine ⟨fun _ => trivial, fun e he => ⟨fun _ => trivial, fun place hplace =>
    ⟨fun _ => trivial, fun i hi => ?_⟩⟩⟩
  exact leaves_transact_execute "drop element" (hQ e place i he hplace hi)

theorem leaves_move_of {place : Place} {index : Option Nat}
    (hQ : ∀ e old j d, ed.document.get? id = some e → e.place = some old →
      (ed.document.tree.contents old.container old.slot).idxOf? id = some j →
      Edit.apply ed.document (.detach id old j) = d → ∀ i, d.checkAdd id place index = .ok i →
      (d.added id place i).runawayReference? = none → Q (d.added id place i)) :
    (move false id place index).Leaves ed Q := by
  apply leaves_transact "move element"
  have hdrop : (drop false id).Leaves { ed with history := ed.history.start "move element" }
      fun d => ∀ i, d.checkAdd id place index = .ok i →
        (d.added id place i).runawayReference? = none → Q (d.added id place i) :=
    leaves_drop fun e old j he hold hj => hQ e old j _ he hold hj rfl
  exact hdrop.bind fun _ ed₁ hed₁ => leaves_add_of hed₁

theorem leaves_rename_of {name : Option String} (hself : Q ed.document)
    (hQ : ∀ e, ed.document.get? id = some e →
      (Edit.apply ed.document (.name id e.name name)).runawayReference? = none →
      Q (Edit.apply ed.document (.name id e.name name))) : (rename false id name).Leaves ed Q := by
  simp only [rename, leaves_bind, yields_ensureMutable, yields_document, yields_refuse,
    yields_existing]
  refine ⟨fun _ => trivial, fun e he => ⟨fun _ => trivial, fun _ => ?_⟩⟩
  have hrename : (if e.name ≠ name then transact false "rename element" (do
        execute (.name id e.name name)
        checkBases) else pure ()).Leaves ed Q := by
    refine leaves_ite (fun _ => leaves_transact "rename element" ?_) fun _ => hself
    have hname : (execute (.name id e.name name)).Leaves
        { ed with history := ed.history.start "rename element" }
        (· = Edit.apply ed.document (.name id e.name name)) := leaves_execute rfl
    refine hname.bind fun _ ed₁ hed₁ => leaves_checkBases fun hpassed => ?_
    rw [hed₁] at hpassed ⊢
    exact hQ e he hpassed
  cases name with
  | none => exact hrename
  | some n =>
      cases e.place with
      | none => exact hrename
      | some place =>
          simp only [leaves_bind, yields_refuse]
          exact ⟨fun _ => trivial, fun _ => hrename⟩

theorem leaves_setValue_of {property : String} {value : Value} (hself : Q ed.document)
    (hQ : ∀ definition e new, ed.document.checkWritable id property = .ok definition →
      ed.document.get? id = some e →
      (definition.validate value).mapError DesignError.property = .ok new →
      Q (Edit.apply ed.document (.value id property (e.value? property) (some new)))) :
    (setValue false id property value).Leaves ed Q := by
  simp only [setValue, leaves_bind, yields_ensureMutable, yields_document, yields_lift,
    yields_existing]
  refine ⟨fun _ _ => trivial, fun definition hcheck => ⟨fun _ => trivial, fun e he =>
    ⟨fun _ _ => trivial, fun new hnew => leaves_ite (fun _ => ?_) fun _ => hself⟩⟩⟩
  exact leaves_transact_execute "set property" (hQ definition e new hcheck he hnew)

theorem leaves_clearValue_of {property : String} (hself : Q ed.document)
    (hQ : ∀ e old, ed.document.get? id = some e → e.value? property = some old →
      Q (Edit.apply ed.document (.value id property (some old) none))) :
    (clearValue false id property).Leaves ed Q := by
  simp only [clearValue, leaves_bind, yields_ensureMutable, yields_document, yields_lift,
    yields_existing]
  refine ⟨fun _ _ => trivial, fun definition _ => ⟨fun _ => trivial, fun e he => ?_⟩⟩
  cases hold : e.value? property with
  | none => exact hself
  | some old => exact leaves_transact_execute "clear property" (hQ e old he hold)

theorem leaves_setMask_of {property : String} {mask : Option Mask} (hself : Q ed.document)
    (hQ : ∀ e, ed.document.get? id = some e →
      (ed.document.tree.dictionary.property? e.typeName property).isNone = false →
      Q (Edit.apply ed.document (.mask id property (e.mask? property) mask))) :
    (setMask false id property mask).Leaves ed Q := by
  simp only [setMask, leaves_bind, yields_ensureMutable, yields_document, yields_refuse,
    yields_existing]
  refine ⟨fun _ => trivial, fun e he => ⟨fun _ => trivial, fun hdefined =>
    leaves_ite (fun _ => ?_) fun _ => hself⟩⟩
  exact leaves_transact_execute "set property mask" (hQ e he hdefined)

theorem leaves_setBase_of {reference : Reference} (hQ : ∀ e base, ed.document.get? id = some e →
      ed.document.lookup e.typeName reference = some base →
      ed.document.wouldRunOn id base = false →
      Q (Edit.apply ed.document (.base id e.base (some reference)))) :
    (setBase false id reference).Leaves ed Q := by
  simp only [setBase, leaves_bind, yields_ensureMutable, yields_document, yields_demand,
    yields_refuse, yields_existing]
  refine ⟨fun _ => trivial, fun e he => ⟨fun _ => trivial, fun base hlookup =>
    ⟨fun _ => trivial, fun _ => ⟨fun _ => trivial, fun hfree => ?_⟩⟩⟩⟩
  exact leaves_transact_execute "set extends" (hQ e base he hlookup hfree)

theorem leaves_clearBase_of (hself : Q ed.document) (hQ : ∀ e old, ed.document.get? id = some e →
      e.base = some old → Q (Edit.apply ed.document (.base id (some old) none))) :
    (clearBase false id).Leaves ed Q := by
  simp only [clearBase, leaves_bind, yields_ensureMutable, yields_existing]
  refine ⟨fun _ => trivial, fun e he => ?_⟩
  cases hold : e.base with
  | none => exact hself
  | some old => exact leaves_transact_execute "clear extends" (hQ e old he hold)

theorem leaves_includeLibrary_of {nameSpace : String} {library : Document}
    (hQ : ed.document.library? nameSpace = none → Q (Edit.apply ed.document
      (.libraries (.insert ed.document.libraries.length ⟨nameSpace, library⟩)))) :
    (includeLibrary false nameSpace library).Leaves ed Q := by
  simp only [includeLibrary, leaves_bind, yields_ensureMutable, yields_document, yields_refuse]
  refine ⟨fun _ => trivial, fun _ => ⟨fun _ => trivial, fun hfree => ?_⟩⟩
  exact leaves_transact_execute "include library" (hQ (by simpa using hfree))

theorem leaves_dropLibrary_of {nameSpace : String}
    (hQ : ∀ index old, ed.document.libraries[index]? = some old →
      Q (Edit.apply ed.document (.libraries (.remove index old)))) :
    (dropLibrary false nameSpace).Leaves ed Q := by
  simp only [dropLibrary, leaves_bind, yields_ensureMutable]
  exact yields_included trivial fun index old _ hget =>
    leaves_transact_execute "drop library" (hQ index old hget)

theorem leaves_reloadLibrary_of {nameSpace : String} {library : Document}
    (hQ : ∀ index old, ed.document.libraryIndex? nameSpace = some index →
      ed.document.libraries[index]? = some old →
      Q (Edit.apply ed.document (.libraries (.replace index old ⟨nameSpace, library⟩)))) :
    (reloadLibrary false nameSpace library).Leaves ed Q := by
  simp only [reloadLibrary, leaves_bind, yields_ensureMutable, yields_refuse]
  exact ⟨fun _ => trivial, fun _ => yields_included trivial fun index old hindex hget =>
    leaves_transact_execute "reload library" (hQ index old hindex hget)⟩

/-- A stylesheet is added exactly if its file may be. -/
theorem yields_addSheet (id : ElementId) (link : Css.Link) (sheet : Css.StyleSheet) :
    (addSheet false id link sheet).Yields ed
      (fun _ ed' => ed.document.canAddSheet id link.fileName = true ∧
        ed'.document = Edit.apply ed.document
          (.sheets id (.insert (ed.document.sheets id).length ⟨link, sheet⟩)))
      fun _ => ed.document.canAddSheet id link.fileName = false := by
  simp only [addSheet, yields_bind, yields_ensureMutable, Document.canAddSheet]
  refine yields_checkHost (fun hhost => by rw [hhost, Bool.false_and]) fun hhost => ?_
  simp only [yields_document, yields_refuse, Document.isSome_inclusion? hhost, hhost,
    Bool.true_and]
  refine ⟨fun htaken => by simpa using htaken, fun hfree => ?_⟩
  refine (yields_transact_execute _ _).imp (fun _ ed' heq => ⟨?_, heq⟩) fun _ => False.elim
  simpa using hfree

theorem leaves_addSheet_of {link : Css.Link} {sheet : Css.StyleSheet}
    (hQ : ed.document.canAddSheet id link.fileName = true → Q (Edit.apply ed.document
      (.sheets id (.insert (ed.document.sheets id).length ⟨link, sheet⟩)))) :
    (addSheet false id link sheet).Leaves ed Q :=
  Yields.imp (yields_addSheet id link sheet) (fun _ _ ⟨hcan, heq⟩ => heq ▸ hQ hcan)
    fun _ _ => trivial

theorem yields_addFile (files : Files) (id : ElementId) (fileName : String) :
    (addFile false files id fileName).Yields ed
      (fun _ ed' => ed.document.canAddSheet id fileName = true ∧ ∃ sheet,
        files.load ed.document.tree.dictionary fileName = .ok sheet ∧
        ed'.document = Edit.apply ed.document
          (.sheets id (.insert (ed.document.sheets id).length ⟨{ fileName }, sheet⟩)))
      fun _ => (ed.document.canAddSheet id fileName &&
        (files.load ed.document.tree.dictionary fileName).isOk) = false := by
  simp only [addFile, yields_bind, yields_ensureMutable]
  refine yields_checkHost (fun hhost => ?_) fun _ => ?_
  · rw [Document.canAddSheet, hhost, Bool.false_and, Bool.false_and]
  · simp only [load, yields_bind, yields_document, yields_lift]
    refine ⟨fun error herror => ?_, fun sheet hload => ?_⟩
    · rw [herror]
      exact Bool.and_false _
    · refine (yields_addSheet id { fileName } sheet).imp ?_ fun _ hnot => ?_
      · rintro _ ed' ⟨hcan, heq⟩
        exact ⟨hcan, sheet, hload, heq⟩
      · rw [hnot, Bool.false_and]

theorem leaves_addFile_of {files : Files} {fileName : String}
    (hQ : ∀ sheet, files.load ed.document.tree.dictionary fileName = .ok sheet →
      (addSheet false id { fileName } sheet).Leaves ed Q) :
    (addFile false files id fileName).Leaves ed Q := by
  simp only [addFile, leaves_bind, yields_ensureMutable]
  refine yields_checkHost (fun _ => trivial) fun _ => ?_
  simp only [load, yields_bind, yields_document, yields_lift]
  exact ⟨fun _ _ => trivial, hQ⟩

theorem yields_dropSheet (id : ElementId) (fileName : String) :
    (dropSheet false id fileName).Yields ed
      (fun _ ed' => ∃ index old, ed.document.inclusionIndex? id fileName = some index ∧
        (ed.document.sheets id)[index]? = some old ∧
        ed.document.styleOnlyIn? id index = none ∧
        ed'.document = Edit.apply ed.document (.sheets id (.remove index old)))
      fun _ => ed.document.canDropSheet id fileName = false := by
  simp only [dropSheet, yields_bind, yields_ensureMutable, Document.canDropSheet]
  refine yields_inclusion (fun hnone => by rw [hnone]; rfl) fun index old hindex hget => ?_
  simp only [yields_document, hindex, Option.any_some]
  split
  · next style hstyle =>
    rw [yields_bind, yields_throw, hstyle]
    rfl
  · next hstyle =>
    exact (yields_transact_execute _ _).imp
      (fun _ _ heq => ⟨index, old, rfl, hget, hstyle, heq⟩) fun _ => False.elim

theorem leaves_dropSheet_of {fileName : String}
    (hQ : ∀ index old, ed.document.inclusionIndex? id fileName = some index →
      (ed.document.sheets id)[index]? = some old →
      Q (Edit.apply ed.document (.sheets id (.remove index old)))) :
    (dropSheet false id fileName).Leaves ed Q :=
  Yields.imp (yields_dropSheet id fileName)
    (fun _ _ ⟨index, old, hindex, hget, _, heq⟩ => heq ▸ hQ index old hindex hget)
    fun _ _ => trivial

theorem yields_renameSheet (files : Files) (id : ElementId) (fileName newName : String) :
    (renameSheet false files id fileName newName).Yields ed
      (fun _ ed' => ∃ index old sheet, ed.document.inclusionIndex? id fileName = some index ∧
        (ed.document.sheets id)[index]? = some old ∧
        (newName ≠ fileName → ed.document.inclusionIndex? id newName = none) ∧
        files.load ed.document.tree.dictionary newName = .ok sheet ∧
        ed'.document = Edit.apply ed.document
          (.sheets id (.replace index old ⟨{ old.link with fileName := newName }, sheet⟩)))
      fun _ => (ed.document.canRenameSheet id fileName newName &&
        (files.load ed.document.tree.dictionary newName).isOk) = false := by
  simp only [renameSheet, yields_bind, yields_ensureMutable, Document.canRenameSheet]
  refine yields_inclusion (fun hnone => by simp [hnone]) fun index old hindex hget => ?_
  simp only [load, yields_bind, yields_document, yields_refuse, yields_lift]
  refine ⟨fun htaken => ?_, fun hfree => ⟨fun error herror => ?_, fun sheet hload => ?_⟩⟩
  · simp only [Bool.and_eq_true, decide_eq_true_eq] at htaken
    simp [htaken.1, ← Option.not_isSome, htaken.2]
  · rw [herror]
    exact Bool.and_false _
  · have hname : newName ≠ fileName → ed.document.inclusionIndex? id newName = none := by
      intro hname
      simpa [hname] using hfree
    exact (yields_transact_execute _ _).imp
      (fun _ _ heq => ⟨index, old, sheet, hindex, hget, hname, hload, heq⟩) fun _ => False.elim

theorem leaves_renameSheet_of {files : Files} {fileName newName : String}
    (hQ : ∀ index old sheet, ed.document.inclusionIndex? id fileName = some index →
      (ed.document.sheets id)[index]? = some old →
      (newName ≠ fileName → ed.document.inclusionIndex? id newName = none) →
      files.load ed.document.tree.dictionary newName = .ok sheet →
      Q (Edit.apply ed.document
        (.sheets id (.replace index old ⟨{ old.link with fileName := newName }, sheet⟩)))) :
    (renameSheet false files id fileName newName).Leaves ed Q :=
  Yields.imp (yields_renameSheet files id fileName newName)
    (fun _ _ ⟨index, old, sheet, hindex, hget, hfree, hload, heq⟩ =>
      heq ▸ hQ index old sheet hindex hget hfree hload)
    fun _ _ => trivial

theorem leaves_reloadSheet_of {files : Files} {fileName : String}
    (hQ : ∀ index old sheet, ed.document.inclusionIndex? id fileName = some index →
      (ed.document.sheets id)[index]? = some old →
      files.load ed.document.tree.dictionary fileName = .ok sheet →
      Q (Edit.apply ed.document (.sheets id (.replace index old ⟨old.link, sheet⟩)))) :
    (reloadSheet false files id fileName).Leaves ed Q := by
  simp only [reloadSheet, leaves_bind, yields_ensureMutable]
  refine yields_inclusion (fun _ => trivial) fun index old hindex hget => ?_
  simp only [load, yields_bind, yields_document, yields_lift]
  exact ⟨fun _ _ => trivial, fun sheet hload =>
    leaves_transact_execute "reload css" (hQ index old sheet hindex hget hload)⟩

theorem yields_importStyle_of {name : String} {style : Css.Style}
    {P : ElementId → Document → Prop} (hP : ∀ new d, ed.document.tree.nextId = new →
      applyAll (giveAll new style.properties)
        (ed.document.create (styleCreation name)) = d →
      ∀ i, d.checkAdd new ⟨d.root, Vocabulary.stylesSlot⟩ none = .ok i →
      (d.added new ⟨d.root, Vocabulary.stylesSlot⟩ i).runawayReference? = none →
      P new (d.added new ⟨d.root, Vocabulary.stylesSlot⟩ i)) :
    (importStyle false name style).Yields ed (fun id ed' => P id ed'.document) fun _ => True := by
  refine yields_bind.2 (yields_create.2 ⟨fun _ => trivial, fun _ => ?_⟩)
  have hvalues : (executeAll (giveAll ed.document.tree.nextId style.properties)).Leaves
      (ed.grown [styleCreation name])
      (· = applyAll (giveAll ed.document.tree.nextId style.properties)
        (ed.document.create (styleCreation name))) := leaves_executeAll rfl
  refine yields_bind.2 (Yields.imp hvalues (fun _ ed₁ hed₁ => ?_) fun _ h => h)
  simp only [yields_bind, yields_document, yields_pure]
  exact leaves_add_of (Q := P ed.document.tree.nextId) fun i => hP _ _ rfl hed₁.symm i

theorem leaves_importStyle_of {name : String} {style : Css.Style}
    (hQ : ∀ new d, ed.document.tree.nextId = new →
      applyAll (giveAll new style.properties)
        (ed.document.create (styleCreation name)) = d →
      ∀ i, d.checkAdd new ⟨d.root, Vocabulary.stylesSlot⟩ none = .ok i →
      (d.added new ⟨d.root, Vocabulary.stylesSlot⟩ i).runawayReference? = none →
      Q (d.added new ⟨d.root, Vocabulary.stylesSlot⟩ i)) :
    (importStyle false name style).Leaves ed Q :=
  yields_importStyle_of hQ

theorem leaves_importStyles_of {sheet : Css.StyleSheet} {names : List String}
    (hself : Q ed.document) (hQ : ∀ name style (ed : Editor), style ∈ sheet.styles →
      Q ed.document → (importStyle false name style).Leaves ed Q) :
    (importStyles false sheet names).Leaves ed Q := by
  have hall : ∀ (styles : List (String × Css.Style)) {ed : Editor}, Q ed.document →
      (∀ entry ∈ styles, entry.2 ∈ sheet.styles) →
      (styles.mapM fun entry => importStyle false entry.1 entry.2).Leaves ed Q := by
    intro styles
    induction styles with
    | nil => exact fun h _ => h
    | cons entry styles ih =>
        intro ed h hstyles
        obtain ⟨hentry, hrest⟩ := List.forall_mem_cons.1 hstyles
        rw [List.mapM_cons]
        refine (hQ entry.1 entry.2 ed hentry h).bind fun _ ed₁ hed₁ => ?_
        exact (ih hed₁ hrest).bind fun _ _ hed₂ => hed₂
  refine leaves_transact "import css styles" (hall _ hself ?_)
  intro entry hentry
  obtain ⟨name, -, hfound⟩ := List.mem_filterMap.1 hentry
  obtain ⟨style, hstyle, rfl⟩ := Option.map_eq_some_iff.1 hfound
  exact List.mem_of_find?_eq_some hstyle

theorem leaves_cacheValues (hself : Q ed.document) : (cacheValues false).Leaves ed Q :=
  leaves_bind.2 <| yields_ensureMutable.2 <| leaves_bind.2 <|
    yields_refuseInside trivial fun _ => hself

end operations

end Action

end ReportModel
