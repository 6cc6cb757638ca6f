import ReportModel.Proofs.Document.Chains
import ReportModel.Proofs.Editor.Leaves

/-!
# Operations and chains of bases

No operation closes a loop of bases. Most change no base and give no name; giving an element a base
asks whether the chain comes back; and adding, moving and renaming check all chains in the end.
-/

namespace ReportModel

open Edit

namespace Document

variable {d d' : Document}

/-- A document differs from another one in its tree at most. -/
structure SameBesides (d' d : Document) : Prop where
  serial : d'.serial = d.serial
  libraries : d'.libraries = d.libraries

theorem SameBesides.trans {d'' : Document} (h : d''.SameBesides d') (h' : d'.SameBesides d) :
    d''.SameBesides d :=
  ⟨h.serial.trans h'.serial, h.libraries.trans h'.libraries⟩

/-- A document is another one with a changed tree, in which all chains of bases pass. -/
structure Checked (d' d : Document) : Prop extends d'.SameBesides d where
  passed : d'.runawayReference? = none

theorem Checked.follows (h : d'.Checked d) (hwf : d'.tree.WellFormed) (new : Option Document) :
    d'.Follows d new where
  serial := h.serial
  libraries _ hlibrary := Or.inl (h.libraries ▸ hlibrary)
  grounded _ := grounded_of_runawayReference? hwf h.passed

theorem follows_modify (d : Document) (id : ElementId) {f : Element → Element}
    (htype : ∀ e, (f e).typeName = e.typeName)
    (hbase : ∀ e, (f e).base = e.base ∨ (f e).base = none) (new : Option Document) :
    (onTree d (·.modify id f)).Follows d new :=
  Follows.of_tree (fun h => h.modify id htype hbase) new

/-- An edit that changes an element, and gives it no base, closes no loop. -/
theorem follows_edit {edit : Edit} {id : ElementId} {f : Element → Element}
    (hedit : Edit.apply d edit = onTree d (·.modify id f))
    (htype : ∀ e, (f e).typeName = e.typeName)
    (hbase : ∀ e, (f e).base = e.base ∨ (f e).base = none) :
    (Edit.apply d edit).Follows d none := by
  rw [hedit]
  exact follows_modify d id htype hbase none

theorem follows_createAll (hwf : d.tree.WellFormed) (cs : List Creation) (new : Option Document) :
    (d.createAll cs).Follows d new := by
  induction cs generalizing d with
  | nil => exact Follows.refl d new
  | cons c cs ih =>
      have hcreate : (d.create c).Follows d new :=
        Follows.of_tree (fun h => h.create hwf c.typeName c.name) new
      exact (ih (d := d.create c) (hwf.create _ _)).trans hcreate

theorem follows_eraseAll (d : Document) (id : ElementId) (new : Option Document) :
    (d.eraseAll id).Follows d new :=
  Follows.of_tree (fun h => h.eraseAll id) new

end Document

namespace Edit

theorem sameBesides_renames (plan : List Rename) (d : Document) :
    (applyAll (plan.map Rename.edit) d).SameBesides d := by
  induction plan generalizing d with
  | nil => exact ⟨rfl, rfl⟩
  | cons rename plan ih => exact (ih _).trans ⟨rfl, rfl⟩

theorem sameBesides_added (d : Document) (id : ElementId) (place : Place) (index : Nat) :
    (d.added id place index).SameBesides d :=
  have hattach : (d.added id place index).SameBesides
      (applyAll ((d.tree.planNames id place).map Rename.edit) d) := ⟨rfl, rfl⟩
  hattach.trans (sameBesides_renames _ d)

theorem sameBesides_giveAll (id : ElementId) (entries : List (String × Value)) (d : Document) :
    (applyAll (giveAll id entries) d).SameBesides d := by
  induction entries generalizing d with
  | nil => exact ⟨rfl, rfl⟩
  | cons entry entries ih => exact (ih _).trans ⟨rfl, rfl⟩

end Edit

namespace Action

variable {ed : Editor}

section operations

open Document

variable (id : ElementId) (place : Place) (index : Option Nat)

theorem leaves_add : (add false id place index).Leaves ed (Checked · ed.document) :=
  leaves_add_of fun _ _ hpassed => ⟨sameBesides_added .., hpassed⟩

theorem leaves_move : (move false id place index).Leaves ed (Checked · ed.document) := by
  apply leaves_move_of
  rintro e old j _ - - - rfl i - hpassed
  have hdrop : (Edit.apply ed.document (.detach id old j)).SameBesides ed.document := ⟨rfl, rfl⟩
  exact ⟨(sameBesides_added ..).trans hdrop, hpassed⟩

theorem leaves_rename (name : Option String) :
    (rename false id name).Leaves ed fun d => d = ed.document ∨ d.Checked ed.document :=
  leaves_rename_of (Or.inl rfl) fun _ _ hpassed => Or.inr ⟨⟨rfl, rfl⟩, hpassed⟩

theorem leaves_importStyle (name : String) (style : Css.Style) :
    (importStyle false name style).Leaves ed (Checked · ed.document) := by
  apply leaves_importStyle_of
  rintro new _ - rfl i - hpassed
  refine ⟨(sameBesides_added ..).trans ?_, hpassed⟩
  exact (sameBesides_giveAll new style.properties _).trans ⟨rfl, rfl⟩

theorem leaves_importStyles (sheet : Css.StyleSheet) (names : List String) :
    (importStyles false sheet names).Leaves ed
      fun d => d = ed.document ∨ d.Checked ed.document := by
  refine leaves_importStyles_of (Or.inl rfl) fun name style ed₁ _ hed₁ => ?_
  refine (leaves_importStyle name style).imp fun d hd => Or.inr ?_
  rcases hed₁ with heq | hed₁
  · rwa [heq] at hd
  · exact ⟨hd.toSameBesides.trans hed₁.toSameBesides, hd.passed⟩

theorem leaves_setValue (property : String) (value : Value) :
    (setValue false id property value).Leaves ed (Follows · ed.document none) :=
  leaves_setValue_of (.refl _ _) fun _ _ _ _ _ _ =>
    follows_edit rfl (fun _ => rfl) fun _ => Or.inl rfl

theorem leaves_clearValue (property : String) :
    (clearValue false id property).Leaves ed (Follows · ed.document none) :=
  leaves_clearValue_of (.refl _ _) fun _ _ _ _ =>
    follows_edit rfl (fun _ => rfl) fun _ => Or.inl rfl

theorem leaves_setMask (property : String) (mask : Option Mask) :
    (setMask false id property mask).Leaves ed (Follows · ed.document none) :=
  leaves_setMask_of (.refl _ _) fun _ _ _ =>
    follows_edit rfl (fun _ => rfl) fun _ => Or.inl rfl

theorem leaves_setBase (reference : Reference) :
    (setBase false id reference).Leaves ed (Follows · ed.document none) := by
  apply leaves_setBase_of
  intro e base he hlookup hfree
  exact Follows.of_tree (fun h => grounded_base h he hlookup hfree) none

theorem leaves_clearBase : (clearBase false id).Leaves ed (Follows · ed.document none) :=
  leaves_clearBase_of (.refl _ _) fun _ _ _ _ =>
    follows_edit rfl (fun _ => rfl) fun _ => Or.inr rfl

theorem leaves_includeLibrary (nameSpace : String) (library : Document) :
    (includeLibrary false nameSpace library).Leaves ed (Follows · ed.document (some library)) := by
  refine leaves_includeLibrary_of fun _ => ⟨rfl, fun other hother => ?_, fun h => h⟩
  rcases List.mem_append.1 hother with hother | hother
  · exact Or.inl (List.mem_of_mem_take hother)
  · rcases List.mem_cons.1 hother with rfl | hother
    · exact Or.inr rfl
    · exact Or.inl (List.mem_of_mem_drop hother)

theorem leaves_dropLibrary (nameSpace : String) :
    (dropLibrary false nameSpace).Leaves ed (Follows · ed.document none) := by
  refine leaves_dropLibrary_of fun index _ _ => ⟨rfl, fun other hother => Or.inl ?_, fun h => h⟩
  exact List.mem_of_mem_eraseIdx hother

theorem leaves_reloadLibrary (nameSpace : String) (library : Document) :
    (reloadLibrary false nameSpace library).Leaves ed (Follows · ed.document (some library)) := by
  refine leaves_reloadLibrary_of fun index old _ _ => ⟨rfl, fun other hother => ?_, fun h => h⟩
  rcases List.mem_or_eq_of_mem_set hother with hother | rfl
  · exact Or.inl hother
  · exact Or.inr rfl

theorem leaves_addSheet (link : Css.Link) (sheet : Css.StyleSheet) :
    (addSheet false id link sheet).Leaves ed (Follows · ed.document none) :=
  leaves_addSheet_of fun _ =>
    follows_edit rfl (fun _ => rfl) fun _ => Or.inl rfl

theorem leaves_addFile (files : Files) (fileName : String) :
    (addFile false files id fileName).Leaves ed (Follows · ed.document none) :=
  leaves_addFile_of fun sheet _ => leaves_addSheet id _ sheet

theorem leaves_dropSheet (fileName : String) :
    (dropSheet false id fileName).Leaves ed (Follows · ed.document none) :=
  leaves_dropSheet_of fun _ _ _ _ =>
    follows_edit rfl (fun _ => rfl) fun _ => Or.inl rfl

theorem leaves_renameSheet (files : Files) (fileName newName : String) :
    (renameSheet false files id fileName newName).Leaves ed (Follows · ed.document none) :=
  leaves_renameSheet_of fun _ _ _ _ _ _ _ =>
    follows_edit rfl (fun _ => rfl) fun _ => Or.inl rfl

theorem leaves_reloadSheet (files : Files) (fileName : String) :
    (reloadSheet false files id fileName).Leaves ed (Follows · ed.document none) :=
  leaves_reloadSheet_of fun _ _ _ _ _ _ =>
    follows_edit rfl (fun _ => rfl) fun _ => Or.inl rfl

theorem leaves_rollback : (rollback false).Leaves ed (· ∈ ed.documents) := by
  simp only [Leaves, rollback, yields_bind, yields_ensureMutable, yields_get]
  split
  · trivial
  · next r outer hcur =>
    exact History.mem_documents_of_inner hcur (History.self_mem_documents _ _)

theorem leaves_undo (hs : ed.history.Sound ed.document) :
    (undo false).Leaves ed (· ∈ ed.documents) := by
  refine leaves_bind.2 (yields_ensureMutable.2 (leaves_bind.2 ?_))
  refine yields_refuseInside trivial fun hcur => ?_
  simp only [Leaves, yields_bind, yields_get]
  split
  · trivial
  · next r rest hundo =>
    exact History.mem_documents_of_undo hs hcur hundo (History.self_mem_documents _ _)

theorem leaves_redo (hs : ed.history.Sound ed.document) :
    (redo false).Leaves ed (· ∈ ed.documents) := by
  refine leaves_bind.2 (yields_ensureMutable.2 (leaves_bind.2 ?_))
  refine yields_refuseInside trivial fun hcur => ?_
  simp only [Leaves, yields_bind, yields_get]
  split
  · trivial
  · next r rest hredo =>
    exact History.mem_documents_of_redo hs hcur hredo (History.self_mem_documents _ _)

end operations

end Action

def Command.library? : Command → Option Document
  | .includeLibrary _ library | .reloadLibrary _ library => some library
  | _ => none

namespace Action

open Document

variable {α : Type} {ed : Editor} {action : Action α} {new : Option Document}

/-- If an action succeeds, it leaves a document that comes after one of those there were. -/
def GoesOn (action : Action α) (ed : Editor) (new : Option Document) : Prop :=
  action.Leaves ed fun d' => d'.tree.WellFormed → ∃ d ∈ ed.documents, d'.Follows d new

theorem goesOn_of_follows (h : action.Leaves ed (Follows · ed.document new)) :
    action.GoesOn ed new :=
  h.imp fun _ hd _ => ⟨ed.document, History.self_mem_documents _ _, hd⟩

theorem goesOn_of_mem (h : action.Leaves ed (· ∈ ed.documents)) : action.GoesOn ed new :=
  h.imp fun d hd _ => ⟨d, hd, Follows.refl d new⟩

theorem goesOn_of_checked
    (h : action.Leaves ed fun d => d = ed.document ∨ d.Checked ed.document) :
    action.GoesOn ed new := by
  refine h.imp fun d hd hwf => ⟨ed.document, History.self_mem_documents _ _, ?_⟩
  rcases hd with rfl | hd
  · exact Follows.refl _ new
  · exact hd.follows hwf new

theorem GoesOn.done {action : Action Unit} (h : action.GoesOn ed new) :
    (done action).GoesOn ed new :=
  Leaves.bind h fun _ _ hd => hd

theorem goesOn_discard (id : ElementId) : (discard false id).GoesOn ed new := by
  refine goesOn_of_follows (Yields.imp (yields_discard id) ?_ fun _ _ => trivial)
  intro _ ed' hok
  obtain ⟨-, -, rfl⟩ := hok
  exact follows_eraseAll ed.document id new

theorem goesOn_create (hwf : ed.document.tree.WellFormed) (typeName : String)
    (name : Option String) : (create false typeName name).GoesOn ed new :=
  goesOn_of_follows (leaves_create (follows_createAll hwf [⟨typeName, name⟩] new))

theorem goesOn_drop (hwf : ed.document.tree.WellFormed) (id : ElementId) :
    (drop false id).GoesOn ed new := by
  refine goesOn_of_follows (leaves_drop fun e place i he hplace hi => ?_)
  have hc := Tree.canUnlink_of_idxOf? he hplace hi
  exact Follows.of_tree (fun h => h.detach hwf hc) new

theorem goesOn_cacheValues : (Action.cacheValues false).GoesOn ed new :=
  goesOn_of_mem (leaves_cacheValues (History.self_mem_documents _ _))

end Action

open ReportModel.Action in
/-- Every command that succeeds leads on from one of the documents there were, and closes no loop of
bases there. -/
theorem Command.goesOn_action (command : Command) (files : Files) {ed : Editor}
    (hs : ed.history.Sound ed.document) :
    (command.action false files).GoesOn ed command.library? := by
  have hwf := hs.wellFormed
  cases command with
  | start label => exact GoesOn.done (goesOn_of_mem (History.self_mem_documents _ _))
  | commit => exact GoesOn.done (goesOn_of_mem (leaves_commit (History.self_mem_documents _ _)))
  | rollback => exact GoesOn.done (goesOn_of_mem leaves_rollback)
  | undo => exact GoesOn.done (goesOn_of_mem (leaves_undo hs))
  | redo => exact GoesOn.done (goesOn_of_mem (leaves_redo hs))
  | clearHistory => exact GoesOn.done (goesOn_of_mem (History.self_mem_documents _ _))
  | create typeName name => exact yields_map.2 (goesOn_create hwf typeName name)
  | add id place index =>
      exact GoesOn.done (goesOn_of_checked ((leaves_add id place index).imp fun _ => Or.inr))
  | drop id => exact GoesOn.done (goesOn_drop hwf id)
  | move id place index =>
      exact GoesOn.done (goesOn_of_checked ((leaves_move id place index).imp fun _ => Or.inr))
  | discard id => exact GoesOn.done (goesOn_discard id)
  | rename id name => exact GoesOn.done (goesOn_of_checked (leaves_rename id name))
  | setValue id property value =>
      exact GoesOn.done (goesOn_of_follows (leaves_setValue id property value))
  | clearValue id property => exact GoesOn.done (goesOn_of_follows (leaves_clearValue id property))
  | setMask id property mask =>
      exact GoesOn.done (goesOn_of_follows (leaves_setMask id property mask))
  | setBase id reference => exact GoesOn.done (goesOn_of_follows (leaves_setBase id reference))
  | clearBase id => exact GoesOn.done (goesOn_of_follows (leaves_clearBase id))
  | includeLibrary nameSpace library =>
      exact GoesOn.done (goesOn_of_follows (leaves_includeLibrary nameSpace library))
  | dropLibrary nameSpace => exact GoesOn.done (goesOn_of_follows (leaves_dropLibrary nameSpace))
  | reloadLibrary nameSpace library =>
      exact GoesOn.done (goesOn_of_follows (leaves_reloadLibrary nameSpace library))
  | addFile host fileName =>
      exact GoesOn.done (goesOn_of_follows (leaves_addFile host files fileName))
  | addSheet host link sheet =>
      exact GoesOn.done (goesOn_of_follows (leaves_addSheet host link sheet))
  | dropSheet host fileName =>
    exact GoesOn.done (goesOn_of_follows (leaves_dropSheet host fileName))
  | renameSheet host fileName newName =>
      exact GoesOn.done (goesOn_of_follows (leaves_renameSheet host files fileName newName))
  | reloadSheet host fileName =>
      exact GoesOn.done (goesOn_of_follows (leaves_reloadSheet host files fileName))
  | importStyles sheet names =>
      exact yields_map.2 (goesOn_of_checked (leaves_importStyles sheet names))
  | cacheValues => exact yields_map.2 goesOn_cacheValues

end ReportModel
