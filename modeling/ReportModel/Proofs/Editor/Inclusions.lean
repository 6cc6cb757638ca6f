import ReportModel.Proofs.Editor.Conforms
import ReportModel.Proofs.Editor.Makes

/-!
# What is included where

Only hosts include stylesheets, and libraries have different name spaces. Operations on inclusions
check the host and the name; all others leave alone what is included and what an element is.
-/

namespace ReportModel

open Edit

def Edit.isInclusion : Edit → Bool
  | .sheets _ _ | .libraries _ => true
  | _ => false

def Element.hosting (e : Element) : String × List Css.Inclusion :=
  (e.typeName, e.sheets)

theorem Tree.hosting_modify {t : Tree} {y : ElementId} {f : Element → Element}
    (hf : ∀ e, (f e).hosting = e.hosting) (x : ElementId) :
    ((t.modify y f).get? x).map Element.hosting = (t.get? x).map Element.hosting := by
  rw [Tree.get?_modify]
  split
  · next hx =>
    rw [hx, Option.map_map]
    exact congrArg (Option.map · _) (funext hf)
  · rfl

theorem Tree.SameBare.hosting {t t' : Tree} (h : t.SameBare t') (x : ElementId) :
    (t'.get? x).map Element.hosting = (t.get? x).map Element.hosting := by
  have hbare := congrArg (Option.map Element.hosting) (h.bare x)
  rwa [Option.map_map, Option.map_map] at hbare

namespace Document

variable {P : Edit → Prop} {d d' : Document} {x host : ElementId} {edit : Edit}

def hosting? (d : Document) (id : ElementId) : Option (String × List Css.Inclusion) :=
  (d.get? id).map Element.hosting

theorem sheets_eq_hosting? (d : Document) (id : ElementId) :
    d.sheets id = ((d.hosting? id).map (·.2)).getD [] := by
  rw [sheets, hosting?, Option.map_map]
  rfl

theorem isHost_eq_hosting? (d : Document) (id : ElementId) :
    d.isHost id = (d.hosting? id).any fun hosting =>
      d.tree.dictionary.hostsSheets hosting.1 := by
  rw [isHost, hosting?, Option.any_map]
  rfl

theorem dictionary_apply (d : Document) (edit : Edit) :
    (edit.apply d).tree.dictionary = d.tree.dictionary := by
  cases edit with
  | value | mask | base | sheets | libraries => rfl
  | name y old new => exact (Tree.SameBare.rename d.tree y new).dictionary
  | attach y place index => exact (Tree.SameBare.attach d.tree y place index).dictionary
  | detach y place index => exact (Tree.SameBare.detach d.tree y).dictionary

theorem hosting?_apply (h : edit.isInclusion = false) (x : ElementId) :
    (edit.apply d).hosting? x = d.hosting? x := by
  cases edit with
  | value | mask | base =>
      refine Tree.hosting_modify ?_ x
      exact fun _ => rfl
  | name y old new => exact (Tree.SameBare.rename d.tree y new).hosting x
  | attach y place index => exact (Tree.SameBare.attach d.tree y place index).hosting x
  | detach y place index => exact (Tree.SameBare.detach d.tree y).hosting x
  | sheets | libraries => cases h

theorem sheets_apply (h : edit.isInclusion = false) (x : ElementId) :
    (edit.apply d).sheets x = d.sheets x := by
  rw [sheets_eq_hosting?, hosting?_apply h, ← sheets_eq_hosting?]

theorem libraries_apply (h : edit.isInclusion = false) :
    (edit.apply d).libraries = d.libraries := by
  cases edit with
  | sheets | libraries => cases h
  | _ => rfl

theorem hosting?_sheets (host : ElementId) (change : ListEdit Css.Inclusion) (x : ElementId) :
    ((Edit.sheets host change).apply d).hosting? x =
      if x = host then (d.hosting? x).map fun hosting => (hosting.1, change.apply hosting.2)
      else d.hosting? x := by
  rw [hosting?, hosting?]
  refine (congrArg (Option.map _) (Tree.get?_modify ..)).trans ?_
  split
  · next hx =>
    rw [hx, Option.map_map, Option.map_map]
    rfl
  · rfl

theorem isHost_apply (d : Document) (edit : Edit) (x : ElementId) :
    (edit.apply d).isHost x = d.isHost x := by
  rw [isHost_eq_hosting?, isHost_eq_hosting?, dictionary_apply]
  cases edit with
  | sheets host change =>
      rw [hosting?_sheets]
      split
      · rw [Option.any_map]
      · rfl
  | libraries change => rfl
  | _ => rw [hosting?_apply rfl]

theorem sheets_apply_of_ne {change : ListEdit Css.Inclusion} (h : x ≠ host) :
    ((Edit.sheets host change).apply d).sheets x = d.sheets x := by
  rw [sheets_eq_hosting?, hosting?_sheets, if_neg h, ← sheets_eq_hosting?]

theorem sheets_apply_self (h : d.isHost host = true) (change : ListEdit Css.Inclusion) :
    ((Edit.sheets host change).apply d).sheets host = change.apply (d.sheets host) := by
  rw [sheets_eq_hosting?, hosting?_sheets, if_pos rfl, sheets_eq_hosting?]
  rw [isHost_eq_hosting?] at h
  obtain ⟨hosting, hsome, -⟩ := (Option.any_eq_true _ _).1 h
  rw [hsome]
  rfl

theorem hosting?_create (d : Document) (c : Creation) (x : ElementId) :
    (d.create c).hosting? x =
      if x = d.tree.nextId then some (c.typeName, []) else d.hosting? x := by
  rw [hosting?, hosting?]
  refine (congrArg (Option.map _) (Tree.get?_create ..)).trans ?_
  split <;> rfl

theorem hosting?_eraseAll (d : Document) (id x : ElementId) :
    (d.eraseAll id).hosting? x = if x ∈ d.tree.walk id then none else d.hosting? x := by
  rw [hosting?, hosting?]
  refine (congrArg (Option.map _) (Tree.get?_eraseAll ..)).trans ?_
  split <;> rfl

/-- Stylesheets are included by hosts only, and libraries under different name spaces. -/
structure WellIncluded (d : Document) : Prop where
  hosted : ∀ x, d.sheets x ≠ [] → d.isHost x = true
  libraries : (d.libraries.map (·.nameSpace)).Nodup

namespace WellIncluded

theorem apply (h : d.WellIncluded) (hedit : edit.isInclusion = false) :
    (edit.apply d).WellIncluded where
  hosted x := by
    rw [sheets_apply hedit, isHost_apply]
    exact h.hosted x
  libraries := by
    rw [libraries_apply hedit]
    exact h.libraries

theorem apply_sheets (h : d.WellIncluded) (hhost : d.isHost host = true)
    (change : ListEdit Css.Inclusion) : ((Edit.sheets host change).apply d).WellIncluded where
  hosted x := by
    rw [isHost_apply]
    by_cases hx : x = host
    · exact fun _ => hx ▸ hhost
    · rw [sheets_apply_of_ne hx]
      exact h.hosted x
  libraries := h.libraries

theorem apply_libraries (h : d.WellIncluded) {change : ListEdit Library}
    (hchange : ((change.apply d.libraries).map (·.nameSpace)).Nodup) :
    ((Edit.libraries change).apply d).WellIncluded where
  hosted := h.hosted
  libraries := hchange

theorem create (h : d.WellIncluded) (c : Creation) : (d.create c).WellIncluded where
  hosted x := by
    rw [sheets_eq_hosting?, isHost_eq_hosting?, hosting?_create]
    split
    · exact fun hne => absurd rfl hne
    · rw [← sheets_eq_hosting?]
      exact fun hne => isHost_eq_hosting? d x ▸ h.hosted x hne
  libraries := h.libraries

theorem createAll (h : d.WellIncluded) (cs : List Creation) : (d.createAll cs).WellIncluded :=
  List.foldlRecOn cs _ h fun _ h c _ => h.create c

theorem eraseAll (h : d.WellIncluded) (id : ElementId) : (d.eraseAll id).WellIncluded where
  hosted x := by
    rw [sheets_eq_hosting?, isHost_eq_hosting?, hosting?_eraseAll]
    split
    · exact fun hne => absurd rfl hne
    · rw [← sheets_eq_hosting?]
      exact fun hne => isHost_eq_hosting? d x ▸ h.hosted x hne
  libraries := h.libraries

theorem arises (h : d.WellIncluded) (harises : Arises P d d')
    (hP : ∀ edit, P edit → edit.isInclusion = false) : d'.WellIncluded := by
  induction harises with
  | refl => exact h
  | edit _ hedit ih => exact ih.apply (hP _ hedit)
  | create _ c ih => exact ih.create c

end WellIncluded

theorem nameSpace_not_mem {nameSpace : String} (h : d.library? nameSpace = none) :
    nameSpace ∉ d.libraries.map (·.nameSpace) := by
  rw [library?, Option.map_eq_none_iff, List.find?_eq_none] at h
  intro hmem
  obtain ⟨library, hlibrary, hname⟩ := List.mem_map.1 hmem
  exact h library hlibrary (decide_eq_true hname)

theorem nameSpace_eq {nameSpace : String} {index : Nat} {library : Library}
    (h : d.libraryIndex? nameSpace = some index) (hget : d.libraries[index]? = some library) :
    library.nameSpace = nameSpace := by
  rw [libraryIndex?, List.findIdx?_eq_some_iff_getElem] at h
  obtain ⟨hlt, hname, -⟩ := h
  rw [List.getElem?_eq_getElem hlt] at hget
  cases hget
  exact of_decide_eq_true hname

end Document

def Command.isInclusion : Command → Bool
  | .includeLibrary _ _ | .dropLibrary _ | .reloadLibrary _ _ | .addFile _ _ | .addSheet _ _ _
  | .dropSheet _ _ | .renameSheet _ _ _ | .reloadSheet _ _ => true
  | _ => false

theorem Command.isInclusion_of_makes {command : Command} (h : command.isInclusion = false)
    {d : Document} {edit : Edit} (hedit : command.Makes d edit) : edit.isInclusion = false := by
  cases edit with
  | sheets | libraries =>
      cases command with
      | includeLibrary | dropLibrary | reloadLibrary | addFile | addSheet | dropSheet | renameSheet
      | reloadSheet => cases h
      | _ => exact hedit.elim
  | _ => rfl

namespace Action

open Document

variable {ed : Editor} (h : ed.document.WellIncluded)
include h

theorem wellIncluded_addSheet (host : ElementId) (link : Css.Link) (sheet : Css.StyleSheet) :
    (addSheet false host link sheet).Leaves ed WellIncluded :=
  leaves_addSheet_of fun hcan => h.apply_sheets (Bool.and_eq_true_iff.1 hcan).1 _

theorem wellIncluded_includeLibrary (nameSpace : String) (library : Document) :
    (includeLibrary false nameSpace library).Leaves ed WellIncluded :=
  leaves_includeLibrary_of fun hfree =>
    h.apply_libraries (nodup_insertAt h.libraries (nameSpace_not_mem hfree) _)

theorem wellIncluded_reloadLibrary (nameSpace : String) (library : Document) :
    (reloadLibrary false nameSpace library).Leaves ed WellIncluded :=
  leaves_reloadLibrary_of fun _ _ hindex hget =>
    h.apply_libraries (nodup_set h.libraries hget (Or.inl (nameSpace_eq hindex hget).symm))

end Action

open Document ReportModel.Action in
/-- Every command that succeeds includes stylesheets by hosts only, and libraries under names that
are free. -/
theorem Command.wellIncluded_action (command : Command) (files : Files) {ed : Editor}
    (hs : ed.history.Sound ed.document) (hall : ∀ d ∈ ed.documents, d.WellIncluded) :
    (command.action false files).Leaves ed WellIncluded := by
  have h : ed.document.WellIncluded := hall _ (History.self_mem_documents _ _)
  by_cases hinclusion : command.isInclusion = true
  · cases command with
    | includeLibrary nameSpace library =>
        exact leaves_done (wellIncluded_includeLibrary h nameSpace library)
    | dropLibrary nameSpace =>
        exact leaves_done (leaves_dropLibrary_of fun index _ _ =>
          h.apply_libraries (nodup_eraseIdx h.libraries index))
    | reloadLibrary nameSpace library =>
        exact leaves_done (wellIncluded_reloadLibrary h nameSpace library)
    | addFile host fileName =>
        exact leaves_done (leaves_addFile_of fun sheet _ => wellIncluded_addSheet h host _ sheet)
    | addSheet host link sheet => exact leaves_done (wellIncluded_addSheet h host link sheet)
    | dropSheet host fileName =>
        exact leaves_done (leaves_dropSheet_of fun _ _ hindex _ =>
          h.apply_sheets (isHost_of_inclusionIndex? hindex) _)
    | renameSheet host fileName newName =>
        exact leaves_done (leaves_renameSheet_of fun _ _ _ hindex _ _ _ =>
          h.apply_sheets (isHost_of_inclusionIndex? hindex) _)
    | reloadSheet host fileName =>
        exact leaves_done (leaves_reloadSheet_of fun _ _ _ hindex _ _ =>
          h.apply_sheets (isHost_of_inclusionIndex? hindex) _)
    | _ => cases hinclusion
  · by_cases hreturn : command.isReturn = true
    · cases command with
      | rollback => exact leaves_done (leaves_rollback.imp hall)
      | undo => exact leaves_done ((leaves_undo hs).imp hall)
      | redo => exact leaves_done ((leaves_redo hs).imp hall)
      | discard id =>
          refine leaves_done (Yields.imp (yields_discard id) ?_ fun _ _ => trivial)
          rintro _ _ ⟨-, -, rfl⟩
          exact h.eraseAll id
      | _ => cases hreturn
    · have hmakes : ∀ edit, command.Makes ed.document edit → edit.isInclusion = false :=
        fun edit => isInclusion_of_makes (Bool.eq_false_iff.2 hinclusion)
      exact (command.arises_action files (Bool.eq_false_iff.2 hreturn)).imp fun _ harises =>
        h.arises harises hmakes

end ReportModel
