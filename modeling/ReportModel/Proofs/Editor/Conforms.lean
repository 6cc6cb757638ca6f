import ReportModel.Proofs.Editor.Adding
import ReportModel.Proofs.Editor.Bases
import ReportModel.Proofs.Tree.Conforms

/-!
# Operations and what elements hold

A value that is set has been normalized, and a stylesheet that is read has been compiled, so that a
standard admits them. If it admits the stylesheets that are handed over too, every operation that
succeeds keeps all elements as they should be.
-/

namespace ReportModel

open Edit

variable {standard : Standard} {d : Document}

section names

variable {α : Type} {key : α → String} {l : List α} {index : Nat} {old new : α}

theorem nodup_insertAt (h : (l.map key).Nodup) (hnew : key new ∉ l.map key) (index : Nat) :
    ((insertAt index new l).map key).Nodup :=
  ((perm_insertAt index new l).map key).nodup_iff.2 (List.nodup_cons.2 ⟨hnew, h⟩)

theorem nodup_eraseIdx (h : (l.map key).Nodup) (index : Nat) :
    ((l.eraseIdx index).map key).Nodup :=
  ((List.eraseIdx_sublist l index).map key).nodup h

theorem nodup_set (h : (l.map key).Nodup) (hget : l[index]? = some old)
    (hnew : key new = key old ∨ key new ∉ l.map key) : ((l.set index new).map key).Nodup := by
  rw [List.map_set]
  rcases hnew with heq | hfree
  · have hold : (l.map key)[index]? = some (key new) := by
      rw [List.getElem?_map, hget, heq]
      rfl
    obtain ⟨hlt, hsame⟩ := List.getElem?_eq_some_iff.1 hold
    rw [← hsame, List.set_getElem_self]
    exact h
  · exact h.set hfree

end names

/-- What an edit puts into an element is what the element may hold. -/
def Edit.Admitted (standard : Standard) (d : Document) : Edit → Prop
  | .value id property _ new => ∀ e v, d.get? id = some e → new = some v →
    standard.admits e.typeName property v
  | .mask id property _ new => ∀ e, d.get? id = some e → new.isSome = true →
    (standard.dictionary.property? e.typeName property).isSome = true
  | .sheets host edit =>
    (∀ inclusion ∈ edit.apply (d.sheets host), standard.admitsSheet inclusion.sheet) ∧
    ((edit.apply (d.sheets host)).map (·.fileName)).Nodup
  | _ => True

theorem Document.sheets_eq {id : ElementId} {e : Element} (h : d.get? id = some e) :
    d.sheets id = e.sheets := by
  simp [sheets, h]

theorem Tree.Conforms.apply (h : d.tree.Conforms standard) (edit : Edit)
    (hedit : edit.Admitted standard d) :
    (edit.apply d).tree.Conforms standard := by
  cases edit with
  | value id property old new =>
      refine h.modify id fun e he hconforms => ⟨fun {other v} hv => ?_, hconforms.masks,
        hconforms.sheets, hconforms.distinct⟩
      have hput := e.values.get?_put property other new
      rw [Element.value?, hput] at hv
      split at hv
      · next heq => exact heq ▸ hedit e v he hv
      · exact hconforms.values hv
  | mask id property old new =>
      refine h.modify id fun e he hconforms => ⟨hconforms.values, fun {other mask} hmask => ?_,
        hconforms.sheets, hconforms.distinct⟩
      have hput := e.masks.get?_put property other new
      rw [Element.mask?, hput] at hmask
      split at hmask
      · next heq => exact heq ▸ hedit e he (by rw [hmask]; rfl)
      · exact hconforms.masks hmask
  | name id old new => exact h.of_sameBare (.rename d.tree id new)
  | base id old new =>
      exact h.modify id fun _ _ hconforms =>
        ⟨hconforms.values, hconforms.masks, hconforms.sheets, hconforms.distinct⟩
  | attach id place index => exact h.of_sameBare (.attach d.tree id place index)
  | detach id place index => exact h.of_sameBare (.detach d.tree id)
  | sheets host edit =>
      refine h.modify host fun e he hconforms => ⟨hconforms.values, hconforms.masks, ?_, ?_⟩
      · rw [← Document.sheets_eq he]
        exact hedit.1
      · rw [← Document.sheets_eq he]
        exact hedit.2
  | libraries edit => exact h

theorem Tree.Conforms.createAll (h : d.tree.Conforms standard) (cs : List Creation) :
    (d.createAll cs).tree.Conforms standard := by
  induction cs generalizing d with
  | nil => exact h
  | cons c cs ih => exact ih (d := d.create c) (h.create c.typeName c.name)

theorem Tree.Conforms.added (h : d.tree.Conforms standard) (id : ElementId) (place : Place)
    (index : Nat) : (d.added id place index).tree.Conforms standard :=
  h.of_sameBare (Document.sameBare_added d id place index)

theorem Tree.Conforms.giveAll (h : d.tree.Conforms standard) {id : ElementId}
    {typeName : String} (htype : ∀ e, d.get? id = some e → e.typeName = typeName)
    {entries : List (String × Value)}
    (hentries : ∀ entry ∈ entries, standard.admits typeName entry.1 entry.2) :
    (applyAll (giveAll id entries) d).tree.Conforms standard := by
  induction entries generalizing d with
  | nil => exact h
  | cons entry entries ih =>
      have hfirst : (Edit.value id entry.1 none (some entry.2)).Admitted standard d := by
        rintro e v he ⟨⟩
        rw [htype e he]
        exact hentries entry List.mem_cons_self
      refine ih (h.apply _ hfirst) ?_ fun other hother =>
        hentries other (List.mem_cons_of_mem _ hother)
      intro e he
      change (d.tree.modify id _).get? id = some e at he
      rw [Tree.modify, Tree.get?, Arena.get?_modify, if_pos rfl] at he
      obtain ⟨e₀, he₀, rfl⟩ := Option.map_eq_some_iff.1 he
      exact htype e₀ he₀

theorem Document.property?_of_checkWritable {id : ElementId} {property : String}
    {definition : PropertyDef} (h : d.checkWritable id property = .ok definition) {e : Element}
    (he : d.get? id = some e) :
    d.tree.dictionary.property? e.typeName property = some definition := by
  simp only [checkWritable, he] at h
  split at h
  · next found hfound =>
    split at h
    · cases h
    · cases h
      exact hfound
  · cases h

theorem Document.fileName_eq {host : ElementId} {fileName : String} {index : Nat}
    {found : Css.Inclusion} (h : d.inclusionIndex? host fileName = some index)
    (hget : (d.sheets host)[index]? = some found) : found.fileName = fileName := by
  rw [inclusionIndex?, if_pos (isHost_of_inclusionIndex? h), List.findIdx?_eq_some_iff_getElem] at h
  obtain ⟨hlt, hname, -⟩ := h
  rw [List.getElem?_eq_getElem hlt] at hget
  cases hget
  exact of_decide_eq_true hname

theorem Document.fileName_not_mem {host : ElementId} {fileName : String}
    (hhost : d.isHost host = true) (hfree : d.inclusionIndex? host fileName = none) :
    fileName ∉ (d.sheets host).map (·.fileName) := by
  rw [inclusionIndex?, if_pos hhost, List.findIdx?_eq_none_iff] at hfree
  rintro hmem
  obtain ⟨inclusion, hinclusion, hname⟩ := List.mem_map.1 hmem
  simpa [hname] using hfree inclusion hinclusion

theorem Tree.Conforms.sheets (h : d.tree.Conforms standard) (host : ElementId) :
    (∀ inclusion ∈ d.sheets host, standard.admitsSheet inclusion.sheet) ∧
      ((d.sheets host).map (·.fileName)).Nodup := by
  cases he : d.get? host with
  | none => simp [Document.sheets, he]
  | some e =>
      rw [Document.sheets_eq he]
      exact ⟨(h.elements he).sheets, (h.elements he).distinct⟩

theorem Tree.Conforms.admitted_replace (h : d.tree.Conforms standard) {host : ElementId}
    {index : Nat} {old new : Css.Inclusion} (hget : (d.sheets host)[index]? = some old)
    (hnew : standard.admitsSheet new.sheet)
    (hname : new.fileName = old.fileName ∨ new.fileName ∉ (d.sheets host).map (·.fileName)) :
    (Edit.sheets host (.replace index old new)).Admitted standard d := by
  obtain ⟨hadmits, hdistinct⟩ := h.sheets host
  refine ⟨fun inclusion hmem => ?_, nodup_set hdistinct hget hname⟩
  rcases List.mem_or_eq_of_mem_set hmem with hmem | rfl
  · exact hadmits inclusion hmem
  · exact hnew

theorem Tree.Conforms.admitted_insert (h : d.tree.Conforms standard) {host : ElementId}
    {index : Nat} {new : Css.Inclusion} (hnew : standard.admitsSheet new.sheet)
    (hname : new.fileName ∉ (d.sheets host).map (·.fileName)) :
    (Edit.sheets host (.insert index new)).Admitted standard d := by
  obtain ⟨hadmits, hdistinct⟩ := h.sheets host
  refine ⟨fun inclusion hmem => ?_, nodup_insertAt hdistinct hname index⟩
  rcases List.mem_cons.1 ((perm_insertAt index new (d.sheets host)).mem_iff.1 hmem) with rfl | hmem
  · exact hnew
  · exact hadmits inclusion hmem

theorem Tree.Conforms.admitted_remove (h : d.tree.Conforms standard) (host : ElementId)
    (index : Nat) (old : Css.Inclusion) :
    (Edit.sheets host (.remove index old)).Admitted standard d := by
  obtain ⟨hadmits, hdistinct⟩ := h.sheets host
  refine ⟨fun inclusion hmem => hadmits inclusion ?_, nodup_eraseIdx hdistinct index⟩
  exact (List.eraseIdx_sublist (d.sheets host) index).mem hmem

namespace Action

variable {ed : Editor} (id : ElementId)

variable (h : ed.document.tree.Conforms standard)
include h

theorem conforms_add (place : Place) (index : Option Nat) :
    (add false id place index).Leaves ed (·.tree.Conforms standard) :=
  leaves_add_of fun _ _ _ => h.added id place _

theorem conforms_drop : (drop false id).Leaves ed (·.tree.Conforms standard) :=
  leaves_drop fun _ place i _ _ _ => h.apply (.detach id place i) trivial

theorem conforms_move (place : Place) (index : Option Nat) :
    (move false id place index).Leaves ed (·.tree.Conforms standard) := by
  apply leaves_move_of
  rintro e old j _ - - - rfl i - -
  exact (h.apply (.detach id old j) trivial).added id place i

theorem conforms_rename (name : Option String) :
    (rename false id name).Leaves ed (·.tree.Conforms standard) :=
  leaves_rename_of h fun e _ _ => h.apply (.name id e.name name) trivial

theorem conforms_setValue (property : String) (value : Value) :
    (setValue false id property value).Leaves ed (·.tree.Conforms standard) := by
  refine leaves_setValue_of h fun definition e new hcheck he hnew => h.apply _ ?_
  rintro e' v he' ⟨⟩
  refine standard.admits_of_isNormal
    ⟨definition, ?_, PropertyDef.validate_validate (mapError_eq_ok.1 hnew)⟩
  rw [← h.dictionary_eq]
  exact Document.property?_of_checkWritable hcheck he'

theorem conforms_clearValue (property : String) :
    (clearValue false id property).Leaves ed (·.tree.Conforms standard) :=
  leaves_clearValue_of h fun _ _ _ _ => h.apply _ fun _ _ _ hnew => nomatch hnew

theorem conforms_setMask (property : String) (mask : Option Mask) :
    (setMask false id property mask).Leaves ed (·.tree.Conforms standard) := by
  refine leaves_setMask_of h fun e he hdefined => h.apply _ fun e' he' _ => ?_
  obtain rfl := Option.some.inj (he.symm.trans he')
  rw [← h.dictionary_eq]
  simpa [Option.isNone_eq_false_iff] using hdefined

theorem conforms_setBase (reference : Reference) :
    (setBase false id reference).Leaves ed (·.tree.Conforms standard) :=
  leaves_setBase_of fun e _ _ _ _ => h.apply (.base id e.base (some reference)) trivial

theorem conforms_clearBase : (clearBase false id).Leaves ed (·.tree.Conforms standard) :=
  leaves_clearBase_of h fun _ old _ _ => h.apply (.base id (some old) none) trivial

theorem conforms_includeLibrary (nameSpace : String) (library : Document) :
    (includeLibrary false nameSpace library).Leaves ed (·.tree.Conforms standard) :=
  leaves_includeLibrary_of fun _ => h.apply (.libraries _) trivial

theorem conforms_dropLibrary (nameSpace : String) :
    (dropLibrary false nameSpace).Leaves ed (·.tree.Conforms standard) :=
  leaves_dropLibrary_of fun _ _ _ => h.apply (.libraries _) trivial

theorem conforms_reloadLibrary (nameSpace : String) (library : Document) :
    (reloadLibrary false nameSpace library).Leaves ed (·.tree.Conforms standard) :=
  leaves_reloadLibrary_of fun _ _ _ _ => h.apply (.libraries _) trivial

theorem conforms_addSheet (link : Css.Link) {sheet : Css.StyleSheet}
    (hsheet : standard.admitsSheet sheet) :
    (addSheet false id link sheet).Leaves ed (·.tree.Conforms standard) := by
  refine leaves_addSheet_of fun hcan => h.apply _ (h.admitted_insert hsheet ?_)
  simp only [Document.canAddSheet, Bool.and_eq_true, Option.isNone_iff_eq_none] at hcan
  exact Document.fileName_not_mem hcan.1 hcan.2

theorem conforms_dropSheet (fileName : String) :
    (dropSheet false id fileName).Leaves ed (·.tree.Conforms standard) :=
  leaves_dropSheet_of fun index old _ _ => h.apply _ (h.admitted_remove id index old)

section files

variable (files : Files)

omit h in
theorem admitsSheet_of_load {fileName : String} {sheet : Css.StyleSheet}
    (hload : files.load standard.dictionary fileName = .ok sheet) :
    standard.admitsSheet sheet := by
  simp only [Files.load] at hload
  split at hload
  · cases hload
  · obtain ⟨rules, -, hcompile⟩ := bind_eq_ok.1 (mapError_eq_ok.1 hload)
    exact standard.admitsSheet_compile (mapError_eq_ok.1 hcompile)

theorem conforms_addFile (fileName : String) :
    (addFile false files id fileName).Leaves ed (·.tree.Conforms standard) := by
  refine leaves_addFile_of fun sheet hload => conforms_addSheet id h _ ?_
  rw [h.dictionary_eq] at hload
  exact admitsSheet_of_load files hload

theorem conforms_renameSheet (fileName newName : String) :
    (renameSheet false files id fileName newName).Leaves ed (·.tree.Conforms standard) := by
  refine leaves_renameSheet_of fun index old sheet hindex hget hfree hload => h.apply _ ?_
  rw [h.dictionary_eq] at hload
  refine h.admitted_replace hget (admitsSheet_of_load files hload) ?_
  by_cases hname : newName = fileName
  · exact Or.inl (hname.trans (Document.fileName_eq hindex hget).symm)
  · exact Or.inr (Document.fileName_not_mem (Document.isHost_of_inclusionIndex? hindex)
      (hfree hname))

theorem conforms_reloadSheet (fileName : String) :
    (reloadSheet false files id fileName).Leaves ed (·.tree.Conforms standard) := by
  refine leaves_reloadSheet_of fun index old sheet _ hget hload => h.apply _ ?_
  rw [h.dictionary_eq] at hload
  exact h.admitted_replace hget (admitsSheet_of_load files hload) (Or.inl rfl)

end files

theorem conforms_importStyle (name : String) {style : Css.Style}
    (hstyle : ∀ entry ∈ style.properties,
      standard.admits Vocabulary.styleType entry.1 entry.2) :
    (importStyle false name style).Leaves ed (·.tree.Conforms standard) := by
  apply leaves_importStyle_of
  rintro _ _ rfl rfl i - -
  refine Tree.Conforms.added ((h.createAll [styleCreation name]).giveAll ?_ hstyle) _ _ i
  intro e he
  change (ed.document.tree.create Vocabulary.styleType (some name)).get? _ = some e at he
  rw [Tree.get?_create, if_pos rfl] at he
  cases he
  rfl

theorem conforms_importStyles {sheet : Css.StyleSheet} (hsheet : standard.AdmitsStyles sheet)
    (names : List String) :
    (importStyles false sheet names).Leaves ed (·.tree.Conforms standard) :=
  leaves_importStyles_of h fun name style _ hmem hed => conforms_importStyle hed name
    (hsheet style hmem)

end Action

def Command.added? : Command → Option Css.StyleSheet
  | .addSheet _ _ sheet => some sheet
  | _ => none

def Command.imported? : Command → Option Css.StyleSheet
  | .importStyles sheet _ => some sheet
  | _ => none

open ReportModel.Action in
/-- Every command that succeeds leaves elements that conform, if it did so before, and so does what
the command brings along. -/
theorem Command.conforms_action (command : Command) (files : Files) {ed : Editor}
    (hs : ed.history.Sound ed.document)
    (hall : ∀ d ∈ ed.documents, d.tree.Conforms standard)
    (hadded : ∀ sheet, command.added? = some sheet → standard.admitsSheet sheet)
    (himported : ∀ sheet, command.imported? = some sheet → standard.AdmitsStyles sheet) :
    (command.action false files).Leaves ed (·.tree.Conforms standard) := by
  have h : ed.document.tree.Conforms standard :=
    hall _ (History.self_mem_documents _ _)
  cases command with
  | start label => exact leaves_done h
  | commit => exact leaves_done (leaves_commit h)
  | rollback => exact leaves_done (leaves_rollback.imp hall)
  | undo => exact leaves_done ((leaves_undo hs).imp hall)
  | redo => exact leaves_done ((leaves_redo hs).imp hall)
  | clearHistory => exact leaves_done h
  | create typeName name =>
      have hcreate : (Action.create false typeName name).Leaves ed (·.tree.Conforms standard) :=
        leaves_create (h.createAll [⟨typeName, name⟩])
      exact hcreate.map _
  | add id place index => exact leaves_done (conforms_add id h place index)
  | drop id => exact leaves_done (conforms_drop id h)
  | move id place index => exact leaves_done (conforms_move id h place index)
  | discard id =>
      refine leaves_done (Yields.imp (yields_discard id) ?_ fun _ _ => trivial)
      rintro _ _ ⟨-, -, rfl⟩
      exact h.eraseAll id
  | rename id name => exact leaves_done (conforms_rename id h name)
  | setValue id property value => exact leaves_done (conforms_setValue id h property value)
  | clearValue id property => exact leaves_done (conforms_clearValue id h property)
  | setMask id property mask => exact leaves_done (conforms_setMask id h property mask)
  | setBase id reference => exact leaves_done (conforms_setBase id h reference)
  | clearBase id => exact leaves_done (conforms_clearBase id h)
  | includeLibrary nameSpace library =>
      exact leaves_done (conforms_includeLibrary h nameSpace library)
  | dropLibrary nameSpace => exact leaves_done (conforms_dropLibrary h nameSpace)
  | reloadLibrary nameSpace library =>
      exact leaves_done (conforms_reloadLibrary h nameSpace library)
  | addFile host fileName => exact leaves_done (conforms_addFile host h files fileName)
  | addSheet host link sheet =>
      exact leaves_done (conforms_addSheet host h link (hadded sheet rfl))
  | dropSheet host fileName => exact leaves_done (conforms_dropSheet host h fileName)
  | renameSheet host fileName newName =>
      exact leaves_done (conforms_renameSheet host h files fileName newName)
  | reloadSheet host fileName =>
      exact leaves_done (conforms_reloadSheet host h files fileName)
  | importStyles sheet names =>
      exact (conforms_importStyles h (himported sheet rfl) names).map _
  | cacheValues =>
      have hcache : (Action.cacheValues false).Leaves ed (·.tree.Conforms standard) :=
        leaves_cacheValues h
      exact hcache.map _

end ReportModel
