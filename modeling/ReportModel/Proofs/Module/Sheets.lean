import ReportModel.Proofs.Editor.Inclusions
import ReportModel.Proofs.Module.Conforms

/-!
# What can be done with stylesheets

Before a stylesheet is added, dropped or renamed, it can be asked whether that may be done. The
answer is right: the operation succeeds exactly if the answer is yes, and if a file has to be read
for it, if that can be read. A sheet that may be dropped provides no style in use that is not to be
had elsewhere.
-/

namespace ReportModel

open Edit

namespace Document

variable {d : Document} {host id : ElementId} {name : String} {index : Nat}
  {dropped : Css.Inclusion}

/-- A style of a name is to be had by a host: it is among the shared styles, or in the styles of the
host, or in one of the stylesheets of the host. -/
def HasStyle (d : Document) (host : ElementId) (name : String) : Prop :=
  (d.tree.find Vocabulary.styleSpace name).isSome = true ∨
  (∃ style ∈ d.tree.contents host Vocabulary.stylesSlot,
    (d.get? style).bind (·.name) = some name) ∨
  ∃ inclusion ∈ d.sheets host, inclusion.sheet.provides name = true

def styleOf? (d : Document) (id : ElementId) : Option String :=
  (d.get? id).bind (·.text? Vocabulary.styleProperty)

/-- What elements include makes no difference to their names. -/
theorem name_apply_sheets (host : ElementId) (change : ListEdit Css.Inclusion) (x : ElementId) :
    ((Edit.apply d (.sheets host change)).get? x).bind (·.name) = (d.get? x).bind (·.name) := by
  refine (congrArg (Option.bind · (·.name)) (Tree.get?_modify ..)).trans ?_
  split
  · next hx =>
    rw [hx, Option.bind_map]
    rfl
  · rfl

theorem contents_apply_sheets (host : ElementId) (change : ListEdit Css.Inclusion) (x : ElementId)
    (slot : String) : (Edit.apply d (.sheets host change)).tree.contents x slot =
      d.tree.contents x slot := by
  refine Tree.SameLinks.contents_eq (Tree.sameLinks_modify _ host ?_) x slot
  exact fun _ => ⟨rfl, rfl, rfl⟩

theorem hasStyle_of_isDefinedElsewhere (hhost : d.isHost host = true)
    (h : d.isDefinedElsewhere host index name = true) :
    (Edit.apply d (.sheets host (.remove index dropped))).HasStyle host name := by
  simp only [isDefinedElsewhere, Bool.or_eq_true] at h
  rcases h with (hshared | hown) | hother
  · exact Or.inl hshared
  · obtain ⟨style, hstyle, hname⟩ := List.any_eq_true.1 hown
    refine Or.inr (Or.inl ⟨style, ?_, ?_⟩)
    · rwa [contents_apply_sheets]
    · rw [name_apply_sheets]
      exact of_decide_eq_true hname
  · obtain ⟨⟨inclusion, i⟩, hmem, hprovides⟩ := List.any_eq_true.1 hother
    simp only [Bool.and_eq_true, decide_eq_true_eq] at hprovides
    refine Or.inr (Or.inr ⟨inclusion, ?_, hprovides.2⟩)
    rw [sheets_apply_self hhost]
    exact List.mem_eraseIdx_iff_getElem?.2
      ⟨i, hprovides.1, List.mem_zipIdx_iff_getElem?.1 hmem⟩

theorem hasStyle_of_styleOnlyIn? (hhost : d.isHost host = true)
    (hget : (d.sheets host)[index]? = some dropped) (h : d.styleOnlyIn? host index = none)
    (hid : id ∈ d.tree.attached) (huse : d.styleOf? id = some name)
    (hprovides : dropped.sheet.provides name = true) :
    (Edit.apply d (.sheets host (.remove index dropped))).HasStyle host name := by
  rw [styleOnlyIn?, hget, Option.bind_some, List.find?_eq_none] at h
  have hname := h name (List.mem_filterMap.2 ⟨id, hid, huse⟩)
  rw [hprovides, Bool.true_and] at hname
  exact hasStyle_of_isDefinedElsewhere hhost (by simpa using hname)

/-- A document lacks an inclusion that another one has, and each style that an attached element
there names and that the inclusion provides is still to be had. -/
def Drops (d : Document) (host : ElementId) (fileName : String) (d' : Document) : Prop :=
  ∃ index dropped, d.inclusionIndex? host fileName = some index ∧
    (d.sheets host)[index]? = some dropped ∧
    d'.sheets host = (d.sheets host).eraseIdx index ∧
    ∀ id, d.tree.isAttached id = true → ∀ name, d.styleOf? id = some name →
      dropped.sheet.provides name = true → d'.HasStyle host name

end Document

namespace Module

variable {m : Module}

theorem Sound.perform_decided (hm : m.Sound) (h : m.isNotifying = false) {files : Files}
    {command : Command} {action : Action Unit} (haction : command.action false files = action.done)
    {decision : Bool} (post : Document → Prop)
    (hyields : action.Yields m.editor (fun _ ed => decision = true ∧ post ed.document)
      fun _ => decision = false) :
    (m.perform files command).result.isOk = decision ∧
      (decision = true → post (m.perform files command).module.document) := by
  have hdone : (command.action false files).Yields m.editor
      (fun _ ed => decision = true ∧ post ed.document) fun _ => decision = false := by
    rw [haction]
    exact Action.yields_bind.2 hyields
  rw [hm.perform_eq h]
  cases hresult : command.action false files m.editor with
  | ok reply ed =>
      obtain ⟨hdecision, hpost⟩ := hdone.of_ok hresult
      exact ⟨hdecision.symm, fun _ => hpost⟩
  | error error ed =>
      have hdecision := hdone.of_error hresult
      refine ⟨hdecision.symm, fun htrue => ?_⟩
      rw [hdecision] at htrue
      cases htrue

variable (hm : m.Sound) (hquiet : m.isNotifying = false) (files : Files) (host : ElementId)
  (fileName : String)
include hm hquiet

theorem Sound.dropSheet_decided :
    (m.perform files (.dropSheet host fileName)).result.isOk =
      m.document.canDropSheet host fileName ∧
    (m.document.canDropSheet host fileName = true → m.document.Drops host fileName
      (m.perform files (.dropSheet host fileName)).module.document) := by
  refine hm.perform_decided hquiet rfl (m.document.Drops host fileName) ?_
  refine (Action.yields_dropSheet host fileName).imp ?_ fun _ hnot => hnot
  rintro - ed ⟨index, dropped, hindex, hget, hstyle, hdocument⟩
  have hhost := Document.isHost_of_inclusionIndex? hindex
  have hcan : m.document.canDropSheet host fileName = true := by
    rw [Document.canDropSheet, Module.document, hindex, Option.any_some, hstyle, Option.isNone_none]
  refine ⟨hcan, index, dropped, hindex, hget, ?_, fun id hattached name huse hprovides => ?_⟩
  · rw [hdocument]
    exact Document.sheets_apply_self hhost _
  · rw [hdocument]
    refine Document.hasStyle_of_styleOnlyIn? hhost hget hstyle ?_ huse hprovides
    exact hm.history.wellFormed.forest.mem_attached.2 hattached

theorem Sound.addFile_decided :
    (m.perform files (.addFile host fileName)).result.isOk =
      (m.document.canAddSheet host fileName &&
        (files.load m.document.tree.dictionary fileName).isOk) := by
  refine (hm.perform_decided hquiet rfl (fun _ => True) ?_).1
  refine (Action.yields_addFile files host fileName).imp ?_ fun _ hnot => hnot
  rintro - ed ⟨hcan, sheet, hload, -⟩
  refine ⟨?_, trivial⟩
  rw [Module.document, hcan, hload]
  rfl

theorem Sound.renameSheet_decided (newName : String) :
    (m.perform files (.renameSheet host fileName newName)).result.isOk =
      (m.document.canRenameSheet host fileName newName &&
        (files.load m.document.tree.dictionary newName).isOk) := by
  refine (hm.perform_decided hquiet rfl (fun _ => True) ?_).1
  refine (Action.yields_renameSheet files host fileName newName).imp ?_ fun _ hnot => hnot
  rintro - ed ⟨index, old, sheet, hindex, -, hfree, hload, -⟩
  refine ⟨?_, trivial⟩
  rw [Document.canRenameSheet, Module.document, hindex, hload]
  by_cases hname : newName = fileName
  · simp [hname, Except.isOk, Except.toBool]
  · simp [hname, hfree hname, Except.isOk, Except.toBool]

omit hm in
/-- Outside a round of notifications it can be asked before whether a stylesheet may be dropped,
added or renamed, and the answer is right. What is dropped takes no style in use along. -/
theorem Reachable.sheet_queries_predict (h : m.Reachable) :
    (m.perform files (.dropSheet host fileName)).result.isOk =
      m.document.canDropSheet host fileName ∧
    (m.perform files (.addFile host fileName)).result.isOk =
      (m.document.canAddSheet host fileName &&
        (files.load m.document.tree.dictionary fileName).isOk) ∧
    (∀ newName, (m.perform files (.renameSheet host fileName newName)).result.isOk =
      (m.document.canRenameSheet host fileName newName &&
        (files.load m.document.tree.dictionary newName).isOk)) ∧
    ((m.perform files (.dropSheet host fileName)).result.isOk = true →
      m.document.Drops host fileName
        (m.perform files (.dropSheet host fileName)).module.document) := by
  obtain ⟨hdrop, hkept⟩ := h.sound.dropSheet_decided hquiet files host fileName
  refine ⟨hdrop, h.sound.addFile_decided hquiet files host fileName,
    h.sound.renameSheet_decided hquiet files host fileName, fun hok => ?_⟩
  exact hkept (hdrop.symm.trans hok)

omit hm hquiet

/-- Two stylesheets are included that provide the style of a label. -/
def wearing : List Input :=
  labelling ++
  [.perform .empty (.setValue ⟨1, 0⟩ "style" (.string "wide")),
    .perform .empty (.addSheet ⟨0, 0⟩ { fileName := "plain.css" }
      (.ofRules "plain.css" Vocabulary.reports [wideRule])),
    .perform .empty (.addSheet ⟨0, 0⟩ { fileName := "wide.css" }
      (.ofRules "wide.css" Vocabulary.reports [wideRule]))]

/-- One of the two stylesheets can be dropped, and the style of the label is still there. -/
theorem sheet_queries_predict_wearing :
    (blank.run wearing).Reachable ∧ (blank.run wearing).isNotifying = false ∧
    (blank.run wearing).document.styleOf? ⟨1, 0⟩ = some "wide" ∧
    ((blank.run wearing).perform .empty (.dropSheet ⟨0, 0⟩ "plain.css")).result.isOk = true ∧
    ((blank.run wearing).perform .empty
      (.dropSheet ⟨0, 0⟩ "plain.css")).module.document.HasStyle ⟨0, 0⟩ "wide" := by
  have hreachable := reachable_blank.run wearing
  have huse : (blank.run wearing).document.styleOf? ⟨1, 0⟩ = some "wide" := by decide +kernel
  have hcan : (blank.run wearing).document.canDropSheet ⟨0, 0⟩ "plain.css" = true := by
    decide +kernel
  obtain ⟨hdrop, -, -, hkept⟩ :=
    hreachable.sheet_queries_predict rfl .empty ⟨0, 0⟩ "plain.css"
  have hok := hdrop.trans hcan
  refine ⟨hreachable, rfl, huse, hok, ?_⟩
  obtain ⟨index, dropped, hindex, hget, -, hstyles⟩ := hkept hok
  have hfirst : (blank.run wearing).document.inclusionIndex? ⟨0, 0⟩ "plain.css" = some 0 := by
    decide +kernel
  obtain rfl := Option.some.inj (hfirst.symm.trans hindex)
  refine hstyles ⟨1, 0⟩ (by decide +kernel) "wide" huse ?_
  have hprovides : ((blank.run wearing).document.sheets ⟨0, 0⟩)[0]?.map
      (·.sheet.provides "wide") = some true := by
    decide +kernel
  rw [hget] at hprovides
  exact Option.some.inj hprovides

end Module

end ReportModel
