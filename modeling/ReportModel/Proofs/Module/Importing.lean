import ReportModel.Proofs.Editor.Importing
import ReportModel.Proofs.Module.Recovery

/-!
# Importing styles

An import copies the styles that a stylesheet has of the given names, in that order. What a copy
says about a property is what its style lists last for it. A style is asked for what it lists first,
so the copy agrees with it unless the style lists several values, as one whose first rule sets the
property twice does.
-/

namespace ReportModel

open Edit Editor

theorem Document.contents_createAll (d : Document) (cs : List Creation) (container : ElementId)
    (slot : String) : (d.createAll cs).tree.contents container slot =
      d.tree.contents container slot := by
  induction cs generalizing d with
  | nil => rfl
  | cons c cs ih => exact (ih (d.create c)).trans (Tree.contents_create ..)

namespace Tree

variable {t t' : Tree} {entries : List (String × Css.Style)} {ids : List ElementId}

theorem ImportsAll.agrees (h : ImportsAll entries ids t t') : List.Forall₂ (fun entry id =>
    ∀ p, (∀ v w, (p, v) ∈ entry.2.properties → (p, w) ∈ entry.2.properties → v = w) →
      (t'.get? id).bind (·.value? p) = entry.2.property? p) entries ids := by
  refine h.copies.imp fun entry id hcopies p honce => ?_
  obtain ⟨e, own, he, -, -, -, hvalues⟩ := hcopies
  rw [he, Option.bind_some, hvalues]
  exact (Css.valueIn_eq_lastValueIn honce).symm

theorem ImportsAll.notMem_contents (hf : t.Forest) (h : ImportsAll entries ids t t')
    {id : ElementId} (hid : id ∈ ids) (container : ElementId) (slot : String) :
    id ∉ t.contents container slot := by
  intro hmem
  obtain ⟨e, he, -⟩ := hf.mem_contents_iff_place.1 hmem
  cases (h.fresh id hid).symm.trans he

theorem ImportsAll.edits_ne_nil {d d' : Document} (h : ImportsAll entries ids d.tree d'.tree)
    (hids : ids ≠ []) {cs : List Creation} {edits : List Edit}
    (hr : Reversible edits (d.createAll cs) d') : edits ≠ [] := by
  rintro rfl
  have hsame : d' = d.createAll cs := hr.revertAll_eq
  have hcontents := h.contents
  rw [hsame, Document.contents_createAll] at hcontents
  exact hids (List.self_eq_append_right.1 hcontents)

end Tree

namespace Module

variable {m m' : Module} {files : Files} {sheet : Css.StyleSheet} {names : List String}
  {reply : Reply}

theorem Sound.imports (hm : m.Sound)
    (hok : (m.perform files (.importStyles sheet names)).result = .ok reply) :
    ∃ ids ed cs r, reply = .elements ids ∧
      (m.perform files (.importStyles sheet names)).module =
        { m with editor := { ed with announced := none } } ∧
      Tree.ImportsAll (sheet.styled names) ids m.document.tree ed.document.tree ∧
      Absorbs cs r m.editor ed := by
  obtain ⟨ed, hrun, hmodule⟩ := hm.exists_of_ok hok
  have hwf : m.editor.document.tree.WellFormed := hm.history.wellFormed
  obtain ⟨ids, hids, hreply⟩ := Action.exists_of_map_ok hrun
  have himports := (Action.yields_importStyles_imports hwf sheet names).of_ok hids
  obtain ⟨-, r, hr⟩ := (Action.atomic_importStyles hwf sheet names).of_ok hids
  exact ⟨ids, ed, _, r, hreply.symm, hmodule, himports, hr⟩

/-- A revision that has been closed last can be undone, and then each slot holds what it held. -/
theorem Sound.contents_undo {cs : List Creation} {r : Revision} (hm : m.Sound) (hm' : m'.Sound)
    (hquiet : m'.isNotifying = false) (hcur : m.history.current = [])
    (hhistory : m'.history = m.history.absorb r) (hedits : r.edits ≠ [])
    (hr : Reversible r.edits (m.document.createAll cs) m'.document) {back : Outcome}
    (hback : m'.perform files .undo = back) :
    back.result = .ok .done ∧ ∀ container slot,
      back.module.document.tree.contents container slot =
        m.document.tree.contents container slot := by
  obtain ⟨hcur', rest, hundo⟩ := History.exists_undo_absorb hcur hedits
  rw [← hhistory] at hcur' hundo
  have hreturns := hm'.undoReturnsTo hm.history.wellFormed hcur' hundo hr
  obtain ⟨hdone, hdocument, -⟩ := hreturns m'.listeners files back
    (Option.isNone_iff_eq_none.1 (Option.isSome_eq_false_iff.1 hquiet)) hback
  refine ⟨hdone, fun container slot => ?_⟩
  rw [hdocument.exactly, Document.contents_createAll]

/-- An import gives one new element for each of the names that the stylesheet has, in that order,
and puts them behind the styles of the root. Each has its name or that name with a number, and the
values that its style lists last; so it agrees with its style wherever that lists one value. Outside
a transaction an import of any style is one revision, and undoing it empties the slot of them. -/
theorem Reachable.importStyles_exact (h : m.Reachable)
    (hok : (m.perform files (.importStyles sheet names)).result = .ok reply)
    (hafter : (m.perform files (.importStyles sheet names)).module = m') :
    ∃ ids, reply = .elements ids ∧
      Tree.ImportsAll (sheet.styled names) ids m.document.tree m'.document.tree ∧
      List.Forall₂ (fun entry id => ∀ p,
        (∀ v w, (p, v) ∈ entry.2.properties → (p, w) ∈ entry.2.properties → v = w) →
          (m'.document.get? id).bind (·.value? p) = entry.2.property? p)
        (sheet.styled names) ids ∧
      (m.history.current = [] → ids ≠ [] →
        ∃ r, m'.history = { m.history with redo := [] }.pushUndo r ∧
          ∀ files back, m'.perform files .undo = back → back.result = .ok .done ∧
            (∀ container slot, back.module.document.tree.contents container slot =
              m.document.tree.contents container slot) ∧
            ∀ id ∈ ids, id ∉
              back.module.document.tree.contents m.document.root Vocabulary.stylesSlot) := by
  have hm := h.sound
  have hm' := hm.next (.perform files (.importStyles sheet names))
  obtain ⟨ids, ed, cs, r, hreply, hmodule, himports, hr⟩ := hm.imports hok
  rw [Module.next, hafter] at hm'
  rw [hafter] at hmodule
  have hquiet : m'.isNotifying = false := by
    rw [hmodule]
    change m.isNotifying = false
    exact not_notifying_of_ok hok
  have hdocument : m'.document = ed.document := congrArg (·.document) hmodule
  have hhistory : m'.history = m.history.absorb r :=
    (congrArg (·.history) hmodule).trans hr.history
  have hreversible : Reversible r.edits (m.document.createAll cs) m'.document :=
    hdocument ▸ hr.document
  rw [← hdocument] at himports
  refine ⟨ids, hreply, himports, himports.agrees, fun hcur hids => ?_⟩
  have hedits := himports.edits_ne_nil hids hreversible
  refine ⟨r, hhistory.trans (History.absorb_of_nil hcur hedits), fun files back hback => ?_⟩
  obtain ⟨hdone, hcontents⟩ :=
    hm.contents_undo hm' hquiet hcur hhistory hedits hreversible hback
  refine ⟨hdone, hcontents, fun id hid => ?_⟩
  rw [hcontents]
  exact himports.notMem_contents hm.history.wellFormed.forest hid _ _

def classSheet : Css.StyleSheet :=
  .ofRules "classes.css" Vocabulary.reports
    [⟨[.compound [.ofClass "Heading"]], [⟨"color", [.ident "navy"], false⟩]⟩,
      ⟨[.compound [.ofClass "Note"]], [⟨"color", [.ident "red"], false⟩]⟩]

/-- A new design with a class imported twice and another one once. -/
def annotated : Module :=
  (blank.perform .empty (.importStyles classSheet ["Note", "Missing", "Note", "Heading"])).module

theorem importStyles_exact_annotated :
    annotated.document.tree.contents ⟨0, 0⟩ "styles" = [⟨1, 0⟩, ⟨2, 0⟩, ⟨3, 0⟩] ∧
    (annotated.document.get? ⟨2, 0⟩).bind (·.value? "color") = some (.color "red") ∧
    (annotated.perform .empty .undo).result = .ok .done ∧
    (annotated.perform .empty .undo).module.document.tree.contents ⟨0, 0⟩ "styles" = [] := by
  have hok : (blank.perform .empty (.importStyles classSheet
      ["Note", "Missing", "Note", "Heading"])).result =
        .ok (.elements [⟨1, 0⟩, ⟨2, 0⟩, ⟨3, 0⟩]) := by
    decide +kernel
  have hafter : (blank.perform .empty (.importStyles classSheet
      ["Note", "Missing", "Note", "Heading"])).module = annotated := rfl
  obtain ⟨ids, hids, himports, hagrees, hundo⟩ :=
    reachable_blank.importStyles_exact hok hafter
  obtain rfl := Reply.elements.inj hids
  have hlength : 1 < (classSheet.styled ["Note", "Missing", "Note", "Heading"]).length := by
    decide +kernel
  have hproperties : ((classSheet.styled ["Note", "Missing", "Note", "Heading"]).get
      ⟨1, hlength⟩).2.properties = [("color", .color "red")] := by
    decide +kernel +revert
  have honce : ∀ v w, ("color", v) ∈ [("color", Value.color "red")] →
      ("color", w) ∈ [("color", Value.color "red")] → v = w := by
    simp
  have hsecond : 1 < [(⟨1, 0⟩ : ElementId), ⟨2, 0⟩, ⟨3, 0⟩].length := by decide
  have hvalue := hagrees.get hlength hsecond "color" (hproperties ▸ honce)
  obtain ⟨r, -, hback⟩ := hundo rfl (List.cons_ne_nil _ _)
  obtain ⟨hdone, hcontents, -⟩ := hback .empty _ rfl
  refine ⟨himports.contents, ?_, hdone, hcontents ⟨0, 0⟩ "styles"⟩
  refine hvalue.trans ?_
  rw [Css.Style.property?, hproperties]
  rfl

/-- A stylesheet whose only rule sets a property twice. -/
def repeatedSheet : Css.StyleSheet :=
  .ofRules "report.css" Vocabulary.reports Css.StyleSheet.repeated

/-- If the first rule of a name sets a property twice, its style has the earlier value, and what is
imported has the later one. -/
theorem importStyles_repeated :
    blank.Reachable ∧
    Css.readRules "Label { color: red; color: blue; }" = .ok Css.StyleSheet.repeated ∧
    Css.StyleSheet.compile "report.css" Vocabulary.reports Css.StyleSheet.repeated =
      .ok repeatedSheet ∧
    (blank.perform .empty (.importStyles repeatedSheet ["Label"])).result =
      .ok (.elements [⟨1, 0⟩]) ∧
    (repeatedSheet.style? "Label").map (·.property? "color") = some (some (.color "red")) ∧
    ((blank.perform .empty
      (.importStyles repeatedSheet ["Label"])).module.document.get? ⟨1, 0⟩).map
        (·.value? "color") = some (some (.color "blue")) :=
  ⟨reachable_blank, by decide +kernel⟩

end Module

end ReportModel
