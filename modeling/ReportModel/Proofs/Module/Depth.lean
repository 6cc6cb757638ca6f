import ReportModel.Proofs.Document.Depth
import ReportModel.Proofs.Module.Bases
import ReportModel.Proofs.Module.Recovery

/-!
# The limit on chains of bases

Adding and moving check the chains of all attached elements, and giving an element a base checks its
own chain only. So a chain gets too long if an element that is a base already gets a base itself,
and from then on all operations that check are refused. As long as no chain is too long, an element
with neither name nor base can be added wherever its slot admits it.
-/

namespace ReportModel

open Edit Editor

namespace Action

variable {ed : Editor} {id : ElementId}

theorem leaves_setBase_endsWithin (reference : Reference) : (setBase false id reference).Leaves ed
    fun d => (⟨d, id⟩ : OwnedElement).EndsWithin ed.document.depthLimit := by
  apply leaves_setBase_of
  intro e base he hlookup hfree
  exact Document.endsWithin_withBase he hlookup hfree

theorem yields_transact_ok {body : Action Unit} (label : String)
    (h : body.Yields { ed with history := ed.history.start label }
      (fun _ ed' => ed'.history.current ≠ []) fun _ => False) :
    (transact false label body).Yields ed (fun _ _ => True) fun _ => False := by
  refine yields_transact_iff.2 (h.imp (fun a ed₁ hbody => ?_) fun _ => False.elim)
  obtain ⟨r, outer, hcur⟩ := List.exists_cons_of_ne_nil hbody
  simp only [commit, yields_bind, yields_ensureMutable, yields_get, yields_demand,
    History.commit_eq hcur, Option.some.injEq, forall_eq', reduceCtorEq, false_implies, true_and]
  split <;> exact trivial

theorem yields_add_plain {place : Place} {index : Option Nat} {i : Nat}
    (hd : ed.document.Orderly) (hwf : ed.document.tree.WellFormed)
    (hplain : ed.document.tree.Plain id) (hpassed : ed.document.runawayReference? = none)
    (hcheck : ed.document.checkAdd id place index = .ok i) :
    (add false id place index).Yields ed (fun _ _ => True) fun _ => False := by
  obtain ⟨hc, hat⟩ := Document.canLink_of_checkAdd hcheck
  simp only [add, yields_bind, yields_ensureMutable, yields_document, yields_lift, hcheck]
  refine ⟨by simp, fun _ h => ?_⟩
  obtain rfl := Except.ok.inj h
  have hin : (ed.history.start "add element").current ≠ [] := by simp [History.start]
  apply yields_transact_ok
  simp only [yields_bind, yields_document, hplain.planNames_eq, List.map_nil, executeAll,
    yields_pure]
  rw [yields_execute hin]
  have hpassed' := Document.runawayReference?_attach_plain hd hwf hc hat hplain hpassed
  simp only [checkBases, yields_bind, yields_document]
  split
  · next reference hsome => exact absurd (hpassed'.symm.trans hsome) (by simp)
  · exact current_absorb_ne_nil hin _

end Action

namespace Module

variable {m : Module}

theorem Sound.leaves_of_ok (hm : m.Sound) {files : Files} {command : Command} {reply : Reply}
    {Q : Document → Prop} (hok : (m.perform files command).result = .ok reply)
    (h : (command.action false files).Leaves m.editor Q) :
    Q (m.perform files command).module.document := by
  obtain ⟨ed, hresult, hmodule⟩ := hm.exists_of_ok hok
  have hleft : Q ed.document := h.of_ok hresult
  rw [hmodule]
  exact hleft

theorem Built.runawayReference?_eq_none_iff (h : m.Built) :
    m.document.runawayReference? = none ↔ m.document.Bounded :=
  (h.orderly _ m.document_mem_documents).1.runawayReference?_eq_none_iff
    h.reachable.sound.history.wellFormed

/-- A command that has checked all chains has left them within the limit. -/
theorem Built.bounded_of_checked (h : m.Built) {files : Files} {command : Command} {reply : Reply}
    (hnone : command.library? = none) (hok : (m.perform files command).result = .ok reply)
    (hchecked : (command.action false files).Leaves m.editor (·.Checked m.document)) :
    (m.perform files command).module.document.Bounded := by
  have hnext : (m.next (.perform files command)).Built := h.next _ hnone
  exact hnext.runawayReference?_eq_none_iff.1 (h.reachable.sound.leaves_of_ok hok hchecked).passed

/-- A design with one base at most for each element, three labels in its body of which the first one
has the second one as its base, and a label that is in no place yet. -/
def paired : Module :=
  Module.run
    { editor :=
      { document :=
          { serial := 0, depthLimit := 1, tree := .new Vocabulary.reports "ReportDesign"
            libraries := [] }
        history := { limit := 100 } } }
    [.perform .empty (.create "Label" (some "a")),
      .perform .empty (.add ⟨1, 0⟩ ⟨⟨0, 0⟩, "body"⟩ none),
      .perform .empty (.create "Label" (some "b")),
      .perform .empty (.add ⟨2, 0⟩ ⟨⟨0, 0⟩, "body"⟩ none),
      .perform .empty (.create "Label" (some "c")),
      .perform .empty (.add ⟨3, 0⟩ ⟨⟨0, 0⟩, "body"⟩ none),
      .perform .empty (.setBase ⟨1, 0⟩ ⟨none, "b"⟩),
      .perform .empty (.create "Label" none)]

theorem built_paired : paired.Built := by
  have hnew : Built _ := .new (rfl : Module.new 0 "ReportDesign" { depthLimit := 1 } = .ok _)
  exact hnew.run (by simp [Input.library?, Command.library?])

/-- Where chains of bases are checked they keep to the limit, and as long as they do, elements that
have nothing to do with them can be added. -/
theorem Built.bases_bounded (h : m.Built) :
    (m.document.runawayReference? = none ↔ m.document.Bounded) ∧
    (∀ files id reference reply, (m.perform files (.setBase id reference)).result = .ok reply →
      (⟨(m.perform files (.setBase id reference)).module.document, id⟩ : OwnedElement).EndsWithin
        m.document.depthLimit) ∧
    (∀ files id place index reply, (m.perform files (.add id place index)).result = .ok reply →
      (m.perform files (.add id place index)).module.document.Bounded) ∧
    (∀ files id place index reply, (m.perform files (.move id place index)).result = .ok reply →
      (m.perform files (.move id place index)).module.document.Bounded) ∧
    (m.document.Bounded → m.isNotifying = false → ∀ files id place index i,
      m.document.checkAdd id place index = .ok i → m.document.tree.Plain id →
      (m.perform files (.add id place index)).result = .ok .done) := by
  have hm := h.reachable.sound
  refine ⟨h.runawayReference?_eq_none_iff, ?_, ?_, ?_, ?_⟩
  · intro files id reference reply hok
    exact hm.leaves_of_ok hok (Action.leaves_done (Action.leaves_setBase_endsWithin reference))
  · intro files id place index reply hok
    exact h.bounded_of_checked rfl hok (Action.leaves_done (Action.leaves_add id place index))
  · intro files id place index reply hok
    exact h.bounded_of_checked rfl hok (Action.leaves_done (Action.leaves_move id place index))
  · intro hbounded hquiet files id place index i hcheck hplain
    have hadd := Action.yields_add_plain (h.orderly _ m.document_mem_documents).1
      hm.history.wellFormed hplain (h.runawayReference?_eq_none_iff.2 hbounded) hcheck
    have hdone : ((Command.add id place index).action false files).Yields m.editor
        (fun reply _ => reply = .done) fun _ => False :=
      Action.yields_bind.2 (hadd.imp (fun _ _ _ => rfl) fun _ h => h)
    rw [hm.perform_eq hquiet]
    cases hresult : (Command.add id place index).action false files m.editor with
    | ok reply ed =>
        obtain rfl : reply = .done := hdone.of_ok hresult
        rfl
    | error error ed => exact (hdone.of_error hresult).elim

/-- As long as the second label has no base, the new one can be added. -/
theorem bases_bounded_paired :
    paired.document.Bounded ∧
    (paired.perform .empty (.add ⟨4, 0⟩ ⟨⟨0, 0⟩, "body"⟩ none)).result = .ok .done := by
  obtain ⟨hiff, -, -, -, hadd⟩ := built_paired.bases_bounded
  have hbounded : paired.document.Bounded := hiff.1 rfl
  have hplain : paired.document.tree.Plain ⟨4, 0⟩ := ⟨⟨_, rfl, rfl, rfl, rfl⟩, rfl⟩
  exact ⟨hbounded, hadd hbounded rfl _ _ _ _ 3 rfl hplain⟩

/-- The third label becomes the base of the second one. -/
def stacked : Module :=
  (paired.perform .empty (.setBase ⟨2, 0⟩ ⟨none, "c"⟩)).module

theorem built_stacked : stacked.Built :=
  built_paired.next (.perform .empty (.setBase ⟨2, 0⟩ ⟨none, "c"⟩)) rfl

/-- The chain of the first label is too long then, although the base has been accepted, and the new
label cannot be added. -/
theorem stacked_unbounded :
    (paired.perform .empty (.setBase ⟨2, 0⟩ ⟨none, "c"⟩)).result = .ok .done ∧
    ¬ stacked.document.Bounded ∧
    stacked.document.runawayReference? = some ⟨none, "b"⟩ ∧
    stacked.document.tree.Plain ⟨4, 0⟩ ∧
    stacked.document.checkAdd ⟨4, 0⟩ ⟨⟨0, 0⟩, "body"⟩ none = .ok 3 ∧
    (stacked.perform .empty (.add ⟨4, 0⟩ ⟨⟨0, 0⟩, "body"⟩ none)).result =
      .error (.cyclicBase "b") := by
  have hrunaway : stacked.document.runawayReference? = some ⟨none, "b"⟩ := rfl
  refine ⟨rfl, fun hbounded => ?_, hrunaway, ⟨⟨_, rfl, rfl, rfl, rfl⟩, rfl⟩, rfl, rfl⟩
  have hnone := built_stacked.runawayReference?_eq_none_iff.2 hbounded
  exact absurd (hnone.symm.trans hrunaway) (by simp)

end Module

end ReportModel
