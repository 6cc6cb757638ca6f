import ReportModel.Proofs.Editor.Effects
import ReportModel.Proofs.Module.Depth

/-!
# The limit of the walks

A new base is refused, the check of all chains fails, and the list of a chain is cut off for the
same reason: the chain comes back, or it has more bases than the limit.
-/

namespace ReportModel

open Edit Editor

namespace Action

variable {ed : Editor} {id : ElementId} {e : Element} {reference : Reference} {base : OwnedElement}

theorem gives_setBase_cyclicBase (he : ed.document.get? id = some e)
    (hlookup : ed.document.lookup e.typeName reference = some base)
    (htype : base.get?.map (·.typeName) = some e.typeName)
    (hstop : ed.document.wouldRunOn id base = true) :
    (setBase false id reference).Gives ed (.error (.cyclicBase reference.text)) ed := by
  refine (gives_existing he).bind (gives_document.bind ?_)
  refine (gives_demand hlookup).bind ((gives_refuse ?_ _).bind ?_)
  · simp [htype]
  · exact (gives_refuse_error hstop _).bind_error

theorem yields_setBase_ok (he : ed.document.get? id = some e)
    (hlookup : ed.document.lookup e.typeName reference = some base)
    (htype : base.get?.map (·.typeName) = some e.typeName)
    (hfree : ed.document.wouldRunOn id base = false) :
    (setBase false id reference).Yields ed (fun _ _ => True) fun _ => False := by
  simp only [setBase, yields_bind, yields_ensureMutable, yields_document, yields_existing,
    yields_demand, yields_refuse]
  refine ⟨by simp [he], fun e' he' => ⟨?_, fun base' hlookup' => ?_⟩⟩
  · obtain rfl := Option.some.inj (he.symm.trans he')
    simp [hlookup]
  · obtain rfl := Option.some.inj (he.symm.trans he')
    obtain rfl := Option.some.inj (hlookup.symm.trans hlookup')
    refine ⟨by simp [htype], fun _ => ⟨by simp [hfree], fun _ => ?_⟩⟩
    have hin : (ed.history.start "set extends").current ≠ [] := by simp [History.start]
    apply yields_transact_ok
    rw [yields_execute hin]
    exact current_absorb_ne_nil hin _

theorem checkBases_eq (ed : Editor) : checkBases ed =
    match ed.document.runawayReference? with
    | some reference => .error (.cyclicBase reference.text) ed
    | none => .ok () ed := by
  change (match ed.document.runawayReference? with
    | some reference => throw (.cyclicBase reference.text)
    | none => pure () : Action Unit) ed = _
  cases ed.document.runawayReference? <;> rfl

theorem checkBases_eq_ok_iff :
    checkBases ed = .ok () ed ↔ ed.document.runawayReference? = none := by
  rw [checkBases_eq]
  cases ed.document.runawayReference? <;> simp

theorem exists_checkBases_eq_error_iff :
    (∃ text, checkBases ed = .error (.cyclicBase text) ed) ↔
      ¬ ed.document.runawayReference? = none := by
  rw [checkBases_eq]
  cases ed.document.runawayReference? <;> simp

end Action

namespace Module

variable {m : Module} {files : Files} {command : Command}

theorem Sound.result_of_gives (hm : m.Sound) (hquiet : m.isNotifying = false)
    {result : Except DesignError Reply} {after : Editor}
    (h : (command.action false files).Gives m.editor result after) :
    (m.perform files command).result = result := by
  rw [hm.perform_eq hquiet]
  cases result with
  | ok reply =>
      have hok : command.action false files m.editor = .ok reply after := h
      rw [hok]
  | error error =>
      have herror : command.action false files m.editor = .error error after := h
      rw [herror]

theorem Sound.result_of_yields (hm : m.Sound) (hquiet : m.isNotifying = false)
    {action : Action Unit} (haction : command.action false files = Action.done action)
    (h : action.Yields m.editor (fun _ _ => True) fun _ => False) :
    (m.perform files command).result = .ok .done := by
  cases hresult : action m.editor with
  | ok _ ed =>
      have hgives : action.Gives m.editor (.ok ()) ed := hresult
      have hdone : (Action.done action).Gives m.editor (.ok .done) ed := hgives.bind rfl
      rw [← haction] at hdone
      exact hm.result_of_gives hquiet hdone
  | error error ed => exact (h.of_error hresult).elim

section setBase

variable {id : ElementId} {reference : Reference} {e : Element} {base : OwnedElement}

theorem Sound.result_setBase_ok (hm : m.Sound) (hquiet : m.isNotifying = false) (files : Files)
    (he : m.document.get? id = some e)
    (hlookup : m.document.lookup e.typeName reference = some base)
    (htype : base.get?.map (·.typeName) = some e.typeName)
    (hfree : m.document.wouldRunOn id base = false) :
    (m.perform files (.setBase id reference)).result = .ok .done := by
  have haction : (Command.setBase id reference).action false files =
    Action.done (Action.setBase false id reference) := rfl
  exact hm.result_of_yields hquiet haction (Action.yields_setBase_ok he hlookup htype hfree)

theorem Sound.result_setBase_iff (hm : m.Sound) (files : Files)
    (he : m.document.get? id = some e)
    (hlookup : m.document.lookup e.typeName reference = some base)
    (htype : base.get?.map (·.typeName) = some e.typeName) :
    (m.perform files (.setBase id reference)).result = .error (.cyclicBase reference.text) ↔
      m.isNotifying = false ∧ m.document.wouldRunOn id base = true := by
  cases hquiet : m.isNotifying with
  | true =>
      rw [perform_of_notifying hquiet]
      simp
  | false =>
      simp only [true_and]
      constructor
      · intro hresult
        by_contra hpass
        have hfree : m.document.wouldRunOn id base = false := Bool.eq_false_iff.2 hpass
        cases (hm.result_setBase_ok hquiet files he hlookup htype hfree).symm.trans hresult
      · intro hstop
        have hgives := Action.gives_setBase_cyclicBase he hlookup htype hstop
        exact hm.result_of_gives hquiet hgives.bind_error

end setBase

/-- The three walks along chains of bases have one limit. A new base is refused if with it the chain
would come back or be too long, the check of all chains fails if a chain of an attached element
comes to something twice or is too long, and a chain is listed to its end if it is neither. -/
theorem Reachable.walks_agree (h : m.Reachable) :
    (∀ files id reference e base extended, m.document.get? id = some e →
      m.document.lookup e.typeName reference = some base →
      base.get?.map (·.typeName) = some e.typeName →
      OwnedElement.mk (m.document.withBase id reference) id = extended →
      ((m.perform files (.setBase id reference)).result = .error (.cyclicBase reference.text) ↔
        m.isNotifying = false ∧
          (extended.Returns ∨ ¬ extended.EndsWithin m.document.depthLimit)) ∧
      (m.isNotifying = false →
        (m.perform files (.setBase id reference)).result ≠ .error (.cyclicBase reference.text) →
        (m.perform files (.setBase id reference)).result = .ok .done ∧
        (m.perform files (.setBase id reference)).module.document = extended.document)) ∧
    ((∃ text, Action.checkBases m.editor = .error (.cyclicBase text) m.editor) ↔
      ∃ x, m.document.tree.isAttached x = true ∧
        ((⟨m.document, x⟩ : OwnedElement).Revisits ∨
          ¬ (⟨m.document, x⟩ : OwnedElement).EndsWithin m.document.depthLimit)) ∧
    (Action.checkBases m.editor = .ok () m.editor ↔
      ∀ x, m.document.tree.isAttached x = true →
        ¬ (⟨m.document, x⟩ : OwnedElement).Revisits ∧
          (⟨m.document, x⟩ : OwnedElement).EndsWithin m.document.depthLimit) ∧
    (∀ x k, k < (m.document.chain x).length ∨
        ¬ (⟨m.document, x⟩ : OwnedElement).Revisits ∧
          (⟨m.document, x⟩ : OwnedElement).EndsWithin m.document.depthLimit →
      (m.document.chain x)[k]? = (⟨m.document, x⟩ : OwnedElement).nthBase? k) := by
  have hm := h.sound
  have hcheck := Document.runawayReference?_eq_none_iff hm.history.wellFormed
  refine ⟨?_, ?_, ?_, ?_⟩
  · intro files id reference e base extended he hlookup htype hextended
    have hiff := hm.result_setBase_iff files he hlookup htype
    subst hextended
    refine ⟨?_, fun hquiet hpassed => ?_⟩
    · rw [hiff, Document.wouldRunOn_iff he hlookup htype]
    · have hfree : m.document.wouldRunOn id base = false := by
        apply Bool.eq_false_iff.2
        intro hstop
        exact hpassed (hiff.2 ⟨hquiet, hstop⟩)
      have hok := hm.result_setBase_ok hquiet files he hlookup htype hfree
      have hleaves : (Action.setBase false id reference).Leaves m.editor
          (· = m.document.withBase id reference) :=
        Action.leaves_setBase_of fun _ _ _ _ _ => rfl
      exact ⟨hok, hm.leaves_of_ok hok (Action.leaves_done hleaves)⟩
  · rw [Action.exists_checkBases_eq_error_iff]
    refine (not_congr hcheck).trans ?_
    simp only [not_forall, not_and_or, not_not, exists_prop]
  · exact Action.checkBases_eq_ok_iff.trans hcheck
  · intro x k hk
    rcases hk with hk | ⟨hfresh, hend⟩
    · exact Document.chain_getElem? hk
    · exact Document.chain_getElem?_of_endsWithin hfresh hend k

/-- The second of three labels cannot have the first one as its base, which has the second one as
its own; if the third one becomes its base instead, the chain of the first one is too long. -/
theorem walks_agree_paired :
    (paired.perform .empty (.setBase ⟨2, 0⟩ ⟨none, "a"⟩)).result = .error (.cyclicBase "a") ∧
    (∃ text, Action.checkBases stacked.editor = .error (.cyclicBase text) stacked.editor) ∧
    ∀ k, (paired.document.chain ⟨1, 0⟩)[k]? =
      (⟨paired.document, ⟨1, 0⟩⟩ : OwnedElement).nthBase? k := by
  obtain ⟨hset, -, hpassed, hchain⟩ := built_paired.reachable.walks_agree
  obtain ⟨-, hfails, -, -⟩ := built_stacked.reachable.walks_agree
  have hsecond : (⟨stacked.document, ⟨1, 0⟩⟩ : OwnedElement).nthBase? 2 =
    some ⟨stacked.document, ⟨3, 0⟩⟩ := rfl
  refine ⟨?_, ?_, fun k => ?_⟩
  · refine (hset .empty ⟨2, 0⟩ ⟨none, "a"⟩ _ ⟨paired.document, ⟨1, 0⟩⟩ _ rfl rfl rfl rfl).1.2 ?_
    exact ⟨rfl, Or.inl ⟨1, _, rfl, rfl⟩⟩
  · refine hfails.2 ⟨⟨1, 0⟩, rfl, Or.inr fun hend => ?_⟩
    exact absurd (hend.symm.trans hsecond) (by simp)
  · exact hchain ⟨1, 0⟩ k (Or.inr (hpassed.1 rfl ⟨1, 0⟩ rfl))

end Module

end ReportModel
