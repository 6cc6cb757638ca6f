import ReportModel.Proofs.Editor.Makes
import ReportModel.Proofs.Except
import ReportModel.Proofs.Module.Walks

/-!
# Locks

A lock mask of an element, or of one of its bases, keeps a lockable property of the element as it
is: setting and clearing the value are refused, and no other command changes it. Only as many bases
are asked as the limit on chains allows, so a lock further away has no say in a chain that is too
long.
-/

namespace ReportModel

open Edit Editor

def OwnedElement.Locks (r : OwnedElement) (property : String) : Prop :=
  ∃ f, r.get? = some f ∧ f.mask? property = some .lock

/-- A lock mask of an element, or of one of its bases up to the limit, covers a property. -/
def Document.LockedWithin (d : Document) (id : ElementId) (property : String) : Prop :=
  ∃ k s, k ≤ d.depthLimit ∧ (⟨d, id⟩ : OwnedElement).nthBase? k = some s ∧ s.Locks property

namespace Document

variable {d : Document} {id : ElementId} {e : Element} {property : String}
  {definition : PropertyDef}

theorem isLocked_iff (h : ¬ (⟨d, id⟩ : OwnedElement).Revisits) :
    d.isLocked id property = true ↔ d.LockedWithin id property := by
  have hlocks : ∀ r : OwnedElement,
      r.get?.any (·.mask? property = some .lock) = true ↔ r.Locks property := by
    intro r
    cases hr : r.get? <;> simp [OwnedElement.Locks, hr]
  simp only [isLocked, List.any_eq_true, List.mem_iff_getElem?, chain_getElem?_of_not_revisits h,
    hlocks]
  constructor
  · intro ⟨s, ⟨k, hs⟩, hlock⟩
    split at hs
    · next hk => exact ⟨k, s, hk, hs, hlock⟩
    · cases hs
  · intro ⟨k, s, hk, hs, hlock⟩
    exact ⟨s, ⟨k, by rw [if_pos hk, hs]⟩, hlock⟩

theorem checkWritable_of_isLocked (he : d.get? id = some e)
    (hdefinition : d.tree.dictionary.property? e.typeName property = some definition)
    (hlockable : definition.lockable = true) (h : d.isLocked id property = true) :
    d.checkWritable id property = .error (.lockedProperty id property) := by
  simp [checkWritable, he, hdefinition, hlockable, h]
  rfl

theorem checkWritable_of_not_isLocked (he : d.get? id = some e)
    (hdefinition : d.tree.dictionary.property? e.typeName property = some definition)
    (hfree : definition.locked = false) (h : d.isLocked id property = false) :
    d.checkWritable id property = .ok definition := by
  simp [checkWritable, he, hdefinition, hfree, h]
  rfl

end Document

namespace Action

variable {ed : Editor} {id : ElementId} {property : String} {value : Value} {error : DesignError}

theorem gives_setValue_error (h : ed.document.checkWritable id property = .error error) :
    (setValue false id property value).Gives ed (.error error) ed :=
  gives_ensureMutable.bind (gives_document.bind (gives_lift_error h).bind_error)

theorem gives_clearValue_error (h : ed.document.checkWritable id property = .error error) :
    (clearValue false id property).Gives ed (.error error) ed :=
  gives_ensureMutable.bind (gives_document.bind (gives_lift_error h).bind_error)

theorem yields_setValue_ok {e : Element} {definition : PropertyDef} {new : Value}
    (he : ed.document.get? id = some e)
    (hcheck : ed.document.checkWritable id property = .ok definition)
    (hvalid : definition.validate value = .ok new) :
    (setValue false id property value).Yields ed (fun _ _ => True) fun _ => False := by
  have hnew : (definition.validate value).mapError DesignError.property = .ok new :=
    mapError_eq_ok.2 hvalid
  simp only [setValue, yields_bind, yields_ensureMutable, yields_document, yields_lift,
    yields_existing]
  refine ⟨by simp [hcheck], fun definition' hcheck' => ⟨by simp [he], fun e' he' => ?_⟩⟩
  obtain rfl := Except.ok.inj (hcheck.symm.trans hcheck')
  refine ⟨by simp [hnew], fun new' hnew' => yields_ite.2 ⟨fun _ => ?_, fun _ => trivial⟩⟩
  have hin : (ed.history.start "set property").current ≠ [] := by simp [History.start]
  apply yields_transact_ok
  rw [yields_execute hin]
  exact current_absorb_ne_nil hin _

end Action

namespace Module

variable {m : Module} {files : Files} {command : Command} {id : ElementId} {e : Element}
  {property : String}

theorem Sound.get?_of_error (hm : m.Sound) {error : DesignError}
    (h : (m.perform files command).result = .error error) (he : m.document.get? id = some e) :
    (m.perform files command).module.document.get? id = some e := by
  rw [hm.perform_of_error h]
  exact Document.get?_createAll_of_get? he _

/-- A command keeps an element and its value of a property, if it neither leads back nor may change
that value. -/
theorem Sound.exists_value? (hm : m.Sound) (hreturn : command.isReturn = false)
    (he : m.document.get? id = some e)
    (hmakes : (∃ reply, (m.perform files command).result = .ok reply) →
      ∀ old new, ¬ command.Makes m.document (.value id property old new)) :
    ∃ e', (m.perform files command).module.document.get? id = some e' ∧
      e'.value? property = e.value? property := by
  cases hresult : (m.perform files command).result with
  | error error => exact ⟨e, hm.get?_of_error hresult he, rfl⟩
  | ok reply =>
      have harises := hm.leaves_of_ok hresult (command.arises_action files hreturn)
      obtain ⟨e', he', hvalue⟩ := harises.exists_get? he
      exact ⟨e', he', hvalue property (hmakes ⟨reply, hresult⟩)⟩

/-- A lock of an element or of a base within the limit keeps a lockable property as it is: it is
neither set nor cleared, and nothing but taking back, making again and freeing changes it. In a
chain within the limit this is so for every lock. Without such a lock the property can be set. -/
theorem Built.locked_within (h : m.Built) (hquiet : m.isNotifying = false) (id : ElementId)
    (property : String) {e : Element} {definition : PropertyDef} (he : m.document.get? id = some e)
    (hdefinition : m.document.tree.dictionary.property? e.typeName property = some definition)
    (hlockable : definition.lockable = true) :
    (m.document.LockedWithin id property →
      (∀ files value, (m.perform files (.setValue id property value)).result =
        .error (.lockedProperty id property)) ∧
      (∀ files, (m.perform files (.clearValue id property)).result =
        .error (.lockedProperty id property)) ∧
      ∀ files command, command.isReturn = false →
        ∃ e', (m.perform files command).module.document.get? id = some e' ∧
          e'.value? property = e.value? property) ∧
    ((⟨m.document, id⟩ : OwnedElement).EndsWithin m.document.depthLimit →
      ∀ k s, (⟨m.document, id⟩ : OwnedElement).nthBase? k = some s → s.Locks property →
        m.document.LockedWithin id property) ∧
    (definition.locked = false → ¬ m.document.LockedWithin id property →
      ∀ files value new, definition.validate value = .ok new →
        (m.perform files (.setValue id property value)).result = .ok .done) := by
  have hm := h.reachable.sound
  have hfresh := OwnedElement.not_revisits (r := ⟨m.document, id⟩)
    (h.orderly _ m.document_mem_documents).1
  have hlocked : m.document.isLocked id property = true ↔ m.document.LockedWithin id property :=
    Document.isLocked_iff hfresh
  refine ⟨fun hwithin => ?_, fun hend k s hs hlock => ?_,
    fun hfree hnot files value new hvalid => ?_⟩
  · have hcheck := Document.checkWritable_of_isLocked he hdefinition hlockable (hlocked.2 hwithin)
    have hset : ∀ files value, (m.perform files (.setValue id property value)).result =
        .error (.lockedProperty id property) := fun files value =>
      hm.result_of_gives hquiet (Action.gives_setValue_error hcheck).bind_error
    have hclear : ∀ files, (m.perform files (.clearValue id property)).result =
        .error (.lockedProperty id property) := fun files =>
      hm.result_of_gives hquiet (Action.gives_clearValue_error hcheck).bind_error
    refine ⟨hset, hclear, fun files command hreturn => hm.exists_value? hreturn he ?_⟩
    -- what could change the value has been refused
    rintro ⟨reply, hok⟩ old new hmakes
    rcases Command.eq_of_makes_value he hmakes with ⟨value, rfl⟩ | rfl
    · cases hok.symm.trans (hset files value)
    · cases hok.symm.trans (hclear files)
  · refine ⟨k, s, ?_, hs, hlock⟩
    by_contra hfar
    exact absurd ((hend.nthBase?_eq_none (Nat.lt_of_not_le hfar)).symm.trans hs) (by simp)
  · have hopen : m.document.isLocked id property = false :=
      Bool.eq_false_iff.2 fun hlock => hnot (hlocked.1 hlock)
    have hcheck := Document.checkWritable_of_not_isLocked he hdefinition hfree hopen
    have haction : (Command.setValue id property value).action false files =
      Action.done (Action.setValue false id property value) := rfl
    exact hm.result_of_yields hquiet haction (Action.yields_setValue_ok he hcheck hvalid)

/-- A lock on the color of the second label, which is the base of the first one. -/
def lockedNear : Module :=
  paired.run [.perform .empty (.setMask ⟨2, 0⟩ "color" (some .lock))]

theorem built_lockedNear : lockedNear.Built :=
  built_paired.run (by simp [Input.library?, Command.library?])

/-- The color of the first label cannot be set, and that of the third one, without a base, can. -/
theorem locked_within_lockedNear :
    (lockedNear.perform .empty (.setValue ⟨1, 0⟩ "color" (.string "red"))).result =
      .error (.lockedProperty ⟨1, 0⟩ "color") ∧
    (lockedNear.perform .empty (.setValue ⟨3, 0⟩ "color" (.string "red"))).result = .ok .done := by
  obtain ⟨hfirst, -, -⟩ := built_lockedNear.locked_within rfl ⟨1, 0⟩ "color" rfl rfl rfl
  obtain ⟨-, -, hthird⟩ := built_lockedNear.locked_within rfl ⟨3, 0⟩ "color" rfl rfl rfl
  refine ⟨(hfirst ?_).1 .empty _, hthird rfl ?_ .empty _ (.color "red") rfl⟩
  · exact ⟨1, ⟨lockedNear.document, ⟨2, 0⟩⟩, Nat.le_refl 1, rfl, _, rfl, rfl⟩
  · intro hwithin
    have hfresh := OwnedElement.not_revisits (r := ⟨lockedNear.document, ⟨3, 0⟩⟩)
      (built_lockedNear.orderly _ lockedNear.document_mem_documents).1
    have hopen : lockedNear.document.isLocked ⟨3, 0⟩ "color" = false := by decide +kernel
    exact absurd (((Document.isLocked_iff hfresh).2 hwithin).symm.trans hopen) (by simp)

/-- A lock on the color of the third label, which is the base of the second one and so two bases
away from the first one, though the limit is one. -/
def lockedAfar : Module :=
  stacked.run [.perform .empty (.setMask ⟨3, 0⟩ "color" (some .lock))]

/-- The color of the first label is changed all the same. -/
theorem lockedAfar_bypassed :
    lockedAfar.isNotifying = false ∧
    (⟨lockedAfar.document, ⟨1, 0⟩⟩ : OwnedElement).nthBase? 2 =
      some ⟨lockedAfar.document, ⟨3, 0⟩⟩ ∧
    (⟨lockedAfar.document, ⟨3, 0⟩⟩ : OwnedElement).Locks "color" ∧
    (lockedAfar.document.get? ⟨1, 0⟩).map (·.typeName) = some "Label" ∧
    (lockedAfar.document.tree.dictionary.property? "Label" "color").map (·.lockable) = some true ∧
    (lockedAfar.perform .empty (.setValue ⟨1, 0⟩ "color" (.string "red"))).result = .ok .done ∧
    (lockedAfar.document.get? ⟨1, 0⟩).bind (·.value? "color") = none ∧
    ((lockedAfar.perform .empty (.setValue ⟨1, 0⟩ "color"
      (.string "red"))).module.document.get? ⟨1, 0⟩).bind (·.value? "color") =
        some (.color "red") :=
  ⟨rfl, rfl, ⟨_, rfl, rfl⟩, rfl, rfl, rfl, rfl, rfl⟩

end Module

end ReportModel
