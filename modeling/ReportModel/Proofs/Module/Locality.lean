import ReportModel.Proofs.Document.Retouching
import ReportModel.Proofs.Module.Depth

/-!
# How far a value or a mask reaches

Setting or clearing a value and setting a mask have no effect on the access rule of an element,
unless the changed element is in the chain of that element or of one around it. A value has no
effect on the values in force for an element either, unless the property is the one asked for and
the changed element is in the chain of the element asked about; shared styles, the choice of a style
and the choice of a theme are excepted.
-/

namespace ReportModel

open Edit Editor

namespace Document

variable {d : Document} {y c : ElementId}

/-- An element without a rule of its own has the rule of its container, unless that one has a rule
and keeps it to itself. -/
theorem accessRule?_of_parent (hf : d.tree.Forest)
    (hflag : d.flag y Vocabulary.enableAccessProperty = false) (hp : d.tree.parent y = some c) :
    d.accessRule? y =
      if d.flag c Vocabulary.enableAccessProperty = true ∧
        d.flag c Vocabulary.cascadeAccessProperty = false then none
      else d.accessRule? c := by
  rw [accessRule?, hflag, hf.ancestors_step hp, List.find?_cons, accessRule?]
  cases d.flag c Vocabulary.enableAccessProperty with
  | false => rfl
  | true => cases hcascade : d.flag c Vocabulary.cascadeAccessProperty <;> simp [hcascade]

end Document

inductive Command.Revalues (x : ElementId) (p : String) : Command → Prop
  | set (value : Value) : Revalues x p (.setValue x p value)
  | clear : Revalues x p (.clearValue x p)

/-- A command sets or clears a value of a property of an element, or sets a mask. -/
inductive Command.Retouches (x : ElementId) (p : String) : Command → Prop
  | value {command : Command} (h : command.Revalues x p) : Retouches x p command
  | mask (mask : Option Mask) : Retouches x p (.setMask x p mask)

theorem Command.Retouches.leaves {command : Command} {x : ElementId} {p : String}
    (h : command.Retouches x p) (files : Files) (ed : Editor) :
    (command.action false files).Leaves ed (ed.document.Retouched x p) := by
  have hself := Document.Retouched.refl ed.document x p
  obtain ⟨value | -⟩ | mask := h
  · exact Action.leaves_done (Action.leaves_setValue_of hself fun _ _ _ _ _ _ =>
      ed.document.retouched_value x p _ _)
  · exact Action.leaves_done (Action.leaves_clearValue_of hself fun _ _ _ _ =>
      ed.document.retouched_value x p _ _)
  · exact Action.leaves_done (Action.leaves_setMask_of hself fun _ _ _ =>
      ed.document.retouched_mask x p _ _)

namespace Module

variable {m : Module} {files : Files} {command : Command} {x : ElementId} {p : String}
  {reply : Reply}

theorem Sound.retouched (hm : m.Sound) (hcommand : command.Retouches x p)
    (hok : (m.perform files command).result = .ok reply) :
    m.document.Retouched x p (m.perform files command).module.document :=
  hm.leaves_of_ok hok (hcommand.leaves files m.editor)

/-- The rule in force for an element comes from that element, the elements around it and the bases
of these: another value or mask elsewhere leaves it as it is. An element that does not switch access
control on itself has the rule of its container, unless that one keeps its rule to itself. -/
theorem Reachable.accessRule_local (h : m.Reachable) :
    (∀ files command x p reply, command.Retouches x p →
      (m.perform files command).result = .ok reply → ∀ y,
      (∀ z ∈ y :: m.document.tree.ancestors y,
        (⟨m.document, x⟩ : OwnedElement) ∉ m.document.chain z) →
      (m.perform files command).module.document.accessRule? y = m.document.accessRule? y) ∧
    ∀ y c, m.document.flag y Vocabulary.enableAccessProperty = false →
      m.document.tree.parent y = some c →
      m.document.accessRule? y =
        if m.document.flag c Vocabulary.enableAccessProperty = true ∧
          m.document.flag c Vocabulary.cascadeAccessProperty = false then none
        else m.document.accessRule? c := by
  have hf := h.sound.history.wellFormed.forest
  refine ⟨fun files command x p reply hcommand hok y hout => ?_, fun y c hflag hp => ?_⟩
  · exact (h.sound.retouched hcommand hok).accessRule?_eq hf hout
  · exact Document.accessRule?_of_parent hf hflag hp

/-- The design of the three labels, the root of which has a rule for all within it. -/
def guarded : Module :=
  paired.run [.perform .empty (.setValue ⟨0, 0⟩ "enableACL" (.boolean true)),
    .perform .empty (.setValue ⟨0, 0⟩ "aclExpression" (.string "isStaff"))]

theorem reachable_guarded : guarded.Reachable :=
  built_paired.reachable.run _

/-- The first label has the rule of the root, and still has it after the third label, which has
nothing to do with it, has got a rule of its own. -/
theorem accessRule_local_guarded :
    guarded.document.accessRule? ⟨1, 0⟩ = some ⟨"isStaff", ⟨0, 0⟩⟩ ∧
    (guarded.perform .empty
      (.setValue ⟨3, 0⟩ "enableACL" (.boolean true))).module.document.accessRule? ⟨1, 0⟩ =
        some ⟨"isStaff", ⟨0, 0⟩⟩ := by
  obtain ⟨hlocal, hparent⟩ := reachable_guarded.accessRule_local
  have hroot : guarded.document.accessRule? ⟨1, 0⟩ = some ⟨"isStaff", ⟨0, 0⟩⟩ := by
    rw [hparent ⟨1, 0⟩ ⟨0, 0⟩ (by decide +kernel) rfl]
    decide +kernel
  refine ⟨hroot, (hlocal .empty _ ⟨3, 0⟩ _ .done (.value (.set _)) rfl ⟨1, 0⟩ ?_).trans hroot⟩
  have hids : ∀ z ∈ (⟨1, 0⟩ : ElementId) :: guarded.document.tree.ancestors ⟨1, 0⟩,
      (⟨3, 0⟩ : ElementId) ∉ (guarded.document.chain z).map (·.id) := by decide +kernel
  exact fun z hz hmem => hids z hz (List.mem_map_of_mem hmem)

/-- Another value of a property of an element that is no shared style, and of a property that names
neither a style nor a theme, shows in the effective values of that property only, and only of
elements that have that element in their chains. -/
theorem Reachable.effectiveValue_local (h : m.Reachable) (hcommand : command.Revalues x p)
    (hstyle : p ≠ Vocabulary.styleProperty) (htheme : p ≠ Vocabulary.themeProperty)
    (hslot : ∀ e place, m.document.get? x = some e → e.place = some place →
      place.slot ≠ Vocabulary.stylesSlot)
    (hok : (m.perform files command).result = .ok reply) {y : ElementId} {q : String}
    (hchanged : (m.perform files command).module.document.effectiveValue? y q ≠
      m.document.effectiveValue? y q) :
    q = p ∧ (⟨m.document, x⟩ : OwnedElement) ∈ m.document.chain y := by
  have hf := h.sound.history.wellFormed.forest
  have hout : ∀ host, x ∉ m.document.tree.contents host Vocabulary.stylesSlot := by
    intro host hx
    obtain ⟨e, he, hplace⟩ := hf.mem_contents_iff_place.1 hx
    exact hslot e _ he hplace rfl
  by_contra hfar
  rw [not_and] at hfar
  exact hchanged ((h.sound.retouched (.value hcommand) hok).effectiveValue?_eq hf hstyle.symm
    htheme.symm hout hfar)

/-- The design of the three labels, with a color for the second one. -/
def painted : Module :=
  (paired.perform .empty (.setValue ⟨2, 0⟩ "color" (.string "red"))).module

theorem effectiveValue?_paired :
    paired.document.effectiveValue? ⟨1, 0⟩ "color" = some (.color "black", .default) := by
  have hvia : paired.document.cascade ⟨2, 0⟩ "color" 1 = none := by
    rw [Document.cascade_eq]
    rfl
  have hbase : paired.document.base? ⟨1, 0⟩ = some ⟨paired.document, ⟨2, 0⟩⟩ := rfl
  have hcascade : paired.document.cascade ⟨1, 0⟩ "color" 0 = none := by
    rw [Document.cascade_eq, hbase]
    change (paired.document.cascade ⟨2, 0⟩ "color" 1).map _ = _
    rw [hvia]
    rfl
  rw [Document.effectiveValue?, hcascade]
  rfl

/-- The first label, which had the default, has the color of the second one, its base. -/
theorem effectiveValue?_painted :
    painted.document.effectiveValue? ⟨1, 0⟩ "color" = some (.color "red", .base none .own) := by
  have hvia : painted.document.cascade ⟨2, 0⟩ "color" 1 = some (.color "red", .own) := by
    rw [Document.cascade_eq]
    rfl
  have hbase : painted.document.base? ⟨1, 0⟩ = some ⟨painted.document, ⟨2, 0⟩⟩ := rfl
  have hcascade : painted.document.cascade ⟨1, 0⟩ "color" 0 =
      some (.color "red", .base none .own) := by
    rw [Document.cascade_eq, hbase]
    change (painted.document.cascade ⟨2, 0⟩ "color" 1).map _ = _
    rw [hvia]
    rfl
  rw [Document.effectiveValue?, hcascade]
  rfl

theorem effectiveValue_local_painted :
    painted.document.effectiveValue? ⟨1, 0⟩ "color" ≠
      paired.document.effectiveValue? ⟨1, 0⟩ "color" ∧
    (⟨paired.document, ⟨2, 0⟩⟩ : OwnedElement) ∈ paired.document.chain ⟨1, 0⟩ := by
  have hchanged : painted.document.effectiveValue? ⟨1, 0⟩ "color" ≠
      paired.document.effectiveValue? ⟨1, 0⟩ "color" := by
    rw [effectiveValue?_painted, effectiveValue?_paired]
    decide
  have hslot : ∀ e place, paired.document.get? ⟨2, 0⟩ = some e → e.place = some place →
      place.slot ≠ Vocabulary.stylesSlot := by
    intro e place he hplace
    have hbody : (paired.document.get? ⟨2, 0⟩).bind (·.place) = some ⟨⟨0, 0⟩, "body"⟩ := rfl
    rw [he, Option.bind_some, hplace] at hbody
    rw [Option.some.inj hbody]
    decide
  exact ⟨hchanged, (built_paired.reachable.effectiveValue_local (.set (.string "red")) (by decide)
    (by decide) hslot rfl hchanged).2⟩

end Module

end ReportModel
