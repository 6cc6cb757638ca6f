import ReportModel.Proofs.Document.Provenance
import ReportModel.Proofs.Module.Conforms

/-!
# Where the effective values of a module come from

In a built module, whatever libraries it includes, the cascade gives each element the value of the
first stage that supplies one, tells where it has found it, and finds none only if no stage supplies
one.
-/

namespace ReportModel.Module

variable {m : Module}

theorem Reachable.exists_conforms (h : m.Reachable) :
    ∃ dictionary, m.Conforms (.lenient dictionary) := by
  induction h with
  | new h => exact ⟨_, conforms_new h rfl⟩
  | next h input ih =>
      obtain ⟨dictionary, hconforms⟩ := ih
      exact ⟨dictionary, hconforms.next h.sound input (fun _ _ => trivial)
        fun _ _ _ _ _ _ => trivial⟩

theorem Reachable.proper (h : m.Reachable) : ∀ d ∈ m.documents, d.Proper := by
  obtain ⟨_, hconforms⟩ := h.exists_conforms
  intro d hd
  exact ⟨h.sound.history.wellFormed_of_mem hd, fun host => ((hconforms d hd).sheets host).2⟩

theorem Built.proper (h : m.Built) : ∀ d ∈ m.documents, d.Throughout Document.Proper := by
  induction h with
  | new h => exact throughout_new h (Reachable.new h).proper
  | next h input hnone ih =>
      exact h.reachable.sound.throughout_next ih input (h.reachable.next input).proper
        (by simp [hnone])
  | @link _ lent h hlent _ input hlibrary ih ihlent =>
      refine h.reachable.sound.throughout_next ih input (h.reachable.next input).proper ?_
      intro library hnew
      obtain rfl := Option.some.inj (hlibrary.symm.trans hnew)
      exact ihlent _ lent.document_mem_documents

/-- The effective value of a property is found in the place that its source names, and no stage of
the cascade before that one supplies any; where the source is a base, the same holds of the base in
its own document. There is none only if no stage supplies one. -/
theorem Built.effectiveValue_foremost (h : m.Built) (id : ElementId) (property : String) :
    (∀ v source, m.document.effectiveValue? id property = some (v, source) →
      Holds property source ⟨m.document, id⟩ v ∧
        Foremost property ⟨m.document, id⟩ 0 source v) ∧
    (m.document.effectiveValue? id property = none → ∀ stage source v,
      ¬ Supplies property ⟨m.document, id⟩ 0 stage source v) := by
  have hproper := h.proper _ m.document_mem_documents
  refine ⟨fun v source heffective => ?_, fun hnone stage _ _ => ?_⟩
  · have hforemost : Foremost property ⟨m.document, id⟩ 0 source v :=
      foremost_of_effectiveValue? heffective
    exact ⟨hforemost.holds hproper, hforemost⟩
  · exact not_supplies_of_effectiveValue? hnone stage

/-- A library with a theme of its own, in which there is a style for labels, and with a label. -/
def palette : Module :=
  Module.run
    { editor :=
      { document :=
          { serial := 0, depthLimit := 32, tree := .new Vocabulary.reports "Library"
            libraries := [] }
        history := { limit := 100 } } }
    [.perform .empty (.create "Theme" (some "Plain")),
      .perform .empty (.add ⟨1, 0⟩ ⟨⟨0, 0⟩, "themes"⟩ none),
      .perform .empty (.create "Style" (some "LABEL")),
      .perform .empty (.add ⟨2, 0⟩ ⟨⟨1, 0⟩, "styles"⟩ none),
      .perform .empty (.setValue ⟨2, 0⟩ "color" (.string " Navy ")),
      .perform .empty (.setValue ⟨0, 0⟩ "theme" (.string "Plain")),
      .perform .empty (.create "Label" (some "total")),
      .perform .empty (.add ⟨3, 0⟩ ⟨⟨0, 0⟩, "components"⟩ none)]

/-- A design that includes the library, with a label that has the one there as its base. -/
def invoice : Module :=
  Module.run
    { editor :=
      { document :=
          { serial := 1, depthLimit := 32, tree := .new Vocabulary.reports "ReportDesign"
            libraries := [] }
        history := { limit := 100 } } }
    [.perform .empty (.includeLibrary "palette" palette.document),
      .perform .empty (.create "Label" none),
      .perform .empty (.setBase ⟨1, 0⟩ ⟨some "palette", "total"⟩)]

theorem built_palette : palette.Built := by
  have hnew : Built _ := .new (rfl : Module.new 0 "Library" {} = .ok _)
  exact hnew.run (by simp [Input.library?, Command.library?])

theorem built_invoice : invoice.Built := by
  have hnew : Built _ := .new (rfl : Module.new 1 "ReportDesign" {} = .ok _)
  have hlacks : palette.document.Lacks 1 :=
    .of_libraries (by decide) fun _ hlibrary => nomatch hlibrary
  have hlinked := hnew.link built_palette hlacks
    (.perform .empty (.includeLibrary "palette" palette.document)) rfl
  exact @Built.run _ hlinked [_, _] (by simp [Input.library?, Command.library?])

/-- The label has the colour of the label in the library, which has it from the style there. -/
theorem effectiveValue?_invoice : invoice.document.effectiveValue? ⟨1, 0⟩ "color" =
    some (.color "navy", .base (some "palette") (.themeStyle "Plain" "LABEL")) := by
  have hvia : palette.document.cascade ⟨3, 0⟩ "color" 1 =
      some (.color "navy", .themeStyle "Plain" "LABEL") := by
    rw [Document.cascade_eq]
    rfl
  have hbase : invoice.document.base? ⟨1, 0⟩ = some ⟨palette.document, ⟨3, 0⟩⟩ := rfl
  have hcascade : invoice.document.cascade ⟨1, 0⟩ "color" 0 =
      some (.color "navy", .base (some "palette") (.themeStyle "Plain" "LABEL")) := by
    rw [Document.cascade_eq, hbase]
    change (palette.document.cascade ⟨3, 0⟩ "color" 1).map _ = _
    rw [hvia]
    rfl
  rw [Document.effectiveValue?, hcascade]
  rfl

theorem effectiveValue_foremost_invoice :
    Holds "color" (.base (some "palette") (.themeStyle "Plain" "LABEL"))
        ⟨invoice.document, ⟨1, 0⟩⟩ (.color "navy") ∧
      Foremost "color" ⟨invoice.document, ⟨1, 0⟩⟩ 0
        (.base (some "palette") (.themeStyle "Plain" "LABEL")) (.color "navy") :=
  (built_invoice.effectiveValue_foremost ⟨1, 0⟩ "color").1 _ _ effectiveValue?_invoice

end ReportModel.Module
