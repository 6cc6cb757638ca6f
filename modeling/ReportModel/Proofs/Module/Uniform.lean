import ReportModel.Proofs.Document.Kinds
import ReportModel.Proofs.Module.Provenance

/-!
# The kinds of the effective values of a module

Where all modules have the dictionary of report designs, and all stylesheets are compiled with it,
every effective value of an element is one that the element could hold itself.
-/

namespace ReportModel

/-- A stylesheet has been compiled with the dictionary of report designs. -/
def Css.StyleSheet.IsReportSheet (sheet : StyleSheet) : Prop :=
  ∃ fileName rules, compile fileName Vocabulary.reports rules = .ok sheet

/-- What comes with a library does not come with a stylesheet. -/
theorem Input.sheet_none {input : Input} {library : Document}
    (h : input.library? = some library) : input.added? = none ∧ input.imported? = none := by
  cases input with
  | perform files command => cases command <;> first | exact ⟨rfl, rfl⟩ | cases h
  | _ => cases h

namespace Module

variable {m : Module}

/-- A module that has been reached, as have the libraries it has been given, with the dictionary of
report designs and with stylesheets compiled with it. -/
inductive Uniform : Module → Prop
  | new {serial : Nat} {rootType : String} {config : Config} {m : Module}
    (hdictionary : config.dictionary = Vocabulary.reports)
    (h : Module.new serial rootType config = .ok m) : Uniform m
  | next {m : Module} (h : Uniform m) (input : Input) (hnone : input.library? = none)
    (hsheets : ∀ sheet, input.added? = some sheet ∨ input.imported? = some sheet →
      sheet.IsReportSheet) :
    Uniform (m.next input)
  | link {m lent : Module} (h : Uniform m) (hlent : Uniform lent) (input : Input)
    (hlibrary : input.library? = some lent.document) : Uniform (m.next input)

theorem Uniform.reachable (h : m.Uniform) : m.Reachable := by
  induction h with
  | new _ h => exact .new h
  | next _ input _ _ ih => exact ih.next input
  | link _ _ input _ ih => exact ih.next input

theorem Uniform.run (h : m.Uniform) (inputs : List Input)
    (hplain : ∀ input ∈ inputs, input.library? = none ∧
      ∀ sheet, input.added? = some sheet ∨ input.imported? = some sheet → sheet.IsReportSheet) :
    (m.run inputs).Uniform := by
  induction inputs generalizing m with
  | nil => exact h
  | cons input inputs ih =>
      obtain ⟨hnone, hsheets⟩ := hplain input List.mem_cons_self
      exact ih (h.next input hnone hsheets) fun other hother =>
        hplain other (List.mem_cons_of_mem _ hother)

theorem Uniform.conforms (h : m.Uniform) : m.Conforms (.strict Vocabulary.reports) := by
  induction h with
  | new hdictionary h => exact conforms_new h hdictionary
  | next h input _ hsheets ih =>
      have hnormal : ∀ sheet, input.added? = some sheet ∨ input.imported? = some sheet →
          sheet.IsNormal Vocabulary.reports := by
        intro sheet hsheet
        obtain ⟨fileName, rules, hcompile⟩ := hsheets sheet hsheet
        exact Css.StyleSheet.isNormal_compile hcompile
      exact ih.next h.reachable.sound input (fun sheet h => hnormal sheet (Or.inl h))
        fun sheet h => hnormal sheet (Or.inr h)
  | link h _ input hlibrary ih =>
      obtain ⟨hadded, himported⟩ := Input.sheet_none hlibrary
      exact ih.next h.reachable.sound input (by simp [hadded]) (by simp [himported])

theorem Uniform.documents (h : m.Uniform) :
    ∀ d ∈ m.documents, d.Uniform Vocabulary.reports :=
  fun d hd => ⟨h.reachable.proper d hd, h.conforms d hd⟩

theorem Uniform.throughout (h : m.Uniform) :
    ∀ d ∈ m.documents, d.Throughout (Document.Uniform Vocabulary.reports) := by
  induction h with
  | new hdictionary h => exact throughout_new h (Uniform.new hdictionary h).documents
  | next h input hnone hsheets ih =>
      exact h.reachable.sound.throughout_next ih input (h.next input hnone hsheets).documents
        (by simp [hnone])
  | @link _ lent h hlent input hlibrary ih ihlent =>
      refine h.reachable.sound.throughout_next ih input (h.link hlent input hlibrary).documents ?_
      intro library hnew
      obtain rfl := Option.some.inj (hlibrary.symm.trans hnew)
      exact ihlent _ lent.document_mem_documents

/-- The effective values of an element are those of the style properties of its type, and whichever
place such a value comes from, the definition that the type has of the property leaves it as it
is. -/
theorem Uniform.effectiveStyle_normal (h : m.Uniform) {id : ElementId} {e : Element}
    (he : m.document.get? id = some e) : ∃ values, m.document.effectiveStyle id = .ok values ∧
      (∀ p ∈ m.document.tree.dictionary.styleProperties e.typeName,
        values.get? p.name = m.document.effectiveValue? id p.name) ∧
      ∀ property v source, (property, v, source) ∈ values.entries → ∃ definition,
        m.document.tree.dictionary.property? e.typeName property = some definition ∧
          definition.validate v = .ok v := by
  have hthroughout := h.throughout _ m.document_mem_documents
  have hstyle : m.document.effectiveStyle id = .ok (m.document.effectiveValues id
      (m.document.tree.dictionary.styleProperties e.typeName)) := by
    simp only [Document.effectiveStyle, he]
  refine ⟨_, hstyle, fun p hp => m.document.get?_effectiveValues id hp, ?_⟩
  intro property v source hentry
  rw [hthroughout.self.conforms.dictionary_eq]
  exact Document.isNormal_of_mem_effectiveStyle hthroughout he hstyle hentry

theorem uniform_palette : palette.Uniform := by
  have hnew : Uniform _ := .new rfl (rfl : Module.new 0 "Library" {} = .ok _)
  apply hnew.run
  simp [Input.library?, Command.library?, Input.added?, Command.added?, Input.imported?,
    Command.imported?]

theorem uniform_invoice : invoice.Uniform := by
  have hnew : Uniform _ := .new rfl (rfl : Module.new 1 "ReportDesign" {} = .ok _)
  have hlinked := hnew.link uniform_palette
    (.perform .empty (.includeLibrary "palette" palette.document)) rfl
  apply hlinked.run [_, _]
  simp [Input.library?, Command.library?, Input.added?, Command.added?, Input.imported?,
    Command.imported?]

/-- The label of the design has a colour that comes from a style in the library, and a label may
have that colour. -/
theorem effectiveStyle_normal_invoice : ∃ values,
    invoice.document.effectiveStyle ⟨1, 0⟩ = .ok values ∧
    values.get? "color" =
      some (.color "navy", .base (some "palette") (.themeStyle "Plain" "LABEL")) ∧
    ∀ property v source, (property, v, source) ∈ values.entries → ∃ definition,
      invoice.document.tree.dictionary.property? "Label" property = some definition ∧
        definition.validate v = .ok v := by
  obtain ⟨values, hstyle, hvalues, hnormal⟩ :=
    uniform_invoice.effectiveStyle_normal (rfl : invoice.document.get? ⟨1, 0⟩ = some _)
  have hcolor := hvalues
    { name := "color", kind := .color, default := some (.color "black"), style := true }
    (by decide +kernel)
  exact ⟨values, hstyle, hcolor.trans effectiveValue?_invoice, hnormal⟩

end Module

end ReportModel
