import ReportModel.Proofs.Document.Within
import ReportModel.Proofs.Editor.Conforms
import ReportModel.Proofs.Module.Bases

/-!
# What the elements of a module hold

Whatever is done with a module, undone and rolled back, its elements hold values of properties that
their types define, and each value is normal.
-/

namespace ReportModel

open Edit Editor

def Input.added? : Input → Option Css.StyleSheet
  | .perform _ command => command.added?
  | _ => none

def Input.imported? : Input → Option Css.StyleSheet
  | .perform _ command => command.imported?
  | _ => none

namespace Module

variable {m : Module} {standard : Standard}

theorem Sound.forall_documents_next {Q : Document → Prop} (hm : m.Sound)
    (h : ∀ d ∈ m.documents, Q d) (input : Input)
    (hcreate : ∀ d cs, Q d → Q (d.createAll cs)) (herase : ∀ d id, Q d → Q (d.eraseAll id))
    (hcommand : ∀ files command, input = .perform files command →
      (command.action false files).Leaves m.editor Q) : ∀ d ∈ (m.next input).documents, Q d := by
  intro d' hd'
  rcases hm.documents_next input hd' with
    ⟨d, hd, cs, rfl | ⟨id, -, rfl⟩⟩ | ⟨files, command, reply, ed, hinput, hresult, rfl⟩
  · exact hcreate d cs (h d hd)
  · exact herase d id (h d hd)
  · exact (hcommand files command hinput).of_ok hresult

theorem Sound.throughout_next {P : Document → Prop} (hm : m.Sound)
    (h : ∀ d ∈ m.documents, d.Throughout P) (input : Input)
    (hself : ∀ d ∈ (m.next input).documents, P d)
    (hlibrary : ∀ library, input.library? = some library → library.Throughout P) :
    ∀ d ∈ (m.next input).documents, d.Throughout P := by
  intro d' hd'
  obtain ⟨d, hd, hfollows⟩ := hm.exists_follows input hd'
  exact (h d hd).follows hfollows (hself d' hd') hlibrary

theorem throughout_new {P : Document → Prop} {serial : Nat} {rootType : String} {config : Config}
    (h : Module.new serial rootType config = .ok m) (hself : ∀ d ∈ m.documents, P d) :
    ∀ d ∈ m.documents, d.Throughout P := by
  intro d hd
  obtain ⟨-, hlibraries, -⟩ := documents_new h hd
  exact .of_libraries (hself d hd) (by simp [hlibraries])

/-- The elements of all documents that a module can visit conform. -/
def Conforms (standard : Standard) (m : Module) : Prop :=
  ∀ d ∈ m.documents, d.tree.Conforms standard

theorem conforms_new {serial : Nat} {rootType : String} {config : Config}
    (h : Module.new serial rootType config = .ok m)
    (hdictionary : config.dictionary = standard.dictionary) : m.Conforms standard := by
  intro d hd
  simp only [Module.new] at h
  split at h
  · obtain rfl := Except.ok.inj h
    obtain rfl := List.mem_singleton.1 hd
    rw [hdictionary]
    exact Tree.conforms_new rootType
  · cases h

theorem Conforms.next (h : m.Conforms standard) (hm : m.Sound) (input : Input)
    (hadded : ∀ sheet, input.added? = some sheet → standard.admitsSheet sheet)
    (himported : ∀ sheet, input.imported? = some sheet → standard.AdmitsStyles sheet) :
    (m.next input).Conforms standard := by
  refine hm.forall_documents_next h input (fun _ cs hd => hd.createAll cs)
    (fun _ id hd => hd.eraseAll id) ?_
  rintro files command rfl
  exact command.conforms_action files hm.history h hadded himported

/-- As long as styles are imported from stylesheets that have been compiled for the module, every
value of every element is normal for a property that the type of the element defines, and every mask
is one of such a property. -/
theorem values_normal {serial : Nat} {rootType : String} {config : Config}
    (h : Module.new serial rootType config = .ok m) {inputs : List Input}
    (himported : ∀ input ∈ inputs, ∀ sheet, input.imported? = some sheet →
      ∃ fileName rules, Css.StyleSheet.compile fileName config.dictionary rules = .ok sheet) :
    (m.run inputs).document.tree.dictionary = config.dictionary ∧
    ∀ id e, (m.run inputs).document.get? id = some e →
      (∀ property v, e.value? property = some v → ∃ definition,
        config.dictionary.property? e.typeName property = some definition ∧
          definition.validate v = .ok v) ∧
      ∀ property mask, e.mask? property = some mask →
        (config.dictionary.property? e.typeName property).isSome = true := by
  have hrun : ∀ {m : Module}, m.Sound → m.Conforms (.normal config.dictionary) →
      (m.run inputs).Conforms (.normal config.dictionary) := by
    clear h
    induction inputs with
    | nil => exact fun _ h => h
    | cons input inputs ih =>
        intro m hm hconforms
        refine ih (fun other hother => himported other (List.mem_cons_of_mem _ hother))
          (hm.next input) (hconforms.next hm input (fun _ _ => trivial) ?_)
        intro sheet hsheet
        obtain ⟨fileName, rules, hcompile⟩ := himported input List.mem_cons_self sheet hsheet
        exact Css.StyleSheet.isNormal_compile hcompile
  have hconforms := hrun (sound_new h) (conforms_new h rfl) _ (document_mem_documents _)
  refine ⟨hconforms.dictionary_eq, fun id e he => ?_⟩
  have helement := hconforms.elements he
  exact ⟨fun _ _ => helement.values, fun _ _ => helement.masks⟩

/-- A rule for a class, with a colour as stylesheets may write it. -/
def wideRule : Css.Rule :=
  ⟨[.compound [.ofClass "wide"]], [⟨"color", [.ident "Red"], false⟩]⟩

/-- A label gets a colour and a mask, and the style of a class is imported. -/
def dressing : List Input :=
  [.perform .empty (.create "Label" (some "total")),
    .perform .empty (.setValue ⟨1, 0⟩ "color" (.string " Navy ")),
    .perform .empty (.setMask ⟨1, 0⟩ "color" (some .lock)),
    .perform .empty
      (.importStyles (.ofRules "wide.css" Vocabulary.reports [wideRule]) ["wide"])]

theorem imported_dressing : ∀ input ∈ dressing, ∀ sheet, input.imported? = some sheet →
    ∃ fileName rules, Css.StyleSheet.compile fileName Vocabulary.reports rules = .ok sheet := by
  intro input hinput sheet hsheet
  simp only [dressing, List.mem_cons, List.not_mem_nil, or_false] at hinput
  rcases hinput with rfl | rfl | rfl | rfl
  · cases hsheet
  · cases hsheet
  · cases hsheet
  · cases hsheet
    exact ⟨_, _, Css.StyleSheet.compile_of_rankable _ _ (by decide)⟩

/-- The colour of the label and that of the style are normal, and the mask is one of a property of
labels. -/
theorem values_normal_dressed :
    (∃ e, (blank.run dressing).document.get? ⟨1, 0⟩ = some e ∧
      e.value? "color" = some (.color "navy") ∧ e.mask? "color" = some .lock ∧
      Vocabulary.reports.IsNormal "Label" "color" (.color "navy") ∧
      (Vocabulary.reports.property? "Label" "color").isSome = true) ∧
    ∃ e, (blank.run dressing).document.get? ⟨2, 0⟩ = some e ∧
      e.value? "color" = some (.color "red") ∧
      Vocabulary.reports.IsNormal Vocabulary.styleType "color" (.color "red") := by
  obtain ⟨-, hconforms⟩ :=
    values_normal (rfl : Module.new 0 "ReportDesign" {} = .ok blank) imported_dressing
  obtain ⟨hvalues, hmasks⟩ := hconforms ⟨1, 0⟩ _ rfl
  obtain ⟨hstyle, -⟩ := hconforms ⟨2, 0⟩ _ rfl
  exact ⟨⟨_, rfl, rfl, rfl, hvalues "color" _ rfl, hmasks "color" .lock rfl⟩,
    _, rfl, rfl, hstyle "color" _ rfl⟩

end Module

end ReportModel
