import ReportModel.Proofs.Css.Cascade
import ReportModel.Proofs.Module.Recovery

/-!
# What a failure leaves in the arena

Creating an element is no change of the tree and is not taken back. So a command that creates
elements on its way and fails later leaves them behind, though nobody learns their ids. An import of
styles does so whenever it gets as far as its first style and fails, and no other command does.
-/

namespace ReportModel

open Edit Editor

namespace Document

variable {d : Document}

theorem contains_createAll_iff {cs : List Creation} :
    (∀ x, (d.createAll cs).tree.contains x = d.tree.contains x) ↔ cs = [] := by
  constructor
  · intro hsame
    cases cs with
    | nil => rfl
    | cons c cs =>
        have hnew : (d.create c).get? d.tree.nextId =
            some (Element.create d.tree.dictionary c.typeName c.name) :=
          (Tree.get?_create ..).trans (if_pos rfl)
        have hafter := Tree.contains_of_get? (get?_createAll_of_get? hnew cs)
        obtain ⟨e, he⟩ := Tree.contains_iff.1 ((hsame _).symm.trans hafter)
        cases he.symm.trans d.tree.get?_nextId
  · rintro rfl x
    rfl

end Document

def Command.Imports (command : Command) : Prop :=
  ∃ sheet names, command = .importStyles sheet names

open ReportModel.Action in
/-- A command that fails has created elements only if it imports styles, and at least one if styles
can be created. -/
theorem Command.creates_of_error (command : Command) (files : Files) {ed : Editor}
    (hwf : ed.document.tree.WellFormed) : (command.action false files).Yields ed (fun _ _ => True)
      fun ed' => ∃ cs, cs <+: command.creations ∧ ed' = ed.grown cs ∧
        (cs ≠ [] ↔ command.Imports ∧
          ed.document.tree.dictionary.isConcrete Vocabulary.styleType = true) := by
  have hother : command.creations = [] → ¬ command.Imports →
      (command.action false files).Yields ed (fun _ _ => True) fun ed' =>
        ∃ cs, cs <+: command.creations ∧
        ed' = ed.grown cs ∧ (cs ≠ [] ↔ command.Imports ∧
          ed.document.tree.dictionary.isConcrete Vocabulary.styleType = true) := by
    intro hnil hplain
    refine (command.steps_action files hwf).imp (fun _ _ _ => trivial) fun ed' hfail => ?_
    obtain ⟨cs, hcs, heq⟩ := hfail
    refine ⟨cs, hcs, heq, ?_⟩
    rw [hnil, List.prefix_nil] at hcs
    simp [hcs, hplain]
  cases command with
  | create typeName name =>
      refine yields_map.2 (yields_create.2 ⟨fun _ => ?_, fun _ => trivial⟩)
      exact ⟨[], List.nil_prefix, rfl, by simp [Command.Imports]⟩
  | importStyles sheet names =>
      refine yields_map.2 ((yields_importStyles hwf sheet names).imp (fun _ _ _ => trivial) ?_)
      intro ed' hfail
      obtain ⟨cs, ⟨hcs, hnone⟩, heq⟩ := hfail
      refine ⟨cs, hcs, heq, ?_⟩
      simp [hnone, Command.Imports]
  | _ => exact hother rfl (by simp [Command.Imports])

namespace Module

variable {m : Module} {files : Files} {command : Command} {error : DesignError}

theorem Sound.created_ne_nil_iff (hm : m.Sound)
    (herror : (m.perform files command).result = .error error) :
    m.created (.perform files command) ≠ [] ↔ m.isNotifying = false ∧ command.Imports ∧
      m.document.tree.dictionary.isConcrete Vocabulary.styleType = true := by
  cases hnotifying : m.isNotifying with
  | true =>
      have hnext : m.next (.perform files command) = m :=
        congrArg Outcome.module (perform_eq_self hnotifying hm.silent files command)
      have hcreated : m.created (.perform files command) = [] :=
        created_eq List.nil_prefix (congrArg (·.document.tree.size) hnext)
      simp [hcreated]
  | false =>
      have hyields := command.creates_of_error files hm.history.wellFormed
      have hperform := hm.perform_eq hnotifying files command
      cases hresult : command.action false files m.editor with
      | ok reply ed =>
          rw [hperform, hresult] at herror
          cases herror
      | error error' ed =>
          obtain ⟨cs, hcs, rfl, hiff⟩ := hyields.of_error hresult
          rw [hresult] at hperform
          have hnext : (m.next (.perform files command)).document = m.document.createAll cs :=
            congrArg (·.module.document) hperform
          have hcreated : m.created (.perform files command) = cs := by
            refine created_eq hcs ?_
            rw [hnext, Document.size_createAll]
          rw [hcreated, hiff]
          simp only [true_and]
          rfl

/-- A command that fails leaves the elements that it has created by then, and no other change. There
are some if and only if styles were imported, which could be created and were not refused at once;
otherwise the same elements are there as before. -/
theorem Reachable.elements_of_error (h : m.Reachable)
    (herror : (m.perform files command).result = .error error) :
    ∃ cs, cs <+: command.creations ∧
      (m.perform files command).module.document.ReturnsTo m.document cs ∧
      ((∀ x, (m.perform files command).module.document.tree.contains x =
        m.document.tree.contains x) ↔ cs = []) ∧
      (cs ≠ [] ↔ m.isNotifying = false ∧ command.Imports ∧
        m.document.tree.dictionary.isConcrete Vocabulary.styleType = true) := by
  have hm := h.sound
  have hdocument : (m.perform files command).module.document =
      m.document.createAll (m.created (.perform files command)) :=
    congrArg (·.module.document) (hm.perform_of_error herror)
  refine ⟨_, List.take_prefix _ _, ?_, ?_, hm.created_ne_nil_iff herror⟩
  · rw [hdocument]
    exact Document.returnsTo_createAll hm.history.wellFormed _
  · rw [hdocument]
    exact Document.contains_createAll_iff

/-- A new library, in which there is no place for styles. -/
def shelf : Module where
  editor :=
    { document :=
        { serial := 0, depthLimit := 32, tree := .new Vocabulary.reports "Library"
          libraries := [] }
      history := { limit := 100 } }

theorem reachable_shelf : shelf.Reachable :=
  .new (rfl : Module.new 0 "Library" {} = .ok shelf)

def redRules : List Css.Rule :=
  [⟨[.compound [.ofClass "A"]], [⟨"color", [.ident "red"], false⟩]⟩]

def redSheet : Css.StyleSheet :=
  .ofRules "red.css" Vocabulary.reports redRules

/-- A label that is added twice leaves nothing new, and a style that is imported into a library is
left in no place. -/
theorem elements_of_error_shelf :
    (∀ x, (labelled.perform .empty
      (.add ⟨1, 0⟩ ⟨⟨0, 0⟩, "body"⟩ none)).module.document.tree.contains x =
        labelled.document.tree.contains x) ∧
    (shelf.perform .empty (.importStyles redSheet ["A"])).module.document.ReturnsTo shelf.document
      [⟨"Style", some "A"⟩] := by
  have hadd : (labelled.perform .empty (.add ⟨1, 0⟩ ⟨⟨0, 0⟩, "body"⟩ none)).result =
      .error (.content .alreadyContained) := rfl
  have himport : (shelf.perform .empty (.importStyles redSheet ["A"])).result =
      .error (.content (.unknownSlot "styles" "Library")) := rfl
  refine ⟨?_, ?_⟩
  · obtain ⟨cs, -, -, hsame, hnew⟩ := reachable_labelled.elements_of_error hadd
    refine hsame.2 (by_contra fun hne => ?_)
    obtain ⟨-, ⟨sheet, names, heq⟩, -⟩ := hnew.1 hne
    cases heq
  · obtain ⟨cs, hcs, hreturns, -, hnew⟩ := reachable_shelf.elements_of_error himport
    have hne : cs ≠ [] := hnew.2 ⟨rfl, ⟨_, _, rfl⟩, rfl⟩
    have hcreations : (Command.importStyles redSheet ["A"]).creations = [⟨"Style", some "A"⟩] := rfl
    rw [hcreations] at hcs
    obtain ⟨rest, rfl, hrest⟩ := (List.prefix_cons_iff.1 hcs).resolve_left hne
    rwa [List.prefix_nil.1 hrest] at hreturns

/-- The import fails, and there is an element that was not there. -/
theorem shelf_grown :
    shelf.Reachable ∧ Css.StyleSheet.compile "red.css" Vocabulary.reports redRules = .ok redSheet ∧
    (shelf.perform .empty (.importStyles redSheet ["A"])).result =
      .error (.content (.unknownSlot "styles" "Library")) ∧
    shelf.document.tree.contains ⟨1, 0⟩ = false ∧
    (shelf.perform .empty (.importStyles redSheet ["A"])).module.document.tree.contains ⟨1, 0⟩ =
      true :=
  ⟨reachable_shelf, Css.StyleSheet.compile_of_rankable _ _ (by decide), rfl, rfl, rfl⟩

end Module

end ReportModel
