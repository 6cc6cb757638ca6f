import ReportModel.Module.Basic
import ReportModel.Proofs.Module.Step

/-!
# Reachable modules

A module is reached from a new one by commands, each with the files as they are at the time, and by
what happens to its listeners. Its history is sound all the way, so the tree is well-formed, and
undoing, redoing and rolling back lead where they should.
-/

namespace ReportModel

open Edit Editor

/-- Something that happens to a module. -/
inductive Input where
  | perform (files : Files) (command : Command)
  | addListener
  | removeListener (id : ListenerId)
  | beginRound
  | endRound

def Input.creations : Input → List Creation
  | .perform _ command => command.creations
  | _ => []

namespace Module

/-- The module after an input, whatever a command answers. A round of notifications is beginning it,
what the listeners do in between, and ending it. -/
def next (m : Module) : Input → Module
  | .perform files command => (m.perform files command).module
  | .addListener => m.addListener
  | .removeListener id => m.removeListener id
  | .beginRound => { m with listeners := m.listeners.beginRound }
  | .endRound => { m with listeners := m.listeners.endRound }

def run (m : Module) (inputs : List Input) : Module :=
  inputs.foldl next m

/-- A module that some inputs lead to from a new one of any kind. Inputs come in any order, so
commands are given in the middle of rounds and transactions as well. -/
inductive Reachable : Module → Prop
  | new {serial : Nat} {rootType : String} {config : Config} {m : Module}
    (h : Module.new serial rootType config = .ok m) : Reachable m
  | next {m : Module} (h : Reachable m) (input : Input) : Reachable (m.next input)

variable {m : Module} {r : Revision} {rest outer : List Revision}

theorem Reachable.run (h : m.Reachable) (inputs : List Input) : (m.run inputs).Reachable := by
  induction inputs generalizing m with
  | nil => exact h
  | cons input inputs ih => exact ih (h.next input)

def blank : Module where
  editor :=
    { document :=
        { serial := 0, depthLimit := 32, tree := .new Vocabulary.reports "ReportDesign"
          libraries := [] }
      history := { limit := 100 } }

theorem reachable_blank : blank.Reachable :=
  .new (rfl : Module.new 0 "ReportDesign" {} = .ok blank)

/-- An element is created at an index of the arena, and put into a slot of another. -/
def placing (index : Nat) (typeName : String) (name : Option String) (container : Nat)
    (slot : String) : List Input :=
  [.perform .empty (.create typeName name),
    .perform .empty (.add ⟨index, 0⟩ ⟨⟨container, 0⟩, slot⟩ none)]

/-- A label is created, and put into the body of a new design. -/
def labelling : List Input :=
  [.perform .empty (.create "Label" (some "total")),
    .perform .empty (.add ⟨1, 0⟩ ⟨⟨0, 0⟩, "body"⟩ none)]

def labelled : Module :=
  blank.run labelling

theorem reachable_labelled : labelled.Reachable :=
  reachable_blank.run labelling

/-- The history is that of the document, and nothing is left to announce. -/
structure Sound (m : Module) : Prop where
  history : m.history.Sound m.document
  silent : m.editor.announced = none

theorem sound_new {serial : Nat} {rootType : String} {config : Config}
    (h : Module.new serial rootType config = .ok m) : m.Sound := by
  simp only [Module.new] at h
  split at h
  · obtain rfl := Except.ok.inj h
    have hwf := Tree.wellFormed_new config.dictionary rootType
    exact ⟨⟨hwf, ⟨_, rfl, trivial, trivial⟩, fun _ => Nat.zero_le _⟩, rfl⟩
  · cases h

theorem editor_eq_of_silent (h : m.editor.announced = none) :
    { m.editor with announced := none } = m.editor := by
  cases hed : m.editor with
  | mk document history announced =>
      rw [hed] at h
      rw [← h]

theorem Sound.editor_eq (hm : m.Sound) : { m.editor with announced := none } = m.editor :=
  editor_eq_of_silent hm.silent

theorem silent_perform (m : Module) (files : Files) (command : Command) :
    (m.perform files command).module.editor.announced = none := by
  rw [perform]
  split <;> rfl

theorem perform_of_notifying (h : m.isNotifying = true) (files : Files) (command : Command) :
    m.perform files command =
      ⟨.error .reentrantMutation, { m with editor := { m.editor with announced := none } },
        none⟩ := by
  rw [perform, h, command.action_of_notifying]
  rfl

/-- While a round goes on a command changes nothing. -/
theorem perform_eq_self (h : m.isNotifying = true) (hsilent : m.editor.announced = none)
    (files : Files) (command : Command) :
    m.perform files command = ⟨.error .reentrantMutation, m, none⟩ := by
  rw [perform_of_notifying h, editor_eq_of_silent hsilent]

theorem Sound.perform_eq (hm : m.Sound) (h : m.isNotifying = false) (files : Files)
    (command : Command) : m.perform files command = match command.action false files m.editor with
      | .ok reply ed =>
        ⟨.ok reply, { m with editor := { ed with announced := none } }, ed.announced⟩
      | .error error ed =>
        ⟨.error error, { m with editor := { ed with announced := none } }, none⟩ := by
  rewrite [perform, h, hm.editor_eq]
  rfl

theorem Sound.perform_cases (hm : m.Sound) (files : Files) (command : Command) :
    (m.isNotifying = false ∧ ∃ reply ed, Step m.editor command.creations ed ∧
      m.perform files command =
        ⟨.ok reply, { m with editor := { ed with announced := none } }, ed.announced⟩) ∨
    (∃ error cs, cs <+: command.creations ∧
      m.perform files command = ⟨.error error, { m with editor := m.editor.grown cs }, none⟩) := by
  cases hnotifying : m.isNotifying with
  | true =>
      right
      exact ⟨_, [], List.nil_prefix, perform_eq_self hnotifying hm.silent files command⟩
  | false =>
      have hsteps := command.steps_action files hm.history.wellFormed
      have hperform := hm.perform_eq hnotifying files command
      cases hresult : command.action false files m.editor with
      | ok reply ed =>
          left
          rw [hresult] at hperform
          exact ⟨rfl, reply, ed, hsteps.of_ok hresult, hperform⟩
      | error error ed =>
          right
          rw [hresult] at hperform
          obtain ⟨cs, hcs, rfl⟩ := hsteps.of_error hresult
          refine ⟨error, cs, hcs, ?_⟩
          rw [hperform]
          have hgrown : { m.editor.grown cs with announced := none } = m.editor.grown cs :=
            congrArg (grown · cs) hm.editor_eq
          simp only [hgrown]

theorem Sound.perform_of_ok (hm : m.Sound) (h : m.isNotifying = false) {files : Files}
    {command : Command} {reply : Reply} {ed : Editor}
    (hok : command.action false files m.editor = .ok reply ed) : m.perform files command =
      ⟨.ok reply, { m with editor := { ed with announced := none } }, ed.announced⟩ := by
  rw [hm.perform_eq h, hok]

theorem Sound.perform_start (hm : m.Sound) (h : m.isNotifying = false) (files : Files)
    (label : String) : m.perform files (.start label) =
      ⟨.ok .done, { m with editor := ⟨m.document, m.history.start label, none⟩ }, none⟩ := by
  rw [hm.perform_of_ok h (rfl : (Command.start label).action false files m.editor = .ok .done _)]
  simp only [hm.silent]
  rfl

theorem Sound.perform_rollback (hm : m.Sound) (h : m.isNotifying = false) (files : Files)
    (hcur : m.history.current = r :: outer) : m.perform files .rollback =
      ⟨.ok .done, { m with
        editor := ⟨revertAll r.edits m.document, { m.history with current := outer }, none⟩ },
        none⟩ := by
  have hok : Command.rollback.action false files m.editor = .ok .done { m.editor with
      history := { m.history with current := outer }
      document := revertAll r.edits m.document } := by
    obtain ⟨⟨document, ⟨limit, current, undo, redo⟩, announced⟩, listeners⟩ := m
    obtain rfl : current = r :: outer := hcur
    rfl
  rw [hm.perform_of_ok h hok]
  simp only [hm.silent]

theorem Sound.perform_commit (hm : m.Sound) (h : m.isNotifying = false) (files : Files)
    (hcur : m.history.current = [r]) : m.perform files .commit =
      ⟨.ok .done, { m with
        editor := ⟨m.document, { m.history with current := [] }.absorb r, none⟩ },
        some (r.event .commit)⟩ := by
  have hok : Command.commit.action false files m.editor = .ok .done { m.editor with
      history := { m.history with current := [] }.absorb r
      announced := some (r.event .commit) } := by
    obtain ⟨⟨document, ⟨limit, current, undo, redo⟩, announced⟩, listeners⟩ := m
    obtain rfl : current = [r] := hcur
    rfl
  rw [hm.perform_of_ok h hok]
  rfl

theorem Sound.perform_undo (hm : m.Sound) (h : m.isNotifying = false) (files : Files)
    (hcur : m.history.current = []) (hundo : m.history.undo = r :: rest) :
    m.perform files .undo = ⟨.ok .done, { m with
      editor := ⟨revertAll r.edits m.document,
        { m.history with undo := rest, redo := r :: m.history.redo }, none⟩ },
      some (r.event .undo)⟩ := by
  have hok : Command.undo.action false files m.editor = .ok .done { m.editor with
      document := revertAll r.edits m.document
      history := { m.history with undo := rest, redo := r :: m.history.redo }
      announced := some (r.event .undo) } := by
    obtain ⟨⟨document, ⟨limit, current, undo, redo⟩, announced⟩, listeners⟩ := m
    obtain rfl : current = [] := hcur
    obtain rfl : undo = r :: rest := hundo
    rfl
  rw [hm.perform_of_ok h hok]

theorem Sound.perform_redo (hm : m.Sound) (h : m.isNotifying = false) (files : Files)
    (hcur : m.history.current = []) (hredo : m.history.redo = r :: rest) :
    m.perform files .redo = ⟨.ok .done, { m with
      editor := ⟨applyAll r.edits m.document,
        { m.history with redo := rest, undo := r :: m.history.undo }, none⟩ },
      some (r.event .redo)⟩ := by
  have hok : Command.redo.action false files m.editor = .ok .done { m.editor with
      document := applyAll r.edits m.document
      history := { m.history with redo := rest, undo := r :: m.history.undo }
      announced := some (r.event .redo) } := by
    rw [← hm.history.pushUndo_eq hredo]
    obtain ⟨⟨document, ⟨limit, current, undo, redo⟩, announced⟩, listeners⟩ := m
    obtain rfl : current = [] := hcur
    obtain rfl : redo = r :: rest := hredo
    rfl
  rw [hm.perform_of_ok h hok]

theorem Sound.next (hm : m.Sound) (input : Input) : (m.next input).Sound := by
  cases input with
  | perform files command =>
      rcases hm.perform_cases files command with ⟨-, reply, ed, hstep, heq⟩ | ⟨error, cs, -, heq⟩
      · rw [Module.next, heq]
        exact ⟨hstep.sound hm.history, rfl⟩
      · rw [Module.next, heq]
        exact ⟨hm.history.createAll cs, hm.silent⟩
  | addListener | removeListener | beginRound | endRound => exact ⟨hm.history, hm.silent⟩

theorem Sound.run (hm : m.Sound) (inputs : List Input) : (m.run inputs).Sound := by
  induction inputs generalizing m with
  | nil => exact hm
  | cons input inputs ih => exact ih (hm.next input)

theorem Reachable.sound (h : m.Reachable) : m.Sound := by
  induction h with
  | new h => exact sound_new h
  | next _ input ih => exact ih.next input

/-- A round of notifications reaches nothing new, if what the listeners do does not. -/
theorem Reachable.deliver (h : m.Reachable) {tell : ListenerId → Event → Module → Id Module}
    (htell : ∀ id event {m : Module}, m.Reachable → (tell id event m).run.Reachable)
    (event : Event) : (m.deliver tell event).run.Reachable := by
  have hround : ∀ (audience : List ListenerId) {m : Module}, m.Reachable →
      (audience.foldlM (fun m id => tell id event m) m).run.Reachable := by
    intro audience
    induction audience with
    | nil => exact fun hm => hm
    | cons id audience ih =>
        intro m hm
        exact ih (htell id event hm)
  exact (hround _ (h.next .beginRound)).next .endRound

end Module

end ReportModel
