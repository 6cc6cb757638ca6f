import ReportModel.Proofs.Editor.Bases
import ReportModel.Proofs.Module.Reachable

/-!
# Chains of bases in a module

A module is built if all libraries it has been given come from modules that are built themselves,
and none of them is the module or has it within. In a built module no chain of bases comes to an
element twice, whatever has been done, undone and rolled back.
-/

namespace ReportModel

open Edit Editor

def Input.library? : Input → Option Document
  | .perform _ command => command.library?
  | _ => none

namespace Module

variable {m : Module} {d' : Document}

/-- The document of a module, and all that rollback, undo and redo lead to. -/
def documents (m : Module) : List Document :=
  m.editor.documents

private theorem follows_of_remade (hm : m.Sound) {cs : List Creation} {d : Document}
    (hd : d ∈ m.documents) (h : Remade cs d' d) (new : Option Document) : d'.Follows d new := by
  rcases h with rfl | ⟨id, -, rfl⟩
  · exact Document.follows_createAll (hm.history.wellFormed_of_mem hd) cs new
  · exact Document.follows_eraseAll d id new

/-- What can be visited after an input has been made from something that could be visited before by
creating and discarding alone, or it is what the command of the input leaves. -/
theorem Sound.documents_next (hm : m.Sound) (input : Input)
    (hd' : d' ∈ (m.next input).documents) :
    (∃ d ∈ m.documents, ∃ cs, Remade cs d' d) ∨
      ∃ files command reply ed, input = .perform files command ∧
        command.action false files m.editor = .ok reply ed ∧ d' = ed.document := by
  have hsame : d' ∈ m.documents → ∃ d ∈ m.documents, ∃ cs, Remade cs d' d :=
    fun h => ⟨d', h, [], Or.inl rfl⟩
  cases input with
  | addListener | removeListener | beginRound | endRound => exact Or.inl (hsame hd')
  | perform files command =>
      cases hnotifying : m.isNotifying with
      | true =>
          rw [Module.next, perform_eq_self hnotifying hm.silent] at hd'
          exact Or.inl (hsame hd')
      | false =>
          have hsteps := command.steps_action files hm.history.wellFormed
          rw [Module.next, hm.perform_eq hnotifying] at hd'
          cases hresult : command.action false files m.editor with
          | ok reply ed =>
              rw [hresult] at hd'
              -- the present document comes from the command, all others were there
              rcases (hsteps.of_ok hresult).documents hm.history hd' with rfl | ⟨d, hd, hremade⟩
              · exact Or.inr ⟨files, command, reply, ed, rfl, hresult, rfl⟩
              · exact Or.inl ⟨d, hd, _, hremade⟩
          | error error ed =>
              rw [hresult] at hd'
              obtain ⟨cs, -, rfl⟩ := hsteps.of_error hresult
              have hgrown : d' ∈ m.history.documents (m.document.createAll cs) := hd'
              rw [hm.history.documents_createAll, List.mem_map] at hgrown
              obtain ⟨d, hd, rfl⟩ := hgrown
              exact Or.inl ⟨d, hd, cs, Or.inl rfl⟩

/-- What can be visited after an input comes after something that could be visited before. -/
theorem Sound.exists_follows (hm : m.Sound) (input : Input)
    (hd' : d' ∈ (m.next input).documents) :
    ∃ d ∈ m.documents, d'.Follows d input.library? := by
  rcases hm.documents_next input hd' with
    ⟨d, hd, cs, hremade⟩ | ⟨files, command, reply, ed, rfl, hresult, rfl⟩
  · exact ⟨d, hd, follows_of_remade hm hd hremade _⟩
  · have hstep := (command.steps_action files hm.history.wellFormed).of_ok hresult
    exact (command.goesOn_action files hm.history).of_ok hresult
      (hstep.sound hm.history).wellFormed

/-- A module that has been reached with libraries from modules reached in the same way. A library is
neither the module that includes it nor has it within. -/
inductive Built : Module → Prop
  | new {serial : Nat} {rootType : String} {config : Config} {m : Module}
    (h : Module.new serial rootType config = .ok m) : Built m
  | next {m : Module} (h : Built m) (input : Input) (hnone : input.library? = none) :
    Built (m.next input)
  | link {m lent : Module} (h : Built m) (hlent : Built lent)
    (hlacks : lent.document.Lacks m.document.serial) (input : Input)
    (hlibrary : input.library? = some lent.document) : Built (m.next input)

theorem Built.reachable (h : m.Built) : m.Reachable := by
  induction h with
  | new h => exact .new h
  | next _ input _ ih => exact ih.next input
  | link _ _ _ input _ ih => exact ih.next input

theorem Built.run (h : m.Built) {inputs : List Input}
    (hnone : ∀ input ∈ inputs, input.library? = none) : (m.run inputs).Built := by
  induction inputs generalizing m with
  | nil => exact h
  | cons input inputs ih =>
      exact ih (h.next input (hnone input List.mem_cons_self)) fun other hother =>
        hnone other (List.mem_cons_of_mem _ hother)

theorem documents_new {serial : Nat} {rootType : String} {config : Config}
    (h : Module.new serial rootType config = .ok m) (hd' : d' ∈ m.documents) :
    d'.serial = serial ∧ d'.libraries = [] ∧ d'.tree.Grounded := by
  simp only [Module.new] at h
  split at h
  · obtain rfl := Except.ok.inj h
    obtain rfl := List.mem_singleton.1 hd'
    refine ⟨rfl, rfl, fun x hx => ?_⟩
    obtain ⟨y, ⟨e, name, space, f, -, -, -, hfind, -⟩, -⟩ := Relation.TransGen.head'_iff.1 hx
    cases hfind
  · cases h

theorem document_mem_documents (m : Module) : m.document ∈ m.documents :=
  History.self_mem_documents m.history m.document

/-- All documents that a module can visit are of that module and orderly. -/
def Orderly (m : Module) : Prop :=
  ∀ d ∈ m.documents, d.Orderly ∧ d.serial = m.document.serial

theorem orderly_new {serial : Nat} {rootType : String} {config : Config}
    (h : Module.new serial rootType config = .ok m) : m.Orderly := by
  intro d hd
  obtain ⟨hserial, hlibraries, hgrounded⟩ := documents_new h hd
  have hmodule := (documents_new h m.document_mem_documents).1
  refine ⟨Document.Stands.orderly ⟨hgrounded, ?_⟩ ?_, hserial.trans hmodule.symm⟩
  · simp [hlibraries]
  · simp [hlibraries]

theorem Orderly.serial_next (h : m.Orderly) (hm : m.Sound) (input : Input)
    (hd' : d' ∈ (m.next input).documents) : d'.serial = m.document.serial := by
  obtain ⟨d, hd, hfollows⟩ := hm.exists_follows input hd'
  exact hfollows.serial.trans (h d hd).2

theorem Orderly.next (h : m.Orderly) (hm : m.Sound) (input : Input)
    (hlibrary : ∀ library, input.library? = some library →
      library.Orderly ∧ library.Lacks m.document.serial) : (m.next input).Orderly := by
  intro d' hd'
  obtain ⟨d, hd, hfollows⟩ := hm.exists_follows input hd'
  obtain ⟨horderly, hserial⟩ := h d hd
  refine ⟨hfollows.orderly horderly fun library hnew => ?_, ?_⟩
  · rw [hserial]
    exact hlibrary library hnew
  · rw [h.serial_next hm input hd', h.serial_next hm input (document_mem_documents _)]

theorem Built.orderly (h : m.Built) : m.Orderly := by
  induction h with
  | new h => exact orderly_new h
  | next h input hnone ih => exact ih.next h.reachable.sound input (by simp [hnone])
  | @link _ lent h hlent hlacks input hlibrary ih ihlent =>
      refine ih.next h.reachable.sound input fun library hnew => ?_
      obtain rfl := Option.some.inj (hlibrary.symm.trans hnew)
      exact ⟨(ihlent _ lent.document_mem_documents).1, hlacks⟩

/-- In a built module no chain of bases comes to an element twice. -/
theorem Built.eq_of_isSame (h : m.Built) {x : ElementId} {i j : Nat} {r s : OwnedElement}
    (hr : (⟨m.document, x⟩ : OwnedElement).nthBase? i = some r)
    (hs : (⟨m.document, x⟩ : OwnedElement).nthBase? j = some s) (hsame : r.isSame s = true) :
    i = j :=
  OwnedElement.eq_of_isSame (h.orderly _ m.document_mem_documents).1 hr hs hsame

end Module

end ReportModel
