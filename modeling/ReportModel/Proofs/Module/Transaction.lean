import ReportModel.Proofs.Module.Reachable

/-!
# Inside a transaction

Whatever happens inside an open transaction, it still leads on from the document at its start, to
which the elements created since then have been added. Taking it back leaves that document.
-/

namespace ReportModel

open Edit Editor

namespace Editor

variable {ed ed' : Editor} {start : Document} {outer : List Revision} {created cs : List Creation}

/-- The transactions open above some others lead on from the document at their start, with the
elements created since. -/
def Inside (start : Document) (outer : List Revision) (created : List Creation) (ed : Editor) :
    Prop :=
  ∃ inner, ed.history.current = inner ++ outer ∧
    History.Opens (start.createAll created) inner ed.document

theorem Inside.grown (h : Inside start outer created ed) (cs : List Creation) :
    Inside start outer (created ++ cs) (ed.grown cs) := by
  obtain ⟨inner, hcur, hopens⟩ := h
  refine ⟨inner, hcur, ?_⟩
  rw [Document.createAll_append]
  exact hopens.createAll cs

private theorem exists_cons_of_lt {α : Type} {l inner outer : List α} (h : l = inner ++ outer)
    (hlt : outer.length < l.length) : ∃ r rest, inner = r :: rest := by
  cases inner with
  | nil =>
      rw [h, List.nil_append] at hlt
      omega
  | cons r rest => exact ⟨r, rest, rfl⟩

theorem Step.inside (h : Step ed cs ed') (hin : Inside start outer created ed)
    (hbefore : outer.length < ed.history.depth) (hafter : outer.length < ed'.history.depth) :
    Inside start outer (created ++ cs) ed' := by
  have hne : ed.history.current ≠ [] := by
    intro hcur
    rw [History.depth, hcur] at hbefore
    exact Nat.not_lt_zero _ hbefore
  cases h with
  | grown => exact hin.grown cs
  | absorbed h =>
      obtain ⟨inner, hcur, hopens⟩ := hin.grown cs
      obtain ⟨r₀, rest, rfl⟩ := exists_cons_of_lt hcur hbefore
      obtain ⟨mid, hr, hopens⟩ := hopens
      have hcur' : ed.history.current = r₀ :: (rest ++ outer) := hcur
      refine ⟨{ r₀ with edits := r₀.edits ++ _ } :: rest, ?_, ⟨mid, hr.append h.document, hopens⟩⟩
      rw [h.history, History.absorb_of_cons hcur']
      rfl
  | started label =>
      obtain ⟨inner, hcur, hopens⟩ := hin
      rw [List.append_nil]
      refine ⟨⟨label, []⟩ :: inner, ?_, ed.document, Reversible.nil _, hopens⟩
      exact congrArg _ hcur
  | @committed r rest hcur =>
      obtain ⟨inner, hinner, hopens⟩ := hin
      obtain ⟨r', inner, rfl⟩ := exists_cons_of_lt hinner hbefore
      rw [hcur] at hinner
      obtain ⟨rfl, rfl⟩ := List.cons.inj hinner
      obtain ⟨mid, hr, hopens⟩ := hopens
      rw [List.append_nil]
      cases inner with
      | nil =>
          -- the transaction itself would have been closed
          rw [History.depth_absorb] at hafter
          exact absurd hafter (Nat.lt_irrefl _)
      | cons r₁ inner =>
          obtain ⟨mid', hr₁, hopens⟩ := hopens
          refine ⟨{ r₁ with edits := r₁.edits ++ r.edits } :: inner, ?_,
            ⟨mid', hr₁.append hr, hopens⟩⟩
          rw [History.absorb_of_cons rfl]
          rfl
  | @rolledBack r rest hcur =>
      obtain ⟨inner, hinner, hopens⟩ := hin
      obtain ⟨r', inner, rfl⟩ := exists_cons_of_lt hinner hbefore
      rw [hcur] at hinner
      obtain ⟨rfl, rfl⟩ := List.cons.inj hinner
      obtain ⟨mid, hr, hopens⟩ := hopens
      rw [List.append_nil]
      refine ⟨inner, rfl, ?_⟩
      simp only [hr.revertAll_eq]
      exact hopens
  | cleared =>
      rw [List.append_nil]
      exact hin
  | undone hcur => exact absurd hcur hne
  | redone hcur => exact absurd hcur hne
  | discarded hcur => exact absurd hcur hne

theorem Inside.exists_last (h : Inside start outer created ed)
    (hdepth : ed.history.depth = outer.length + 1) :
    ∃ r, ed.history.current = r :: outer ∧
      Reversible r.edits (start.createAll created) ed.document := by
  obtain ⟨inner, hcur, hopens⟩ := h
  rw [History.depth, hcur, List.length_append] at hdepth
  obtain ⟨r, rfl⟩ := List.length_eq_one_iff.1 (by omega : inner.length = 1)
  obtain ⟨mid, hr, rfl⟩ := hopens
  exact ⟨r, hcur, hr⟩

theorem Step.size_eq (h : Step ed cs ed') (hs : ed.history.Sound ed.document)
    (hne : ed.history.current ≠ []) :
    ed'.document.tree.size = ed.document.tree.size + cs.length := by
  cases h with
  | grown => exact Document.size_createAll _ _
  | absorbed h =>
      rw [h.document.forth.size_eq]
      exact Document.size_createAll _ _
  | started | committed | cleared => rfl
  | rolledBack hcur =>
      obtain ⟨mid, hr, -⟩ := hs.exists_inner hcur
      simp only [hr.revertAll_eq]
      exact hr.forth.size_eq.symm
  | undone hcur => exact absurd hcur hne
  | redone hcur => exact absurd hcur hne
  | discarded hcur => exact absurd hcur hne

end Editor

namespace Module

variable {m : Module} {start : Document} {outer : List Revision} {cs₀ : List Creation}

/-- The elements that an input creates: of those it is to create, as many as there are more elements
afterwards. -/
def created (m : Module) (input : Input) : List Creation :=
  input.creations.take ((m.next input).document.tree.size - m.document.tree.size)

def createdBy : Module → List Input → List Creation
  | _, [] => []
  | m, input :: inputs => m.created input ++ createdBy (m.next input) inputs

theorem Sound.exists_step (hm : m.Sound) (input : Input) :
    ∃ cs ed, cs <+: input.creations ∧ Step m.editor cs ed ∧
      (m.next input).editor = { ed with announced := none } := by
  cases input with
  | perform files command =>
      rcases hm.perform_cases files command with ⟨-, reply, ed, hstep, heq⟩ | ⟨error, cs, hcs, heq⟩
      · refine ⟨_, ed, List.prefix_rfl, hstep, ?_⟩
        rw [Module.next, heq]
      · refine ⟨cs, _, hcs, .grown cs, ?_⟩
        rw [Module.next, heq]
        exact (congrArg (grown · cs) hm.editor_eq).symm
  | addListener | removeListener | beginRound | endRound =>
      exact ⟨[], m.editor, List.nil_prefix, .grown [], hm.editor_eq.symm⟩

theorem created_eq {input : Input} {cs : List Creation} (hcs : cs <+: input.creations)
    (hsize : (m.next input).document.tree.size = m.document.tree.size + cs.length) :
    m.created input = cs := by
  rw [created, hsize, Nat.add_sub_cancel_left]
  exact (List.prefix_iff_eq_take.1 hcs).symm

theorem Sound.next_inside (hm : m.Sound) {input : Input}
    (hin : Inside start outer cs₀ m.editor) (hbefore : outer.length < m.history.depth)
    (hafter : outer.length < (m.next input).history.depth) :
    Inside start outer (cs₀ ++ m.created input) (m.next input).editor := by
  obtain ⟨cs, ed, hcs, hstep, heq⟩ := hm.exists_step input
  have hne : m.editor.history.current ≠ [] := by
    intro hcur
    rw [Module.history, History.depth, hcur] at hbefore
    exact Nat.not_lt_zero _ hbefore
  have hdocument : (m.next input).document = ed.document := congrArg (·.document) heq
  have hsize := hstep.size_eq hm.history hne
  rw [created_eq hcs (hdocument ▸ hsize)]
  rw [Module.history, heq] at hafter
  rw [heq]
  exact hstep.inside hin hbefore hafter

theorem Sound.run_inside (hm : m.Sound) (hin : Inside start outer cs₀ m.editor)
    {inputs : List Input}
    (hstay : ∀ before, before <+: inputs → outer.length < (m.run before).history.depth) :
    Inside start outer (cs₀ ++ m.createdBy inputs) (m.run inputs).editor := by
  induction inputs generalizing m cs₀ with
  | nil =>
      rw [createdBy, List.append_nil]
      exact hin
  | cons input inputs ih =>
      have hbefore := hstay [] List.nil_prefix
      have hafter := hstay [input] (List.prefix_append [input] inputs)
      rw [createdBy, ← List.append_assoc]
      apply ih (hm.next input) (hm.next_inside hin hbefore hafter)
      intro before hprefix
      exact hstay (input :: before) (List.cons_prefix_cons.2 ⟨rfl, hprefix⟩)

theorem Sound.exists_last (hm : m.Sound) (hquiet : m.isNotifying = false) {files : Files}
    {label : String} {inputs : List Input}
    (hstay : ∀ before, before <+: inputs → m.history.depth <
      (m.run (.perform files (.start label) :: before)).history.depth)
    {last : Module} (hlast : m.run (.perform files (.start label) :: inputs) = last)
    (hdepth : last.history.depth = m.history.depth + 1) :
    last.Sound ∧ ∃ r, last.history.current = r :: m.history.current ∧
      Reversible r.edits
        (m.document.createAll (m.createdBy (.perform files (.start label) :: inputs)))
        last.document := by
  have hnext := hm.next (.perform files (.start label))
  have hin : Inside m.document m.history.current (m.created (.perform files (.start label)))
      (m.next (.perform files (.start label))).editor := by
    have hnone : m.created (.perform files (.start label)) = [] := List.take_nil
    rw [hnone, Module.next, hm.perform_start hquiet]
    exact ⟨[⟨label, []⟩], rfl, m.document, Reversible.nil _, rfl⟩
  have hsound : last.Sound := hlast ▸ hnext.run inputs
  refine ⟨hsound, ?_⟩
  have hinside := hnext.run_inside hin hstay
  apply Inside.exists_last _ hdepth
  rw [← hlast]
  exact hinside

end Module

end ReportModel
