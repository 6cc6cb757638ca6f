import ReportModel.Editor.History
import ReportModel.Proofs.Editor.Growth

/-!
# Sound histories

In a sound history the open transactions lead from a base document to the present one, the
revisions that can be undone lead up to the base, and those that can be redone lead on from it.
Closing, undoing and redoing keep it so, and so do elements that come and go.
-/

namespace ReportModel

open Edit

namespace History

variable {h : History} {base d d' : Document} {r : Revision} {rest outer : List Revision}

/-- Open transactions lead from a base to a document, the innermost one last. -/
def Opens (base : Document) : List Revision → Document → Prop
  | [], d => d = base
  | r :: outer, d => ∃ mid, Reversible r.edits mid d ∧ Opens base outer mid

/-- Revisions lead up to a document, the first one last. -/
def Undoable : List Revision → Document → Prop
  | [], _ => True
  | r :: rest, d => ∃ mid, Reversible r.edits mid d ∧ Undoable rest mid

/-- Revisions lead on from a document, the first one first. -/
def Redoable : List Revision → Document → Prop
  | [], _ => True
  | r :: rest, d => ∃ mid, Reversible r.edits d mid ∧ Redoable rest mid

/-- A history is the history of a document, and keeps to its limit. -/
structure Sound (h : History) (d : Document) : Prop where
  wellFormed : d.tree.WellFormed
  replays : ∃ base, Opens base h.current d ∧ Undoable h.undo base ∧ Redoable h.redo base
  bounded : h.limit ≠ 0 → h.undo.length + h.redo.length ≤ h.limit

section create

variable (c : Creation)

theorem Opens.create {stack : List Revision} (hs : Opens base stack d) :
    Opens (base.create c) stack (d.create c) := by
  induction stack generalizing d with
  | nil => exact congrArg (Document.create · c) hs
  | cons r outer ih =>
      obtain ⟨mid, hr, hs⟩ := hs
      exact ⟨mid.create c, hr.create c, ih hs⟩

theorem Undoable.create {revisions : List Revision} (hu : Undoable revisions d) :
    Undoable revisions (d.create c) := by
  induction revisions generalizing d with
  | nil => trivial
  | cons r rest ih =>
      obtain ⟨mid, hr, hu⟩ := hu
      exact ⟨mid.create c, hr.create c, ih hu⟩

theorem Redoable.create {revisions : List Revision} (hr : Redoable revisions d) :
    Redoable revisions (d.create c) := by
  induction revisions generalizing d with
  | nil => trivial
  | cons r rest ih =>
      obtain ⟨mid, hr, hrest⟩ := hr
      exact ⟨mid.create c, hr.create c, ih hrest⟩

theorem Sound.create (hs : h.Sound d) : h.Sound (d.create c) := by
  obtain ⟨base, hopen, hundo, hredo⟩ := hs.replays
  have hwf : (d.create c).tree.WellFormed := hs.wellFormed.create _ _
  exact ⟨hwf, ⟨base.create c, hopen.create c, hundo.create c, hredo.create c⟩, hs.bounded⟩

end create

theorem Opens.createAll {stack : List Revision} (hs : Opens base stack d) (cs : List Creation) :
    Opens (base.createAll cs) stack (d.createAll cs) := by
  induction cs generalizing base d with
  | nil => exact hs
  | cons c cs ih => exact ih (hs.create c)

theorem Sound.createAll (hs : h.Sound d) (cs : List Creation) : h.Sound (d.createAll cs) := by
  induction cs generalizing d with
  | nil => exact hs
  | cons c cs ih => exact ih (hs.create c)

section forget

variable {x : ElementId} {revisions : List Revision}

theorem not_touches_of_mem_edits {ids : List ElementId} (hr : r.touches ids = false) :
    ∀ edit ∈ r.edits, edit.touches ids = false := by
  simpa [Revision.touches] using hr

theorem not_touches_of_mem_inverses {ids : List ElementId} (hr : r.touches ids = false) :
    ∀ edit ∈ inverses r.edits, edit.touches ids = false := by
  intro edit hedit
  obtain ⟨e, he, rfl⟩ := List.mem_map.1 hedit
  rw [touches_inverse]
  exact not_touches_of_mem_edits hr e (List.mem_reverse.1 he)

theorem Undoable.forgetIn (hu : Undoable revisions d) (hx : d.tree.CanErase x) :
    Undoable (forgetIn (d.tree.walk x) revisions) (d.eraseAll x) := by
  induction revisions generalizing d with
  | nil => trivial
  | cons r rest ih =>
      obtain ⟨mid, hr, hu⟩ := hu
      cases htouch : r.touches (d.tree.walk x) with
      | true => simp [History.forgetIn, htouch, Undoable]
      | false =>
          have hback := not_touches_of_mem_inverses htouch
          obtain ⟨hmid, hwalk⟩ := hr.back.canErase hx hback
          have hgone := (hr.symm.eraseAll hx hback).symm
          rw [inverses_inverses] at hgone
          simp only [History.forgetIn, List.takeWhile_cons, htouch, Bool.not_false, if_true]
          refine ⟨mid.eraseAll x, hgone, ?_⟩
          have hrest := ih hu hmid
          rwa [hwalk] at hrest

theorem Redoable.forgetIn (hr : Redoable revisions d) (hx : d.tree.CanErase x) :
    Redoable (forgetIn (d.tree.walk x) revisions) (d.eraseAll x) := by
  induction revisions generalizing d with
  | nil => trivial
  | cons r rest ih =>
      obtain ⟨mid, hr, hrest⟩ := hr
      cases htouch : r.touches (d.tree.walk x) with
      | true => simp [History.forgetIn, htouch, Redoable]
      | false =>
          have hforth := not_touches_of_mem_edits htouch
          obtain ⟨hmid, hwalk⟩ := hr.forth.canErase hx hforth
          simp only [History.forgetIn, List.takeWhile_cons, htouch, Bool.not_false, if_true]
          refine ⟨mid.eraseAll x, hr.eraseAll hx hforth, ?_⟩
          have hrest := ih hrest hmid
          rwa [hwalk] at hrest

/-- Freeing an element outside all transactions forgets what cannot be replayed without it. -/
theorem Sound.forget (hs : h.Sound d) (hcur : h.current = []) (hx : d.tree.CanErase x) :
    (h.forget (d.tree.walk x)).Sound (d.eraseAll x) := by
  obtain ⟨base, hopen, hundo, hredo⟩ := hs.replays
  rw [hcur] at hopen
  obtain rfl : d = base := hopen
  refine ⟨hs.wellFormed.eraseAll hx, ⟨d.eraseAll x, ?_, hundo.forgetIn hx, hredo.forgetIn hx⟩, ?_⟩
  · have hcur' : (h.forget (d.tree.walk x)).current = [] := hcur
    rw [hcur']
    rfl
  · intro hlimit
    have hbound := hs.bounded hlimit
    have hundo := (List.takeWhile_sublist (fun r => !r.touches (d.tree.walk x))
      (l := h.undo)).length_le
    have hredo := (List.takeWhile_sublist (fun r => !r.touches (d.tree.walk x))
      (l := h.redo)).length_le
    simp only [History.forget, History.forgetIn]
    omega

end forget

/-- The history after a transaction has been closed: it becomes part of the one around it, or a
revision. -/
def absorb (h : History) (r : Revision) : History :=
  match h.current with
  | [] => if r.edits.isEmpty then h else { h with redo := [] }.pushUndo r
  | outer :: rest => { h with current := { outer with edits := outer.edits ++ r.edits } :: rest }

theorem absorb_of_cons {first : Revision} (hcur : h.current = first :: rest) (r : Revision) :
    h.absorb r = { h with current := { first with edits := first.edits ++ r.edits } :: rest } := by
  simp only [absorb, hcur]

theorem depth_absorb (h : History) (r : Revision) : (h.absorb r).depth = h.depth := by
  cases hcur : h.current with
  | nil =>
      simp only [absorb, depth, hcur]
      split
      · rw [hcur]
      · simp only [pushUndo]
  | cons first rest =>
      rw [absorb_of_cons hcur]
      simp only [depth, hcur, List.length_cons]

theorem absorb_of_nil (hcur : h.current = []) (hr : r.edits ≠ []) :
    h.absorb r = { h with redo := [] }.pushUndo r := by
  have hempty : r.edits.isEmpty = false := by simpa using hr
  simp only [absorb, hcur, hempty]
  rfl

theorem exists_undo_absorb (hcur : h.current = []) (hr : r.edits ≠ []) :
    (h.absorb r).current = [] ∧ ∃ rest, (h.absorb r).undo = r :: rest := by
  rw [absorb_of_nil hcur hr]
  refine ⟨hcur, ?_⟩
  simp only [pushUndo]
  by_cases hlimit : h.limit = 0
  · exact ⟨h.undo, by simp [hlimit]⟩
  · exact ⟨h.undo.take (h.limit - 1), by simp [hlimit, List.take_cons (Nat.pos_of_ne_zero hlimit)]⟩

theorem commit_eq (hcur : h.current = r :: outer) : h.commit =
    some ({ h with current := outer }.absorb r, if outer = [] then some r else none) := by
  cases outer <;> simp [commit, absorb, hcur]

theorem pushUndo_length_le (h : History) (r : Revision) (hredo : h.redo = [])
    (hlimit : h.limit ≠ 0) :
    (h.pushUndo r).undo.length + (h.pushUndo r).redo.length ≤ h.limit := by
  have hle : ((r :: h.undo).take h.limit).length ≤ h.limit := List.length_take_le _ _
  simp only [pushUndo, if_neg hlimit, hredo, List.length_nil]
  omega

theorem Undoable.take {revisions : List Revision} (hu : Undoable revisions d) (n : Nat) :
    Undoable (revisions.take n) d := by
  induction revisions generalizing d n with
  | nil => simpa using hu
  | cons r rest ih =>
      cases n with
      | zero => trivial
      | succ n =>
          obtain ⟨mid, hr, hu⟩ := hu
          exact ⟨mid, hr, ih hu n⟩

theorem Undoable.pushUndo (hu : Undoable h.undo d) (hr : Reversible r.edits d d') :
    Undoable (h.pushUndo r).undo d' := by
  have hall : Undoable (r :: h.undo) d' := ⟨d, hr, hu⟩
  simp only [History.pushUndo]
  split
  · exact hall
  · exact hall.take _

theorem Sound.absorb (hs : h.Sound d) (hr : Reversible r.edits d d') : (h.absorb r).Sound d' := by
  obtain ⟨base, hopen, hundo, hredo⟩ := hs.replays
  have hwf := hr.wellFormed hs.wellFormed
  cases hcur : h.current with
  | nil =>
      rw [hcur] at hopen
      obtain rfl : d = base := hopen
      simp only [History.absorb, hcur]
      split
      · next hempty =>
        rw [List.isEmpty_iff.1 hempty] at hr
        obtain rfl : d = d' := hr.forth
        exact hs
      · have hu : Undoable ({ h with redo := [] }.pushUndo r).undo d' :=
          Undoable.pushUndo (h := { h with redo := [] }) hundo hr
        have hle := pushUndo_length_le { h with redo := [] } r rfl
        exact ⟨hwf, ⟨d', rfl, hu, trivial⟩, hle⟩
  | cons first rest =>
      rw [hcur] at hopen
      obtain ⟨mid, hfirst, hopen⟩ := hopen
      simp only [History.absorb, hcur]
      exact ⟨hwf, ⟨base, ⟨mid, hfirst.append hr, hopen⟩, hundo, hredo⟩, hs.bounded⟩

theorem Sound.start (hs : h.Sound d) (label : String) : (h.start label).Sound d := by
  obtain ⟨base, hopen, hundo, hredo⟩ := hs.replays
  exact ⟨hs.wellFormed, ⟨base, ⟨d, Reversible.nil d, hopen⟩, hundo, hredo⟩, hs.bounded⟩

theorem Sound.exists_inner (hs : h.Sound d) (hcur : h.current = r :: outer) :
    ∃ mid, Reversible r.edits mid d ∧ ({ h with current := outer } : History).Sound mid := by
  obtain ⟨base, hopen, hundo, hredo⟩ := hs.replays
  rw [hcur] at hopen
  obtain ⟨mid, hr, hopen⟩ := hopen
  have hwf := hr.symm.wellFormed hs.wellFormed
  exact ⟨mid, hr, hwf, ⟨base, hopen, hundo, hredo⟩, hs.bounded⟩

theorem Sound.exists_undo (hs : h.Sound d) (hcur : h.current = []) (hundo : h.undo = r :: rest) :
    ∃ mid, Reversible r.edits mid d ∧
      ({ h with undo := rest, redo := r :: h.redo } : History).Sound mid := by
  obtain ⟨base, hopen, hu, hredo⟩ := hs.replays
  rw [hcur] at hopen
  obtain rfl : d = base := hopen
  rw [hundo] at hu
  obtain ⟨mid, hr, hu⟩ := hu
  have hopen' : Opens mid h.current mid := by
    rw [hcur]
    rfl
  refine ⟨mid, hr, hr.symm.wellFormed hs.wellFormed, ⟨mid, hopen', hu, d, hr, hredo⟩, ?_⟩
  intro hlimit
  have hbound := hs.bounded hlimit
  rw [hundo] at hbound
  simp only [List.length_cons] at hbound ⊢
  omega

/-- Redoing keeps all revisions, since those to undo and to redo keep to the limit together. -/
theorem Sound.pushUndo_eq (hs : h.Sound d) (hredo : h.redo = r :: rest) :
    ({ h with redo := rest } : History).pushUndo r =
      { h with redo := rest, undo := r :: h.undo } := by
  simp only [History.pushUndo]
  split
  · rfl
  · next hlimit =>
    have hbound := hs.bounded hlimit
    rw [hredo, List.length_cons] at hbound
    have hle : (r :: h.undo).length ≤ h.limit := by
      rw [List.length_cons]
      omega
    rw [List.take_of_length_le hle]

theorem Sound.exists_redo (hs : h.Sound d) (hcur : h.current = []) (hredo : h.redo = r :: rest) :
    ∃ mid, Reversible r.edits d mid ∧
      (({ h with redo := rest } : History).pushUndo r).Sound mid := by
  obtain ⟨base, hopen, hundo, hr⟩ := hs.replays
  rw [hcur] at hopen
  obtain rfl : d = base := hopen
  have heq := hs.pushUndo_eq hredo
  rw [hredo] at hr
  obtain ⟨mid, hr, hrest⟩ := hr
  have hopen' : Opens mid h.current mid := by
    rw [hcur]
    rfl
  refine ⟨mid, hr, ?_⟩
  rw [heq]
  refine ⟨hr.wellFormed hs.wellFormed, ⟨mid, hopen', ⟨d, hr, hundo⟩, hrest⟩, fun hlimit => ?_⟩
  have hbound := hs.bounded hlimit
  rw [hredo] at hbound
  simp only [List.length_cons] at hbound ⊢
  omega

theorem Sound.clear (hs : h.Sound d) : h.clear.Sound d := by
  obtain ⟨base, hopen, -, -⟩ := hs.replays
  exact ⟨hs.wellFormed, ⟨base, hopen, trivial, trivial⟩, fun _ => Nat.zero_le _⟩

section touches

variable {revisions : List Revision} {edit : Edit} {x : ElementId}

private theorem Opens.contains {stack : List Revision} (hs : Opens base stack d) (hr : r ∈ stack)
    (he : edit ∈ r.edits) (hx : edit.touches [x] = true) : d.tree.contains x = true := by
  induction stack generalizing d with
  | nil => simp at hr
  | cons first outer ih =>
      obtain ⟨mid, hfirst, hs⟩ := hs
      rw [hfirst.forth.contains_eq]
      rcases List.mem_cons.1 hr with rfl | hr
      · exact hfirst.forth.contains_of_touches he hx
      · exact ih hs hr

theorem Opens.contains_eq {stack : List Revision} (hs : Opens base stack d) :
    d.tree.contains x = base.tree.contains x := by
  induction stack generalizing d with
  | nil => exact congrArg (fun d => d.tree.contains x) hs
  | cons first outer ih =>
      obtain ⟨mid, hfirst, hs⟩ := hs
      rw [hfirst.forth.contains_eq, ih hs]

theorem Opens.shape_eq {stack : List Revision} (hs : Opens base stack d) :
    d.tree.elements.shape = base.tree.elements.shape := by
  induction stack generalizing d with
  | nil => exact congrArg (·.tree.elements.shape) hs
  | cons first outer ih =>
      obtain ⟨mid, hfirst, hs⟩ := hs
      rw [hfirst.forth.shape_eq, ih hs]

private theorem Undoable.contains (hu : Undoable revisions d) (hr : r ∈ revisions)
    (he : edit ∈ r.edits) (hx : edit.touches [x] = true) : d.tree.contains x = true := by
  induction revisions generalizing d with
  | nil => simp at hr
  | cons first rest ih =>
      obtain ⟨mid, hfirst, hu⟩ := hu
      rw [hfirst.forth.contains_eq]
      rcases List.mem_cons.1 hr with rfl | hr
      · exact hfirst.forth.contains_of_touches he hx
      · exact ih hu hr

private theorem Redoable.contains (hs : Redoable revisions d) (hr : r ∈ revisions)
    (he : edit ∈ r.edits) (hx : edit.touches [x] = true) : d.tree.contains x = true := by
  induction revisions generalizing d with
  | nil => simp at hr
  | cons first rest ih =>
      obtain ⟨mid, hfirst, hs⟩ := hs
      rcases List.mem_cons.1 hr with rfl | hr
      · exact hfirst.forth.contains_of_touches he hx
      · rw [← hfirst.forth.contains_eq]
        exact ih hs hr

theorem Sound.contains_of_touches (hs : h.Sound d)
    (hr : r ∈ h.current ∨ r ∈ h.undo ∨ r ∈ h.redo) (he : edit ∈ r.edits)
    (hx : edit.touches [x] = true) : d.tree.contains x = true := by
  obtain ⟨base, hopen, hundo, hredo⟩ := hs.replays
  rcases hr with hr | hr | hr
  · exact hopen.contains hr he hx
  · rw [hopen.contains_eq]
    exact hundo.contains hr he hx
  · rw [hopen.contains_eq]
    exact hredo.contains hr he hx

end touches

end History

end ReportModel
