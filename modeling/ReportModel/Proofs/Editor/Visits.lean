import ReportModel.Proofs.Module.Step

/-!
# The documents of a history

From a document with its history, rollback, undo and redo lead to some documents. A step leads to no
others: all documents that can be visited after it could be visited before, up to elements created
or discarded, apart from the one that the step itself may have made.
-/

namespace ReportModel

open Edit

namespace History

variable {h : History} {base d d' : Document} {r : Revision} {revisions rest outer : List Revision}

/-- The documents that taking some revisions back leads to. -/
def behind : List Revision → Document → List Document
  | [], _ => []
  | r :: rest, d => revertAll r.edits d :: behind rest (revertAll r.edits d)

/-- The documents that making some revisions again leads to. -/
def ahead : List Revision → Document → List Document
  | [], _ => []
  | r :: rest, d => applyAll r.edits d :: ahead rest (applyAll r.edits d)

/-- The document that the open transactions began with. -/
def origin (h : History) (d : Document) : Document :=
  h.current.foldl (fun d r => revertAll r.edits d) d

/-- A document, and all documents that rollback, undo and redo lead to from there. -/
def documents (h : History) (d : Document) : List Document :=
  d :: behind (h.current ++ h.undo) d ++ ahead h.redo (h.origin d)

theorem mem_documents : d' ∈ h.documents d ↔
    d' = d ∨ d' ∈ behind (h.current ++ h.undo) d ∨ d' ∈ ahead h.redo (h.origin d) := by
  simp only [documents, List.cons_append, List.mem_cons, List.mem_append]

theorem self_mem_documents (h : History) (d : Document) : d ∈ h.documents d :=
  mem_documents.2 (Or.inl rfl)

section replays

theorem Opens.origin_eq (hs : Opens base h.current d) : h.origin d = base := by
  have hfold : ∀ {stack : List Revision} {d}, Opens base stack d →
      stack.foldl (fun d r => revertAll r.edits d) d = base := by
    intro stack
    induction stack with
    | nil => exact fun hs => hs
    | cons r outer ih =>
        intro d hs
        obtain ⟨mid, hr, hs⟩ := hs
        rw [List.foldl_cons, hr.revertAll_eq]
        exact ih hs
  exact hfold hs

theorem Opens.undoable {stack : List Revision} (hs : Opens base stack d)
    (hu : Undoable revisions base) : Undoable (stack ++ revisions) d := by
  induction stack generalizing d with
  | nil =>
      obtain rfl : d = base := hs
      exact hu
  | cons r outer ih =>
      obtain ⟨mid, hr, hs⟩ := hs
      exact ⟨mid, hr, ih hs⟩

theorem Sound.undoable (hs : h.Sound d) : Undoable (h.current ++ h.undo) d := by
  obtain ⟨base, hopen, hundo, -⟩ := hs.replays
  exact hopen.undoable hundo

theorem Sound.redoable (hs : h.Sound d) : Redoable h.redo (h.origin d) := by
  obtain ⟨base, hopen, -, hredo⟩ := hs.replays
  rwa [hopen.origin_eq]

theorem Sound.origin_createAll (hs : h.Sound d) (cs : List Creation) :
    h.origin (d.createAll cs) = (h.origin d).createAll cs := by
  obtain ⟨base, hopen, -, -⟩ := hs.replays
  rw [hopen.origin_eq, (hopen.createAll cs).origin_eq]

theorem Undoable.behind_createAll (hu : Undoable revisions d) (cs : List Creation) :
    behind revisions (d.createAll cs) = (behind revisions d).map (·.createAll cs) := by
  induction revisions generalizing d with
  | nil => rfl
  | cons r rest ih =>
      obtain ⟨mid, hr, hu⟩ := hu
      simp only [behind, hr.revertAll_eq, (hr.createAll cs).revertAll_eq, List.map_cons, ih hu]

theorem Redoable.ahead_createAll (hr : Redoable revisions d) (cs : List Creation) :
    ahead revisions (d.createAll cs) = (ahead revisions d).map (·.createAll cs) := by
  induction revisions generalizing d with
  | nil => rfl
  | cons r rest ih =>
      obtain ⟨mid, hr, hrest⟩ := hr
      simp only [ahead, hr.applyAll_eq, (hr.createAll cs).applyAll_eq, List.map_cons, ih hrest]

theorem Sound.documents_createAll (hs : h.Sound d) (cs : List Creation) :
    h.documents (d.createAll cs) = (h.documents d).map (·.createAll cs) := by
  rw [documents, documents, hs.origin_createAll, hs.undoable.behind_createAll,
    hs.redoable.ahead_createAll]
  simp

private theorem Undoable.wellFormed (hu : Undoable revisions d) (hwf : d.tree.WellFormed)
    (h : d' ∈ behind revisions d) : d'.tree.WellFormed := by
  induction revisions generalizing d with
  | nil => cases h
  | cons r rest ih =>
      obtain ⟨mid, hr, hu⟩ := hu
      have hmid := hr.symm.wellFormed hwf
      simp only [behind, hr.revertAll_eq, List.mem_cons] at h
      rcases h with rfl | h
      · exact hmid
      · exact ih hu hmid h

private theorem Redoable.wellFormed (hr : Redoable revisions d) (hwf : d.tree.WellFormed)
    (h : d' ∈ ahead revisions d) : d'.tree.WellFormed := by
  induction revisions generalizing d with
  | nil => cases h
  | cons r rest ih =>
      obtain ⟨mid, hr, hrest⟩ := hr
      have hmid := hr.wellFormed hwf
      simp only [ahead, hr.applyAll_eq, List.mem_cons] at h
      rcases h with rfl | h
      · exact hmid
      · exact ih hrest hmid h

private theorem Opens.wellFormed {stack : List Revision} (hs : Opens base stack d)
    (hwf : d.tree.WellFormed) : base.tree.WellFormed := by
  induction stack generalizing d with
  | nil =>
      obtain rfl : d = base := hs
      exact hwf
  | cons r outer ih =>
      obtain ⟨mid, hr, hs⟩ := hs
      exact ih hs (hr.symm.wellFormed hwf)

theorem Sound.wellFormed_of_mem (hs : h.Sound d) (hd' : d' ∈ h.documents d) :
    d'.tree.WellFormed := by
  rcases mem_documents.1 hd' with rfl | hd' | hd'
  · exact hs.wellFormed
  · exact hs.undoable.wellFormed hs.wellFormed hd'
  · obtain ⟨base, hopen, -, -⟩ := hs.replays
    refine hs.redoable.wellFormed ?_ hd'
    rw [hopen.origin_eq]
    exact hopen.wellFormed hs.wellFormed

end replays

section steps

theorem behind_append (revisions rest : List Revision) (d : Document) :
    behind (revisions ++ rest) d =
      behind revisions d ++ behind rest (revisions.foldl (fun d r => revertAll r.edits d) d) := by
  induction revisions generalizing d with
  | nil => rfl
  | cons r revisions ih => simp only [List.cons_append, behind, ih, List.foldl_cons]

theorem mem_behind_take {n : Nat} (h : d' ∈ behind (revisions.take n) d) :
    d' ∈ behind revisions d := by
  rw [← List.take_append_drop n revisions, behind_append]
  exact List.mem_append_left _ h

theorem mem_behind_pushUndo (hd' : d' ∈ behind (h.pushUndo r).undo d) :
    d' ∈ behind (r :: h.undo) d := by
  simp only [pushUndo] at hd'
  split at hd'
  · exact hd'
  · exact mem_behind_take hd'

/-- After a transaction has been closed, there is nothing new to visit. -/
theorem mem_documents_of_absorb (hd' : d' ∈ (h.absorb r).documents d) :
    d' = d ∨ d' ∈ h.documents (revertAll r.edits d) := by
  cases hcur : h.current with
  | nil =>
      simp only [absorb, hcur] at hd'
      split at hd'
      · next hempty =>
        right
        rwa [List.isEmpty_iff.1 hempty]
      -- an outermost revision that is not empty can be undone, and nothing can be redone
      · rcases mem_documents.1 hd' with rfl | hd' | hd'
        · exact Or.inl rfl
        · change d' ∈ behind (History.pushUndo _ r).undo d at hd'
          rcases List.mem_cons.1 (mem_behind_pushUndo hd') with rfl | hd'
          · exact Or.inr (self_mem_documents _ _)
          · right
            rw [mem_documents, hcur, List.nil_append]
            exact Or.inr (Or.inl hd')
        · cases hd'
  | cons first outer =>
      -- an inner revision is taken back with the one around it
      have hrevert : ∀ d, revertAll (first.edits ++ r.edits) d =
          revertAll first.edits (revertAll r.edits d) := fun d => List.foldr_append
      rw [absorb_of_cons hcur] at hd'
      simp only [mem_documents, origin, hcur, List.cons_append, behind, List.foldl_cons,
        hrevert, List.mem_cons] at hd' ⊢
      tauto

/-- What an open transaction began with could be visited, and so could all it leads to. -/
theorem mem_documents_of_inner (hcur : h.current = r :: outer)
    (hd' : d' ∈ ({ h with current := outer } : History).documents (revertAll r.edits d)) :
    d' ∈ h.documents d := by
  simp only [mem_documents, origin, hcur, List.cons_append, behind, List.foldl_cons,
    List.mem_cons] at hd' ⊢
  tauto

theorem mem_documents_of_undo (hs : h.Sound d) (hcur : h.current = [])
    (hundo : h.undo = r :: rest)
    (hd' : d' ∈ ({ h with undo := rest, redo := r :: h.redo } : History).documents
      (revertAll r.edits d)) : d' ∈ h.documents d := by
  obtain ⟨mid, hr, -⟩ := hs.exists_undo hcur hundo
  have hback : applyAll r.edits (revertAll r.edits d) = d := by
    rw [hr.revertAll_eq, hr.applyAll_eq]
  simp only [mem_documents, origin, hcur, List.nil_append, List.foldl_nil, hundo, behind, ahead,
    hback, List.mem_cons] at hd' ⊢
  tauto

theorem mem_documents_of_redo (hs : h.Sound d) (hcur : h.current = [])
    (hredo : h.redo = r :: rest)
    (hd' : d' ∈ (({ h with redo := rest } : History).pushUndo r).documents
      (applyAll r.edits d)) : d' ∈ h.documents d := by
  obtain ⟨mid, hr, -⟩ := hs.exists_redo hcur hredo
  have hback : revertAll r.edits (applyAll r.edits d) = d := by
    rw [hr.applyAll_eq, hr.revertAll_eq]
  rw [hs.pushUndo_eq hredo] at hd'
  simp only [mem_documents, origin, hcur, List.nil_append, List.foldl_nil, hredo, behind, ahead,
    hback, List.mem_cons] at hd' ⊢
  tauto

private theorem Undoable.mem_behind_forgetIn {x : ElementId} (hu : Undoable revisions d)
    (hx : d.tree.CanErase x)
    (hd' : d' ∈ behind (History.forgetIn (d.tree.walk x) revisions) (d.eraseAll x)) :
    ∃ d₀ ∈ behind revisions d, d₀.tree.CanErase x ∧ d' = d₀.eraseAll x := by
  induction revisions generalizing d with
  | nil => cases hd'
  | cons r rest ih =>
      obtain ⟨mid, hr, hu⟩ := hu
      -- the first revision that touches the element ends what is kept
      cases htouch : r.touches (d.tree.walk x) with
      | true =>
          simp only [History.forgetIn, List.takeWhile_cons, htouch, Bool.not_true,
            Bool.false_eq_true, if_false, behind, List.not_mem_nil] at hd'
      | false =>
          have hedits := not_touches_of_mem_inverses htouch
          obtain ⟨hmid, hwalk⟩ := hr.back.canErase hx hedits
          have hgone : revertAll r.edits (d.eraseAll x) = mid.eraseAll x := by
            rw [revertAll_eq_applyAll]
            exact (hr.symm.eraseAll hx hedits).applyAll_eq
          simp only [History.forgetIn, List.takeWhile_cons, htouch, Bool.not_false, if_true, behind,
            hgone, hr.revertAll_eq, List.mem_cons] at hd' ⊢
          rcases hd' with rfl | hd'
          · exact ⟨mid, Or.inl rfl, hmid, rfl⟩
          · rw [← hwalk] at hd'
            obtain ⟨d₀, hd₀, hfound⟩ := ih hu hmid hd'
            exact ⟨d₀, Or.inr hd₀, hfound⟩

private theorem Redoable.mem_ahead_forgetIn {x : ElementId} (hr : Redoable revisions d)
    (hx : d.tree.CanErase x)
    (hd' : d' ∈ ahead (History.forgetIn (d.tree.walk x) revisions) (d.eraseAll x)) :
    ∃ d₀ ∈ ahead revisions d, d₀.tree.CanErase x ∧ d' = d₀.eraseAll x := by
  induction revisions generalizing d with
  | nil => cases hd'
  | cons r rest ih =>
      obtain ⟨mid, hr, hrest⟩ := hr
      cases htouch : r.touches (d.tree.walk x) with
      | true =>
          simp only [History.forgetIn, List.takeWhile_cons, htouch, Bool.not_true,
            Bool.false_eq_true, if_false, ahead, List.not_mem_nil] at hd'
      | false =>
          have hedits := not_touches_of_mem_edits htouch
          obtain ⟨hmid, hwalk⟩ := hr.forth.canErase hx hedits
          have hgone : applyAll r.edits (d.eraseAll x) = mid.eraseAll x :=
            (hr.eraseAll hx hedits).applyAll_eq
          simp only [History.forgetIn, List.takeWhile_cons, htouch, Bool.not_false, if_true, ahead,
            hgone, hr.applyAll_eq, List.mem_cons] at hd' ⊢
          rcases hd' with rfl | hd'
          · exact ⟨mid, Or.inl rfl, hmid, rfl⟩
          · rw [← hwalk] at hd'
            obtain ⟨d₀, hd₀, hfound⟩ := ih hrest hmid hd'
            exact ⟨d₀, Or.inr hd₀, hfound⟩

theorem mem_documents_of_forget {x : ElementId} (hs : h.Sound d) (hcur : h.current = [])
    (hx : d.tree.CanErase x)
    (hd' : d' ∈ (h.forget (d.tree.walk x)).documents (d.eraseAll x)) :
    ∃ d₀ ∈ h.documents d, d₀.tree.CanErase x ∧ d' = d₀.eraseAll x := by
  have hundo := hs.undoable
  have hredo := hs.redoable
  simp only [origin, hcur, List.nil_append, List.foldl_nil] at hundo hredo
  simp only [mem_documents, forget, origin, hcur, List.nil_append, List.foldl_nil] at hd' ⊢
  rcases hd' with rfl | hd' | hd'
  · exact ⟨d, Or.inl rfl, hx, rfl⟩
  · obtain ⟨d₀, hd₀, hfound⟩ := hundo.mem_behind_forgetIn hx hd'
    exact ⟨d₀, Or.inr (Or.inl hd₀), hfound⟩
  · obtain ⟨d₀, hd₀, hfound⟩ := hredo.mem_ahead_forgetIn hx hd'
    exact ⟨d₀, Or.inr (Or.inr hd₀), hfound⟩

end steps

end History

namespace Editor

variable {ed ed' : Editor} {wanted : List Creation}

/-- The documents that rollback, undo and redo lead to, and the present one. -/
def documents (ed : Editor) : List Document :=
  ed.history.documents ed.document

/-- A document is another one with some elements created, or one discarded. -/
def Remade (cs : List Creation) (d' d : Document) : Prop :=
  d' = d.createAll cs ∨ ∃ id, d.tree.CanErase id ∧ d' = d.eraseAll id

/-- A step makes at most one new document, the present one. -/
theorem Step.documents (h : Step ed wanted ed') (hs : ed.history.Sound ed.document) {d' : Document}
    (hd' : d' ∈ ed'.documents) :
    d' = ed'.document ∨ ∃ d ∈ ed.documents, Remade wanted d' d := by
  have hold : ∀ {d'}, d' ∈ ed.documents →
      ∃ d ∈ ed.documents, Remade [] d' d := fun h => ⟨_, h, Or.inl rfl⟩
  cases h with
  | grown =>
      right
      change d' ∈ ed.history.documents (ed.document.createAll wanted) at hd'
      rw [hs.documents_createAll, List.mem_map] at hd'
      obtain ⟨d, hd, rfl⟩ := hd'
      exact ⟨d, hd, Or.inl rfl⟩
  | absorbed hr =>
      simp only [Editor.documents, hr.history] at hd'
      rcases History.mem_documents_of_absorb hd' with rfl | hd'
      · exact Or.inl rfl
      · right
        rw [hr.document.revertAll_eq, hs.documents_createAll, List.mem_map] at hd'
        obtain ⟨d, hd, rfl⟩ := hd'
        exact ⟨d, hd, Or.inl rfl⟩
  | started label =>
      right
      refine hold ?_
      simp only [Editor.documents, History.mem_documents, History.start, History.origin,
        List.cons_append, History.behind, List.foldl_cons, revertAll, List.foldr_nil,
        List.mem_cons] at hd' ⊢
      tauto
  | committed hcur =>
      rcases History.mem_documents_of_absorb hd' with rfl | hd'
      · exact Or.inl rfl
      · exact Or.inr (hold (History.mem_documents_of_inner hcur hd'))
  | rolledBack hcur => exact Or.inr (hold (History.mem_documents_of_inner hcur hd'))
  | undone hcur hundo => exact Or.inr (hold (History.mem_documents_of_undo hs hcur hundo hd'))
  | redone hcur hredo => exact Or.inr (hold (History.mem_documents_of_redo hs hcur hredo hd'))
  | cleared =>
      right
      refine hold ?_
      simp only [Editor.documents, History.mem_documents, History.clear, History.origin,
        List.append_nil, History.ahead, List.not_mem_nil, or_false, History.behind_append,
        List.mem_append] at hd' ⊢
      tauto
  | discarded hcur hx =>
      right
      obtain ⟨d₀, hd₀, hx₀, rfl⟩ := History.mem_documents_of_forget hs hcur hx hd'
      exact ⟨d₀, hd₀, Or.inr ⟨_, hx₀, rfl⟩⟩

end Editor

end ReportModel
