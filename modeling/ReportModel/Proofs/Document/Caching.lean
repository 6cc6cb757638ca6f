import Mathlib.Logic.Function.Basic
import ReportModel.Document.Snapshot
import ReportModel.Proofs.Except
import ReportModel.Proofs.Tree.Forest

/-!
# Cached values

The effective values of all attached elements are computed along one walk from the root. The entries
stand in a row, and beside it is noted at which position the entry of an element stands. In a forest
this never fails, and the entry found for an element is that of the snapshot: there is one exactly
if the element is attached, and it holds what the queries of that element answer.
-/

namespace ReportModel

/-- Effective values in a row, and the position of the entry of an element. -/
structure ValueCache where
  entries : List ElementSnapshot
  position : ElementId → Option Nat

namespace ValueCache

variable {cache : ValueCache} {s : Snapshot} {id : ElementId} {entry : ElementSnapshot}

def empty : ValueCache :=
  ⟨[], fun _ => none⟩

def push (cache : ValueCache) (id : ElementId) (entry : ElementSnapshot) : ValueCache where
  entries := cache.entries ++ [entry]
  position := Function.update cache.position id (some cache.entries.length)

def get? (cache : ValueCache) (id : ElementId) : Option ElementSnapshot :=
  (cache.position id).bind (cache.entries[·]?)

/-- The entries are those of a snapshot, and the positions are those of its elements. -/
structure Holds (cache : ValueCache) (s : Snapshot) : Prop where
  entries : cache.entries = s.map (·.2)
  position : ∀ id i, cache.position id = some i ↔ (s.map (·.1))[i]? = some id

theorem holds_empty : empty.Holds [] where
  entries := rfl
  position := by simp [empty]

theorem Holds.push (h : cache.Holds s) (hnew : id ∉ s.map (·.1)) :
    (cache.push id entry).Holds (s ++ [(id, entry)]) where
  entries := by simp [ValueCache.push, h.entries]
  position := by
    intro other i
    have hlength : cache.entries.length = (s.map (·.1)).length := by simp [h.entries]
    rw [ValueCache.push, List.map_append, List.map_singleton, getElem?_concat_eq_some, hlength]
    dsimp only
    by_cases hother : id = other
    · subst hother
      have hnone : (s.map (·.1))[i]? ≠ some id := fun hi => hnew (List.mem_of_getElem? hi)
      rw [Function.update_self, Option.some.injEq]
      simp only [hnone, false_or, and_true]
      exact eq_comm
    · rw [Function.update_of_ne (Ne.symm hother), h.position]
      simp only [hother, and_false, or_false]

theorem Holds.get?_eq (h : cache.Holds s) (id : ElementId) : cache.get? id = s.find? id := by
  have hlookup : ∀ entry, s.find? id = some entry → cache.get? id = some entry := by
    intro entry hfound
    obtain ⟨before, after, rfl, -⟩ := List.lookup_eq_some_iff.1 hfound
    have hposition : cache.position id = some before.length := by
      rw [h.position]
      simp
    rw [get?, hposition, Option.bind_some, h.entries]
    simp
  cases hfound : s.find? id with
  | some entry => exact hlookup entry hfound
  | none =>
      have hnone : cache.position id = none := by
        refine Option.eq_none_iff_forall_ne_some.2 fun i hi => ?_
        obtain ⟨pair, hpair, rfl⟩ := List.mem_map.1 (List.mem_of_getElem? ((h.position id i).1 hi))
        have hne := List.lookup_eq_none_iff.1 hfound pair hpair
        simp at hne
      rw [get?, hnone]
      rfl

end ValueCache

namespace Document

variable {d : Document} {id : ElementId} {entry : ElementSnapshot} {cache : ValueCache}
  {s : Snapshot} {ids : List ElementId}

def cacheElement (d : Document) (cache : ValueCache) (id : ElementId) :
    Except DesignError ValueCache :=
  match d.get? id with
  | none => .ok cache
  | some e => do
    let style ← d.effectiveStyle id
    return cache.push id
      { typeName := e.typeName
        name := e.name
        style := style.map (·.1)
        access := (d.accessRule? id).map (·.expression) }

/-- The effective values of all attached elements, computed one after the other. -/
def valueCache (d : Document) : Except DesignError ValueCache :=
  d.tree.attached.foldlM d.cacheElement .empty

def snapshotOf (d : Document) (ids : List ElementId) : Snapshot :=
  ids.filterMap fun id => (d.elementSnapshot? id).map (id, ·)

theorem exists_elementSnapshot? (h : d.tree.contains id = true) :
    ∃ entry, d.elementSnapshot? id = some entry := by
  obtain ⟨e, he⟩ := Tree.contains_iff.1 h
  rw [elementSnapshot?, Document.get?, he]
  exact ⟨_, rfl⟩

theorem elementSnapshot?_eq_some (h : d.elementSnapshot? id = some entry) :
    ∃ e style, d.get? id = some e ∧ d.effectiveStyle id = .ok style ∧
      entry = ⟨e.typeName, e.name, style.map (·.1), (d.accessRule? id).map (·.expression)⟩ := by
  obtain ⟨e, he, rfl⟩ := Option.map_eq_some_iff.1 h
  refine ⟨e, _, he, ?_, rfl⟩
  rw [effectiveStyle, he]

theorem cacheElement_eq (h : d.elementSnapshot? id = some entry) (cache : ValueCache) :
    d.cacheElement cache id = .ok (cache.push id entry) := by
  obtain ⟨e, style, he, hstyle, rfl⟩ := elementSnapshot?_eq_some h
  rw [cacheElement, he]
  dsimp only
  rw [hstyle]
  rfl

theorem snapshotOf_cons (h : d.elementSnapshot? id = some entry) (ids : List ElementId) :
    d.snapshotOf (id :: ids) = (id, entry) :: d.snapshotOf ids := by
  rw [snapshotOf, List.filterMap_cons, h]
  rfl

theorem map_snapshotOf (hlive : ∀ id ∈ ids, d.tree.contains id = true) :
    (d.snapshotOf ids).map (·.1) = ids := by
  induction ids with
  | nil => rfl
  | cons id ids ih =>
      obtain ⟨entry, hentry⟩ := exists_elementSnapshot? (hlive id List.mem_cons_self)
      rw [snapshotOf_cons hentry, List.map_cons,
        ih fun other hother => hlive other (List.mem_cons_of_mem _ hother)]

theorem find?_snapshotOf (hlive : ∀ id ∈ ids, d.tree.contains id = true) (id : ElementId) :
    (d.snapshotOf ids).find? id = if id ∈ ids then d.elementSnapshot? id else none := by
  induction ids with
  | nil => rfl
  | cons other ids ih =>
      obtain ⟨entry, hentry⟩ := exists_elementSnapshot? (hlive other List.mem_cons_self)
      have hrest := ih fun id hid => hlive id (List.mem_cons_of_mem _ hid)
      rw [snapshotOf_cons hentry, Snapshot.find?, List.lookup_cons]
      by_cases hid : id = other
      · subst hid
        simp [hentry]
      · have hne : (id == other) = false := by simpa using hid
        rw [hne, ← Snapshot.find?, hrest]
        simp [hid]

theorem exists_foldlM_cacheElement (h : cache.Holds s)
    (hlive : ∀ id ∈ ids, d.tree.contains id = true) (hnodup : (s.map (·.1) ++ ids).Nodup) :
    ∃ cache', ids.foldlM d.cacheElement cache = .ok cache' ∧
      cache'.Holds (s ++ d.snapshotOf ids) := by
  induction ids generalizing cache s with
  | nil => exact ⟨cache, rfl, by simpa [snapshotOf] using h⟩
  | cons id ids ih =>
      obtain ⟨entry, hentry⟩ := exists_elementSnapshot? (hlive id List.mem_cons_self)
      have hnew : id ∉ s.map (·.1) := by
        intro hid
        exact (List.nodup_append.1 hnodup).2.2 id hid id List.mem_cons_self rfl
      have hrest : ((s ++ [(id, entry)]).map (·.1) ++ ids).Nodup := by
        simpa using hnodup
      obtain ⟨cache', hfold, hholds⟩ := ih (h.push hnew)
        (fun other hother => hlive other (List.mem_cons_of_mem _ hother)) hrest
      refine ⟨cache', ?_, ?_⟩
      · rw [List.foldlM_cons, cacheElement_eq hentry]
        exact hfold
      · rw [snapshotOf_cons hentry]
        simpa using hholds

theorem contains_of_mem_attached (hf : d.tree.Forest) :
    ∀ id ∈ d.tree.attached, d.tree.contains id = true :=
  fun _ hid => (hf.mem_walk.1 hid).1

/-- In a forest caching never fails, and the cache is that of the snapshot. -/
theorem exists_valueCache (hf : d.tree.Forest) :
    ∃ cache, d.valueCache = .ok cache ∧ cache.Holds d.snapshot :=
  exists_foldlM_cacheElement ValueCache.holds_empty (contains_of_mem_attached hf)
    (hf.nodup_walk d.root)

theorem map_snapshot (hf : d.tree.Forest) : d.snapshot.map (·.1) = d.tree.attached :=
  map_snapshotOf (contains_of_mem_attached hf)

theorem find?_snapshot (hf : d.tree.Forest) (id : ElementId) : d.snapshot.find? id =
    if d.tree.isAttached id = true then d.elementSnapshot? id else none := by
  rw [snapshot, ← snapshotOf, find?_snapshotOf (contains_of_mem_attached hf)]
  simp only [hf.mem_attached]

theorem isSome_find?_snapshot (hf : d.tree.Forest) (id : ElementId) :
    (d.snapshot.find? id).isSome = d.tree.isAttached id := by
  rw [find?_snapshot hf]
  split
  · next hid =>
    obtain ⟨entry, hentry⟩ := exists_elementSnapshot? (Tree.Forest.contained_of_isAttached hid)
    rw [hentry, hid]
    rfl
  · next hid => simpa using hid

end Document

end ReportModel
