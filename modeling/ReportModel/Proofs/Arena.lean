import ReportModel.Arena
import Mathlib.Data.List.Nodup
import Mathlib.Data.List.Perm.Subperm

/-!
# Arenas as lookups

Apart from its lookups an arena consists of the generations of its places and of the list of vacant
places. Changing an item leaves that shape alone, and the shape alone says which id comes next.
-/

namespace ReportModel.Arena

variable {α : Type}

/-- What an arena has besides its items. -/
def shape (a : Arena α) : List Nat × List Nat :=
  (a.cells.map (·.generation), a.vacant)

theorem contains_iff {a : Arena α} {id : ElementId} :
    a.contains id = true ↔ ∃ item, a.get? id = some item := by
  rw [contains, Option.isSome_iff_exists]

theorem place_lt {a : Arena α} {id : ElementId} {item : α} (h : a.get? id = some item) :
    id.place < a.capacity :=
  (List.getElem?_eq_some_iff.1 (getElem?_of_get? h)).1

theorem id_eq_of_place {a : Arena α} {id other : ElementId} {item item' : α}
    (h : a.get? id = some item) (h' : a.get? other = some item') (hplace : id.place = other.place) :
    id = other := by
  have hcell := getElem?_of_get? h
  have hcell' := getElem?_of_get? h'
  rw [hplace, hcell'] at hcell
  cases id
  cases other
  simp_all

theorem length_le_capacity {a : Arena α} {l : List ElementId} (hnd : l.Nodup)
    (hlive : ∀ id ∈ l, a.contains id = true) : l.length ≤ a.capacity := by
  have hplaces : (l.map (·.place)).Nodup := by
    refine List.Nodup.map_on (fun x hx y hy hplace => ?_) hnd
    obtain ⟨item, hitem⟩ := contains_iff.1 (hlive x hx)
    obtain ⟨item', hitem'⟩ := contains_iff.1 (hlive y hy)
    exact id_eq_of_place hitem hitem' hplace
  have hsub : l.map (·.place) ⊆ List.range a.capacity := by
    intro i hi
    obtain ⟨x, hx, rfl⟩ := List.mem_map.1 hi
    obtain ⟨item, hitem⟩ := contains_iff.1 (hlive x hx)
    exact List.mem_range.2 (place_lt hitem)
  have := (hplaces.subperm hsub).length_le
  simpa using this

theorem capacity_eq_of_shape {a b : Arena α} (h : a.shape = b.shape) :
    a.capacity = b.capacity := by
  have := congrArg (fun s => s.1.length) h
  simpa [shape, capacity] using this

theorem nextId_eq_of_shape {a b : Arena α} (h : a.shape = b.shape) : a.nextId = b.nextId := by
  have hgen : a.cells.map (·.generation) = b.cells.map (·.generation) := congrArg Prod.fst h
  have hvac : a.vacant = b.vacant := congrArg Prod.snd h
  have hlen : a.cells.length = b.cells.length := capacity_eq_of_shape h
  simp only [nextId, ← hvac]
  cases a.vacant with
  | nil => simp [hlen]
  | cons i rest =>
      have := congrArg (fun l => l[i]?) hgen
      simp only [List.getElem?_map] at this
      simp [this]

/-- An arena is determined by its shape and its lookups. -/
theorem eq_of_get? {a b : Arena α} (hshape : a.shape = b.shape)
    (h : ∀ id, a.get? id = b.get? id) : a = b := by
  have hgen : a.cells.map (·.generation) = b.cells.map (·.generation) := congrArg Prod.fst hshape
  have hcells : a.cells = b.cells := by
    apply List.ext_getElem?
    intro i
    have hi := congrArg (fun l => l[i]?) hgen
    simp only [List.getElem?_map] at hi
    cases ha : a.cells[i]? with
    | none =>
        rw [ha] at hi
        cases hb : b.cells[i]? with
        | none => rfl
        | some cell => simp [hb] at hi
    | some cell =>
        rw [ha] at hi
        cases hb : b.cells[i]? with
        | none => simp [hb] at hi
        | some cell' =>
            simp only [hb, Option.map_some, Option.some.injEq] at hi
            have hcontent := h ⟨i, cell.generation⟩
            simp only [get?, ha, hb, if_true, hi] at hcontent
            cases cell
            cases cell'
            simp_all
  have hvac : a.vacant = b.vacant := congrArg Prod.snd hshape
  cases a
  cases b
  simp_all

@[simp]
theorem shape_modify (a : Arena α) (id : ElementId) (f : α → α) :
    (a.modify id f).shape = a.shape := by
  simp only [shape, modify, Prod.mk.injEq, and_true]
  apply List.ext_getElem?
  intro i
  simp only [List.getElem?_map, List.getElem?_modify]
  cases a.cells[i]? with
  | none => simp
  | some cell => by_cases hi : id.place = i <;> by_cases hg : cell.generation = id.generation <;>
      simp [hi, hg]

@[simp]
theorem contains_modify (a : Arena α) (id other : ElementId) (f : α → α) :
    (a.modify id f).contains other = a.contains other := by
  simp only [contains, get?_modify]
  split
  · next h => simp [h]
  · rfl

theorem size_eq_countP (a : Arena α) : a.size = (a.cells.map (·.content.isSome)).countP id := by
  rw [size, List.countP_map]
  rfl

@[simp]
theorem size_modify (a : Arena α) (id : ElementId) (f : α → α) :
    (a.modify id f).size = a.size := by
  have hcells : (a.modify id f).cells.map (·.content.isSome) = a.cells.map (·.content.isSome) := by
    apply List.ext_getElem?
    intro i
    simp only [modify, List.getElem?_map, List.getElem?_modify]
    cases a.cells[i]? with
    | none => simp
    | some cell => by_cases hi : id.place = i <;> by_cases hg : cell.generation = id.generation <;>
        simp [hi, hg]
  rw [size_eq_countP, hcells, ← size_eq_countP]

theorem size_insert (a : Arena α) (item : α) : (a.insert item).size = a.size + 1 := by
  cases hv : a.vacant with
  | nil => simp [size, insert, hv, List.countP_append]
  | cons i rest =>
      obtain ⟨g, hg⟩ := a.vacant_empty i (by simp [hv])
      obtain ⟨hi, hcell⟩ := List.getElem?_eq_some_iff.1 hg
      simp [size, insert, hv, List.countP_set hi, hcell]

theorem shape_insert (a : Arena α) (item : α) :
    (a.insert item).shape = match a.shape.2 with
      | [] => (a.shape.1 ++ [0], [])
      | i :: rest => (a.shape.1.set i a.nextId.generation, rest) := by
  cases hv : a.vacant <;> simp [shape, insert, hv, List.map_set]

theorem shape_erase (a : Arena α) (id : ElementId) :
    (a.erase id).shape =
      if a.contains id then (a.shape.1.set id.place (id.generation + 1), id.place :: a.shape.2)
      else a.shape := by
  by_cases h : a.contains id = true <;> simp [shape, erase, h, List.map_set]

theorem contains_erase (a : Arena α) (id other : ElementId) :
    (a.erase id).contains other = if other = id then false else a.contains other := by
  simp only [contains, get?_erase]
  split <;> rfl

theorem ne_nextId {a : Arena α} {id : ElementId} (h : a.contains id = true) : id ≠ a.nextId := by
  intro heq
  subst heq
  simp [contains, get?_nextId] at h

theorem modify_insert {a : Arena α} {id : ElementId} (f : α → α) (item : α)
    (h : a.contains id = true) : (a.modify id f).insert item = (a.insert item).modify id f := by
  have hnext : (a.modify id f).nextId = a.nextId := nextId_eq_of_shape (shape_modify a id f)
  refine eq_of_get? ?_ fun other => ?_
  · rw [shape_modify, shape_insert, shape_insert, shape_modify, hnext]
  · rw [get?_insert, get?_modify, get?_modify, get?_insert, hnext, get?_insert,
      if_neg (ne_nextId h)]
    by_cases ho : other = id
    · subst ho
      rw [if_neg (ne_nextId h), if_pos rfl]
      simp
    · simp only [if_neg ho]

def eraseMany (a : Arena α) (ids : List ElementId) : Arena α :=
  ids.foldl erase a

theorem get?_eraseMany (a : Arena α) (ids : List ElementId) (id : ElementId) :
    (a.eraseMany ids).get? id = if id ∈ ids then none else a.get? id := by
  induction ids generalizing a with
  | nil => simp [eraseMany]
  | cons first rest ih =>
      change ((a.erase first).eraseMany rest).get? id = _
      rw [ih, get?_erase]
      by_cases hr : id ∈ rest <;> by_cases hf : id = first <;> simp [hr, hf]

theorem shape_eraseMany {a b : Arena α} (ids : List ElementId) (hshape : a.shape = b.shape)
    (hlive : ∀ id, a.contains id = b.contains id) :
    (a.eraseMany ids).shape = (b.eraseMany ids).shape := by
  induction ids generalizing a b with
  | nil => exact hshape
  | cons first rest ih =>
      refine ih ?_ fun id => ?_
      · rw [shape_erase, shape_erase, hshape, hlive]
      · rw [contains_erase, contains_erase, hlive]

theorem modify_eraseMany {a : Arena α} {id : ElementId} (f : α → α) {ids : List ElementId}
    (h : id ∉ ids) : (a.modify id f).eraseMany ids = (a.eraseMany ids).modify id f := by
  refine eq_of_get? ?_ fun other => ?_
  · rw [shape_modify]
    exact shape_eraseMany ids (shape_modify a id f) fun other => contains_modify a id other f
  · rw [get?_eraseMany, get?_modify, get?_modify, get?_eraseMany, get?_eraseMany, if_neg h]
    by_cases ho : other = id
    · subst ho
      simp [h]
    · simp only [if_neg ho]

end ReportModel.Arena
