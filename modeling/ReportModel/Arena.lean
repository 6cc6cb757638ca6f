/-!
# Arenas

An arena keeps items under ids that stay valid until the item is erased. The place of an erased item
is taken again, the place freed last first, under an id of the next generation, so that an old id
never denotes a new item.
-/

namespace ReportModel

/-- The id of an item: its place in the arena and how often the place has been freed before. -/
structure ElementId where
  place : Nat
  generation : Nat
deriving DecidableEq, Repr, Inhabited

namespace ElementId

/-- The text of an id: the place counted from one, and the count of changes of hands of the place,
which is odd while it is in use. -/
def text (id : ElementId) : String :=
  toString (id.place + 1) ++ "v" ++ toString (2 * id.generation + 1)

/-- An id that no item ever has: the last place of an index of 32 bits. -/
def null : ElementId := ⟨0xfffffffe, 0⟩

/-- An id as messages name it. The id of no item is named by that. -/
def describe (id : ElementId) : String :=
  "ElementId(" ++ (if id = null then "null" else id.text) ++ ")"

end ElementId

structure Cell (α : Type) where
  generation : Nat
  content : Option α
deriving DecidableEq, Repr

/-- Items under ids. The vacant places are listed, the one freed last in front. -/
structure Arena (α : Type) where
  cells : List (Cell α)
  vacant : List Nat
  vacant_empty : ∀ i ∈ vacant, ∃ g, cells[i]? = some ⟨g, none⟩
  vacant_nodup : vacant.Nodup

namespace Arena

variable {α : Type}

instance [DecidableEq α] : DecidableEq (Arena α) := fun a b =>
  decidable_of_iff (a.cells = b.cells ∧ a.vacant = b.vacant) (by cases a; cases b; simp)

def empty : Arena α where
  cells := []
  vacant := []
  vacant_empty := by simp
  vacant_nodup := List.nodup_nil

instance : Inhabited (Arena α) := ⟨empty⟩

def get? (a : Arena α) (id : ElementId) : Option α :=
  match a.cells[id.place]? with
  | some cell => if cell.generation = id.generation then cell.content else none
  | none => none

def contains (a : Arena α) (id : ElementId) : Bool :=
  (a.get? id).isSome

def size (a : Arena α) : Nat :=
  a.cells.countP (·.content.isSome)

/-- How many places there are, which no set of items exceeds. -/
def capacity (a : Arena α) : Nat :=
  a.cells.length

def nextId (a : Arena α) : ElementId :=
  match a.vacant with
  | [] => ⟨a.cells.length, 0⟩
  | i :: _ => ⟨i, (a.cells[i]?.map (·.generation)).getD 0⟩

/-- The arena with one more item, under the next id. -/
def insert (a : Arena α) (item : α) : Arena α where
  cells := match a.vacant with
    | [] => a.cells ++ [⟨0, some item⟩]
    | i :: _ => a.cells.set i ⟨a.nextId.generation, some item⟩
  vacant := a.vacant.tail
  vacant_empty := by
    intro j hj
    split
    · next hv => simp [hv] at hj
    · next i rest hv =>
      rw [hv, List.tail_cons] at hj
      have hnodup := a.vacant_nodup
      rw [hv, List.nodup_cons] at hnodup
      have hne : i ≠ j := fun h => hnodup.1 (h ▸ hj)
      rw [List.getElem?_set_ne hne]
      exact a.vacant_empty j (hv ▸ List.mem_cons_of_mem i hj)
  vacant_nodup := a.vacant_nodup.sublist (List.tail_sublist _)

theorem getElem?_of_get? {a : Arena α} {id : ElementId} {item : α} (h : a.get? id = some item) :
    a.cells[id.place]? = some ⟨id.generation, some item⟩ := by
  simp only [get?] at h
  split at h
  · next cell hcell =>
    split at h
    · next hgen =>
      rw [hcell]
      cases cell
      simp_all
    · simp at h
  · simp at h

def erase (a : Arena α) (id : ElementId) : Arena α where
  cells := if a.contains id then a.cells.set id.place ⟨id.generation + 1, none⟩ else a.cells
  vacant := if a.contains id then id.place :: a.vacant else a.vacant
  vacant_empty := by
    intro j hj
    split
    · next h =>
      rw [if_pos h] at hj
      obtain ⟨item, hitem⟩ := Option.isSome_iff_exists.1 h
      obtain ⟨hlt, -⟩ := List.getElem?_eq_some_iff.1 (getElem?_of_get? hitem)
      by_cases hne : id.place = j
      · subst hne
        exact ⟨_, List.getElem?_set_self hlt⟩
      · rw [List.getElem?_set_ne hne]
        rcases List.mem_cons.1 hj with h | h
        · exact absurd h.symm hne
        · exact a.vacant_empty j h
    · next h =>
      rw [if_neg h] at hj
      exact a.vacant_empty j hj
  vacant_nodup := by
    split
    · next h =>
      obtain ⟨item, hitem⟩ := Option.isSome_iff_exists.1 h
      refine List.nodup_cons.2 ⟨fun hv => ?_, a.vacant_nodup⟩
      obtain ⟨g, hg⟩ := a.vacant_empty _ hv
      rw [getElem?_of_get? hitem] at hg
      simp at hg
    · exact a.vacant_nodup

def modify (a : Arena α) (id : ElementId) (f : α → α) : Arena α where
  cells := a.cells.modify id.place fun cell =>
    if cell.generation = id.generation then { cell with content := cell.content.map f } else cell
  vacant := a.vacant
  vacant_empty := by
    intro i hi
    obtain ⟨g, hg⟩ := a.vacant_empty i hi
    rw [List.getElem?_modify, hg]
    by_cases h : id.place = i
    · by_cases hgen : g = id.generation <;> simp [h, hgen]
    · simp [h]
  vacant_nodup := a.vacant_nodup

theorem get?_modify (a : Arena α) (id other : ElementId) (f : α → α) :
    (a.modify id f).get? other = if other = id then (a.get? id).map f else a.get? other := by
  simp only [get?, modify, List.getElem?_modify]
  by_cases hplace : id.place = other.place
  · rw [hplace]
    cases hcell : a.cells[other.place]? with
    | none => by_cases h : other = id <;> simp [h]
    | some cell =>
      by_cases h : other = id
      · subst h
        by_cases hgen : cell.generation = other.generation <;> simp [hgen]
      · have hgen : id.generation ≠ other.generation := fun hg => h (by
          cases id; cases other; simp_all)
        by_cases hcur : cell.generation = id.generation
        · simp [h, hcur, hgen]
        · simp [h, hcur]
  · have h : other ≠ id := fun heq => hplace (heq ▸ rfl)
    cases hcell : a.cells[other.place]? <;> simp [h, hplace]

theorem get?_nextId (a : Arena α) : a.get? a.nextId = none := by
  cases hv : a.vacant with
  | nil => simp [get?, nextId, hv]
  | cons i rest =>
    obtain ⟨g, hg⟩ := a.vacant_empty i (by simp [hv])
    simp [get?, nextId, hv, hg]

theorem get?_insert (a : Arena α) (item : α) (id : ElementId) :
    (a.insert item).get? id = if id = a.nextId then some item else a.get? id := by
  cases hv : a.vacant with
  | nil =>
    have hid : a.nextId = ⟨a.cells.length, 0⟩ := by simp [nextId, hv]
    simp only [get?, insert, hv, hid]
    rcases Nat.lt_trichotomy id.place a.cells.length with hlt | heq | hgt
    · have hne : id ≠ ⟨a.cells.length, 0⟩ := fun h => by simp [h] at hlt
      rw [List.getElem?_append_left hlt, if_neg hne]
    · rw [heq, List.getElem?_append_right (Nat.le_refl _)]
      by_cases hgen : id.generation = 0
      · have : id = ⟨a.cells.length, 0⟩ := by cases id; simp_all
        simp [this]
      · have hne : id ≠ ⟨a.cells.length, 0⟩ := fun h => hgen (by rw [h])
        simp [hne, Ne.symm hgen]
    · have hne : id ≠ ⟨a.cells.length, 0⟩ := fun h => by simp [h] at hgt
      rw [List.getElem?_append_right (Nat.le_of_lt hgt), if_neg hne,
        List.getElem?_eq_none (Nat.le_of_lt hgt), List.getElem?_eq_none (by simp; omega)]
  | cons i rest =>
    obtain ⟨g, hg⟩ := a.vacant_empty i (by simp [hv])
    have hid : a.nextId = ⟨i, g⟩ := by simp [nextId, hv, hg]
    simp only [get?, insert, hv, hid]
    obtain ⟨hlt, -⟩ := List.getElem?_eq_some_iff.1 hg
    by_cases hplace : i = id.place
    · subst hplace
      rw [List.getElem?_set_self hlt, hg]
      by_cases hgen : g = id.generation
      · have : id = ⟨id.place, g⟩ := by cases id; simp_all
        simp [hgen]
      · have hne : id ≠ ⟨id.place, g⟩ := fun h => hgen (by rw [h])
        simp [hne, hgen]
    · have hne : id ≠ ⟨i, g⟩ := fun h => hplace (by rw [h])
      rw [List.getElem?_set_ne hplace, if_neg hne]

theorem get?_erase (a : Arena α) (id other : ElementId) :
    (a.erase id).get? other = if other = id then none else a.get? other := by
  by_cases hin : a.contains id = true
  · obtain ⟨item, hitem⟩ := Option.isSome_iff_exists.1 hin
    have hcell := getElem?_of_get? hitem
    obtain ⟨hlt, -⟩ := List.getElem?_eq_some_iff.1 hcell
    simp only [get?, erase, hin, if_true]
    by_cases hplace : id.place = other.place
    · rw [← hplace, List.getElem?_set_self hlt, hcell]
      by_cases h : other = id
      · simp [h]
      · have hgen : id.generation ≠ other.generation := fun hg => h (by
          cases id; cases other; simp_all)
        simp [h, hgen]
    · have h : other ≠ id := fun heq => hplace (heq ▸ rfl)
      rw [List.getElem?_set_ne hplace, if_neg h]
  · have hnone : a.get? id = none := by simpa [contains] using hin
    have hsame : (a.erase id).get? other = a.get? other := by simp [get?, erase, hin]
    rw [hsame]
    by_cases h : other = id
    · rw [if_pos h, h, hnone]
    · rw [if_neg h]

end Arena

end ReportModel
