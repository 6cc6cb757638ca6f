import ReportModel.Text.Order

/-!
# Sorted maps

Finite maps as lists of entries in the order of their keys, each key once. Two maps with the same
lookups are equal, and listing a map needs no sorting.
-/

namespace ReportModel

variable {κ α : Type} [Ordered κ]

/-- A finite map from keys to values, listed in the order of the keys. -/
structure SortedMap (κ α : Type) [Ordered κ] where
  entries : List (κ × α)
  sorted : entries.Pairwise fun a b => Ordered.before a.1 b.1 = true := by exact List.Pairwise.nil

namespace SortedMap

instance [DecidableEq κ] [DecidableEq α] : DecidableEq (SortedMap κ α) := fun m n =>
  decidable_of_iff (m.entries = n.entries) (by cases m; cases n; simp)

def empty : SortedMap κ α where
  entries := []

instance : Inhabited (SortedMap κ α) := ⟨empty⟩

def get? [DecidableEq κ] (m : SortedMap κ α) (k : κ) : Option α :=
  (m.entries.find? (·.1 = k)).map (·.2)

def contains [DecidableEq κ] (m : SortedMap κ α) (k : κ) : Bool :=
  (m.get? k).isSome

def insertEntry [DecidableEq κ] (k : κ) (v : α) : List (κ × α) → List (κ × α)
  | [] => [(k, v)]
  | entry :: rest =>
    if k = entry.1 then (k, v) :: rest
    else if Ordered.before k entry.1 then (k, v) :: entry :: rest
    else entry :: insertEntry k v rest

theorem mem_insertEntry [DecidableEq κ] {k : κ} {v : α} {l : List (κ × α)} {e : κ × α}
    (h : e ∈ insertEntry k v l) : e = (k, v) ∨ e ∈ l := by
  induction l with
  | nil => simpa [insertEntry] using h
  | cons entry rest ih =>
    simp only [insertEntry] at h
    split at h
    · rcases List.mem_cons.1 h with h | h
      · exact Or.inl h
      · exact Or.inr (List.mem_cons_of_mem _ h)
    · split at h
      · exact (List.mem_cons.1 h).imp id id
      · rcases List.mem_cons.1 h with h | h
        · exact Or.inr (h ▸ List.mem_cons_self)
        · exact (ih h).imp id (List.mem_cons_of_mem _)

theorem pairwise_insertEntry [DecidableEq κ] {k : κ} {v : α} {l : List (κ × α)}
    (h : l.Pairwise fun a b => Ordered.before a.1 b.1 = true) :
    (insertEntry k v l).Pairwise fun a b => Ordered.before a.1 b.1 = true := by
  induction l with
  | nil => simp [insertEntry]
  | cons entry rest ih =>
    obtain ⟨hhead, htail⟩ := List.pairwise_cons.1 h
    simp only [insertEntry]
    split
    · next heq => exact List.pairwise_cons.2 ⟨fun e he => heq ▸ hhead e he, htail⟩
    · next hne =>
      split
      · next hbefore =>
        refine List.pairwise_cons.2 ⟨fun e he => ?_, h⟩
        rcases List.mem_cons.1 he with rfl | he
        · exact hbefore
        · exact Ordered.trans _ _ _ hbefore (hhead e he)
      · next hbefore =>
        refine List.pairwise_cons.2 ⟨fun e he => ?_, ih htail⟩
        rcases mem_insertEntry he with rfl | he
        · cases hback : Ordered.before entry.1 k with
          | true => rfl
          | false => exact absurd (Ordered.connected _ _ (by simpa using hbefore) hback) hne
        · exact hhead e he

def insert [DecidableEq κ] (m : SortedMap κ α) (k : κ) (v : α) : SortedMap κ α where
  entries := insertEntry k v m.entries
  sorted := pairwise_insertEntry m.sorted

def erase [DecidableEq κ] (m : SortedMap κ α) (k : κ) : SortedMap κ α where
  entries := m.entries.filter (·.1 ≠ k)
  sorted := m.sorted.filter _

def put [DecidableEq κ] (m : SortedMap κ α) (k : κ) : Option α → SortedMap κ α
  | some v => m.insert k v
  | none => m.erase k

/-- The map of a list of entries, of which later ones win. -/
def ofList [DecidableEq κ] (l : List (κ × α)) : SortedMap κ α :=
  l.foldl (fun m e => m.insert e.1 e.2) empty

def map {β : Type} (m : SortedMap κ α) (f : α → β) : SortedMap κ β where
  entries := m.entries.map fun e => (e.1, f e.2)
  sorted := List.pairwise_map.2 m.sorted

def size (m : SortedMap κ α) : Nat :=
  m.entries.length

def isEmpty (m : SortedMap κ α) : Bool :=
  m.entries.isEmpty

theorem find?_insertEntry [DecidableEq κ] (k j : κ) (v : α) (l : List (κ × α)) :
    (insertEntry k v l).find? (·.1 = j) =
      if k = j then some (k, v) else l.find? (·.1 = j) := by
  induction l with
  | nil => by_cases h : k = j <;> simp [insertEntry, h]
  | cons entry rest ih =>
    simp only [insertEntry]
    by_cases hk : k = entry.1
    · rw [if_pos hk]
      by_cases hj : k = j
      · simp [hj]
      · have : entry.1 ≠ j := fun h => hj (hk.trans h)
        simp [hj, this]
    · rw [if_neg hk]
      split
      · by_cases hj : k = j <;> simp [hj]
      · rw [List.find?_cons, List.find?_cons, ih]
        by_cases hj : k = j
        · subst hj
          have : entry.1 ≠ k := fun h => hk h.symm
          simp [this]
        · simp [hj]

@[simp]
theorem get?_insert [DecidableEq κ] (m : SortedMap κ α) (k j : κ) (v : α) :
    (m.insert k v).get? j = if k = j then some v else m.get? j := by
  simp only [get?, insert, find?_insertEntry]
  split <;> rfl

@[simp]
theorem get?_erase [DecidableEq κ] (m : SortedMap κ α) (k j : κ) :
    (m.erase k).get? j = if k = j then none else m.get? j := by
  simp only [get?, erase, List.find?_filter]
  by_cases h : k = j
  · subst h
    simp
  · rw [if_neg h]
    congr 2
    funext e
    by_cases he : e.1 = j
    · simp [he]
      exact fun h' => h h'.symm
    · simp [he]

@[simp]
theorem get?_empty [DecidableEq κ] (k : κ) : (empty : SortedMap κ α).get? k = none :=
  rfl

@[simp]
theorem get?_put [DecidableEq κ] (m : SortedMap κ α) (k j : κ) (v : Option α) :
    (m.put k v).get? j = if k = j then v else m.get? j := by
  cases v <;> simp [put]

private theorem find?_eq_none_of_before [DecidableEq κ] {k : κ} {l : List (κ × α)}
    (h : ∀ e ∈ l, Ordered.before k e.1 = true) : l.find? (·.1 = k) = none := by
  refine List.find?_eq_none.2 fun e he hk => ?_
  have hbefore := h e he
  rw [of_decide_eq_true hk, Ordered.irrefl] at hbefore
  exact Bool.noConfusion hbefore

private theorem entries_eq_of_lookup [DecidableEq κ] {l l' : List (κ × α)}
    (hl : l.Pairwise fun a b => Ordered.before a.1 b.1 = true)
    (hl' : l'.Pairwise fun a b => Ordered.before a.1 b.1 = true)
    (h : ∀ k, (l.find? (·.1 = k)).map (·.2) = (l'.find? (·.1 = k)).map (·.2)) : l = l' := by
  induction l generalizing l' with
  | nil =>
    cases l' with
    | nil => rfl
    | cons e l' => simpa using h e.1
  | cons e l ih =>
    cases l' with
    | nil => simpa using h e.1
    | cons e' l' =>
      obtain ⟨hhead, htail⟩ := List.pairwise_cons.1 hl
      obtain ⟨hhead', htail'⟩ := List.pairwise_cons.1 hl'
      by_cases hkey : e.1 = e'.1
      · have hval : e.2 = e'.2 := by simpa [hkey] using h e.1
        have heq : e = e' := Prod.ext hkey hval
        subst heq
        congr 1
        refine ih htail htail' fun k => ?_
        by_cases hk : e.1 = k
        · subst hk
          rw [find?_eq_none_of_before hhead, find?_eq_none_of_before hhead']
        · simpa [hk] using h k
      · -- of two different keys in front, the lesser one has no entry in the other list
        cases hlt : Ordered.before e.1 e'.1 with
        | true =>
          have hnone : (e' :: l').find? (·.1 = e.1) = none :=
            find?_eq_none_of_before fun x hx => by
              rcases List.mem_cons.1 hx with rfl | hx
              · exact hlt
              · exact Ordered.trans _ _ _ hlt (hhead' x hx)
          have := h e.1
          rw [hnone] at this
          simp at this
        | false =>
          have hgt : Ordered.before e'.1 e.1 = true := by
            cases hgt : Ordered.before e'.1 e.1 with
            | true => rfl
            | false => exact absurd (Ordered.connected _ _ hlt hgt) hkey
          have hnone : (e :: l).find? (·.1 = e'.1) = none :=
            find?_eq_none_of_before fun x hx => by
              rcases List.mem_cons.1 hx with rfl | hx
              · exact hgt
              · exact Ordered.trans _ _ _ hgt (hhead x hx)
          have := h e'.1
          rw [hnone] at this
          simp at this

theorem eq_of_get? [DecidableEq κ] {m n : SortedMap κ α} (h : ∀ k, m.get? k = n.get? k) :
    m = n := by
  obtain ⟨l, hl⟩ := m
  obtain ⟨l', hl'⟩ := n
  have := entries_eq_of_lookup hl hl' h
  subst this
  rfl

end SortedMap

end ReportModel
