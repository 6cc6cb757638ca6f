/-!
# Edits of lists

Insertion, removal and replacement at an index, each with its inverse.
-/

namespace ReportModel

variable {α : Type}

/-- A list with an item put in front of the one at an index, or at the end if there are not so
many. -/
def insertAt (index : Nat) (item : α) (l : List α) : List α :=
  l.take index ++ item :: l.drop index

inductive ListEdit (α : Type) where
  | insert (index : Nat) (item : α)
  | remove (index : Nat) (item : α)
  | replace (index : Nat) (old new : α)
deriving DecidableEq, Repr

namespace ListEdit

def apply : ListEdit α → List α → List α
  | .insert index item, l => insertAt index item l
  | .remove index _, l => l.eraseIdx index
  | .replace index _ new, l => l.set index new

def inverse : ListEdit α → ListEdit α
  | .insert index item => .remove index item
  | .remove index item => .insert index item
  | .replace index old new => .replace index new old

/-- The item that the list has after the edit, or that it had if the edit removes it. -/
def item : ListEdit α → α
  | .insert _ item => item
  | .remove _ item => item
  | .replace _ _ new => new

@[simp]
theorem inverse_inverse (edit : ListEdit α) : edit.inverse.inverse = edit := by
  cases edit <;> rfl

/-- An edit fits a list if the item it takes away is the one at its index. -/
def Fits (l : List α) : ListEdit α → Prop
  | .insert index _ => index ≤ l.length
  | .remove index item => l[index]? = some item
  | .replace index old _ => l[index]? = some old

theorem apply_inverse_apply {edit : ListEdit α} {l : List α} (h : edit.Fits l) :
    edit.inverse.apply (edit.apply l) = l := by
  cases edit with
  | insert index item =>
    have hlen : (l.take index).length = index := List.length_take_of_le h
    simp only [inverse, apply, insertAt]
    rw [List.eraseIdx_append_of_length_le (by omega), hlen, Nat.sub_self, List.eraseIdx_cons_zero,
      List.take_append_drop]
  | remove index item =>
    obtain ⟨hlt, hget⟩ := List.getElem?_eq_some_iff.1 h
    simp only [inverse, apply, insertAt]
    rw [List.eraseIdx_eq_take_drop_succ, List.take_append_of_le_length (by simp; omega),
      List.drop_append_of_le_length (by simp; omega)]
    simp only [List.take_take, Nat.min_self, List.drop_take, Nat.sub_self, List.take_zero,
      List.nil_append]
    rw [← hget, List.getElem_cons_drop, List.take_append_drop]
  | replace index old new =>
    obtain ⟨hlt, hget⟩ := List.getElem?_eq_some_iff.1 h
    simp only [inverse, apply]
    rw [List.set_set, ← hget, List.set_getElem_self]

end ListEdit

end ReportModel
