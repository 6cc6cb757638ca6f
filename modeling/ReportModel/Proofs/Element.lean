import ReportModel.Element
import ReportModel.ListEdit
import Mathlib.Data.List.Nodup
import Mathlib.Data.List.Perm.Basic

/-!
# Contents of slots

Putting an element into a slot and taking it out again, as seen in the slot, in the other slots and
in the list of all that is inside.
-/

namespace ReportModel

variable {α : Type}

theorem perm_insertAt (index : Nat) (item : α) (l : List α) :
    (insertAt index item l).Perm (item :: l) := by
  have h : (l.take index ++ item :: l.drop index).Perm (item :: (l.take index ++ l.drop index)) :=
    List.perm_middle
  rwa [List.take_append_drop] at h

@[simp]
theorem mem_insertAt {index : Nat} {item x : α} {l : List α} :
    x ∈ insertAt index item l ↔ x = item ∨ x ∈ l := by
  rw [(perm_insertAt index item l).mem_iff, List.mem_cons]

@[simp]
theorem length_insertAt (index : Nat) (item : α) (l : List α) :
    (insertAt index item l).length = l.length + 1 :=
  (perm_insertAt index item l).length_eq

theorem getElem?_insertAt {index : Nat} {item : α} {l : List α} (h : index ≤ l.length) :
    (insertAt index item l)[index]? = some item := by
  have hlen : (l.take index).length = index := List.length_take_of_le h
  rw [insertAt, List.getElem?_append_right (by omega), hlen, Nat.sub_self]
  rfl

theorem getElem?_concat_eq_some {l : List α} {a b : α} {i : Nat} :
    (l ++ [a])[i]? = some b ↔ l[i]? = some b ∨ i = l.length ∧ a = b := by
  grind

theorem erase_insertAt [DecidableEq α] {index : Nat} {item : α} {l : List α} (h : item ∉ l) :
    (insertAt index item l).erase item = l := by
  have hfront : item ∉ l.take index := fun hm => h (List.mem_of_mem_take hm)
  rw [insertAt, List.erase_append_right _ hfront, List.erase_cons_head, List.take_append_drop]

theorem insertAt_erase [DecidableEq α] {index : Nat} {item : α} {l : List α} (hnd : l.Nodup)
    (h : l[index]? = some item) : insertAt index item (l.erase item) = l := by
  have herase : l.erase item = l.eraseIdx index := by
    obtain ⟨hlt, hget⟩ := List.getElem?_eq_some_iff.1 h
    rw [← hget]
    exact hnd.erase_getElem index hlt
  have hfits : (ListEdit.remove index item).Fits l := h
  rw [herase]
  exact ListEdit.apply_inverse_apply hfits

namespace Element

@[simp]
theorem map_name_updateSlot (slot : String) (f : List ElementId → List ElementId)
    (slots : List Slot) : (updateSlot slot f slots).map (·.name) = slots.map (·.name) := by
  induction slots with
  | nil => rfl
  | cons s rest ih =>
      simp only [updateSlot]
      split <;> simp [ih]

theorem slot?_withSlot (e : Element) (slot other : String)
    (f : List ElementId → List ElementId) :
    (e.withSlot slot f).slot? other =
      if other = slot then (e.slot? slot).map f else e.slot? other := by
  simp only [slot?, withSlot]
  induction e.slots with
  | nil => simp [updateSlot]
  | cons s rest ih =>
      simp only [updateSlot]
      by_cases hs : s.name = slot
      · rw [if_pos hs]
        by_cases ho : other = slot
        · simp [hs, ho]
        · have : ¬ s.name = other := fun h => ho (h ▸ hs)
          simp [hs, ho, Ne.symm ho]
      · rw [if_neg hs]
        by_cases hso : s.name = other
        · have : other ≠ slot := fun h => hs (hso.trans h)
          simp [hso, this]
        · simp only [List.find?_cons, hso, decide_false] at ih ⊢
          rw [ih]
          simp [hs]

theorem withSlot_withSlot (e : Element) (slot : String)
    (f g : List ElementId → List ElementId) :
    (e.withSlot slot f).withSlot slot g = e.withSlot slot (g ∘ f) := by
  simp only [withSlot]
  congr 1
  induction e.slots with
  | nil => rfl
  | cons s rest ih =>
      by_cases hs : s.name = slot <;> simp [updateSlot, hs, ih]

theorem withSlot_eq_self {e : Element} {slot : String} {f : List ElementId → List ElementId}
    (h : ∀ l, e.slot? slot = some l → f l = l) : e.withSlot slot f = e := by
  obtain ⟨_, _, _, _, _, slots, _, _⟩ := e
  simp only [withSlot, slot?, Element.mk.injEq, true_and, and_true] at h ⊢
  induction slots with
  | nil => rfl
  | cons s rest ih =>
      simp only [updateSlot]
      by_cases hs : s.name = slot
      · rw [if_pos hs, h s.contents (by simp [hs])]
      · rw [if_neg hs, ih]
        intro l hl
        exact h l (by simpa [hs] using hl)

theorem mem_slots_of_slot? {e : Element} {slot : String} {l : List ElementId}
    (h : e.slot? slot = some l) : ⟨slot, l⟩ ∈ e.slots := by
  obtain ⟨s, hs, rfl⟩ := Option.map_eq_some_iff.1 h
  have hname : s.name = slot := by simpa using List.find?_some hs
  have hmem := List.mem_of_find?_eq_some hs
  cases s
  simp only at hname
  exact hname ▸ hmem

theorem isSome_slot?_iff {e : Element} {slot : String} :
    (e.slot? slot).isSome = true ↔ slot ∈ e.slots.map (·.name) := by
  simp only [slot?, Option.isSome_map, List.find?_isSome, decide_eq_true_eq, List.mem_map]

theorem mem_children {e : Element} {x : ElementId} :
    x ∈ e.children ↔ ∃ s ∈ e.slots, x ∈ s.contents := by
  simp [children]

theorem contents_sublist_children {e : Element} {slot : String} {l : List ElementId}
    (h : e.slot? slot = some l) : l.Sublist e.children := by
  obtain ⟨before, after, hsplit⟩ := List.append_of_mem (mem_slots_of_slot? h)
  rw [children, hsplit, List.flatMap_append, List.flatMap_cons]
  exact (List.sublist_append_left _ _).trans (List.sublist_append_right _ _)

theorem slot_eq_of_mem {e : Element} (hnd : e.children.Nodup) {s s' : Slot} {x : ElementId}
    (hs : s ∈ e.slots) (hs' : s' ∈ e.slots) (hx : x ∈ s.contents) (hx' : x ∈ s'.contents) :
    s = s' := by
  simp only [children] at hnd
  generalize e.slots = slots at hnd hs hs'
  induction slots with
  | nil => simp at hs
  | cons first rest ih =>
      rw [List.flatMap_cons, List.nodup_append] at hnd
      obtain ⟨-, hrest, hdisjoint⟩ := hnd
      rcases List.mem_cons.1 hs with rfl | hin <;> rcases List.mem_cons.1 hs' with rfl | hin'
      · rfl
      · exact absurd rfl (hdisjoint x hx x (List.mem_flatMap.2 ⟨s', hin', hx'⟩))
      · exact absurd rfl (hdisjoint x hx' x (List.mem_flatMap.2 ⟨s, hin, hx⟩))
      · exact ih hrest hin hin'

theorem children_withSlot_perm {e : Element} {slot : String}
    {f : List ElementId → List ElementId} {l : List ElementId} (gone come : List ElementId)
    (h : e.slot? slot = some l) (hf : (gone ++ f l).Perm (come ++ l)) :
    (gone ++ (e.withSlot slot f).children).Perm (come ++ e.children) := by
  simp only [withSlot, slot?, children] at h ⊢
  generalize e.slots = slots at h ⊢
  induction slots with
  | nil => simp at h
  | cons s rest ih =>
      simp only [updateSlot]
      by_cases hs : s.name = slot
      · have hl : s.contents = l := by simpa [hs] using h
        subst hl
        rw [if_pos hs, List.flatMap_cons, List.flatMap_cons, ← List.append_assoc,
          ← List.append_assoc]
        exact hf.append_right _
      · have hrest := ih (by simpa [hs] using h)
        rw [if_neg hs, List.flatMap_cons, List.flatMap_cons]
        calc (gone ++ (s.contents ++ (updateSlot slot f rest).flatMap (·.contents))).Perm
              (s.contents ++ (gone ++ (updateSlot slot f rest).flatMap (·.contents))) := by
              rw [← List.append_assoc, ← List.append_assoc]
              exact List.perm_append_comm.append_right _
          _ |>.Perm (s.contents ++ (come ++ rest.flatMap (·.contents))) := hrest.append_left _
          _ |>.Perm (come ++ (s.contents ++ rest.flatMap (·.contents))) := by
              rw [← List.append_assoc, ← List.append_assoc]
              exact List.perm_append_comm.append_right _

theorem children_insert_perm {e : Element} {slot : String} {l : List ElementId} (index : Nat)
    (x : ElementId) (h : e.slot? slot = some l) :
    (e.withSlot slot (insertAt index x)).children.Perm (x :: e.children) :=
  children_withSlot_perm [] [x] h (perm_insertAt index x l)

theorem children_erase_perm {e : Element} {slot : String} {l : List ElementId} {x : ElementId}
    (h : e.slot? slot = some l) (hx : x ∈ l) :
    (x :: (e.withSlot slot (·.erase x)).children).Perm e.children :=
  children_withSlot_perm [x] [] h (List.perm_cons_erase hx).symm

end Element

end ReportModel
