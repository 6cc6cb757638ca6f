import ReportModel.Proofs.Document.Grounded

/-!
# Chains of bases

A chain of bases goes from one element of a document to another or into a library, and never out of
a library. So it comes to no element twice if all trees are grounded and no document is a library
somewhere within itself.
-/

namespace ReportModel

open Relation

namespace OwnedElement

/-- The base that is some bases away from an element, the element itself at first. -/
def nthBase? (r : OwnedElement) : Nat → Option OwnedElement
  | 0 => some r
  | n + 1 => (r.nthBase? n).bind base?

/-- One element has another one as its base. -/
def RestsOn (r s : OwnedElement) : Prop :=
  r.base? = some s

end OwnedElement

namespace Document

variable {d d' : Document} {r s : OwnedElement}

/-- A document is that of a library of another one. -/
def Includes (d d' : Document) : Prop :=
  ∃ library ∈ d.libraries, library.content = d'

/-- Neither a document nor a library somewhere within it is that of a module. -/
def Lacks (d : Document) (serial : Nat) : Prop :=
  ∀ d', ReflTransGen Includes d d' → d'.serial ≠ serial

/-- The tree of a document is grounded, and its libraries are without it. -/
structure Stands (d : Document) : Prop where
  grounded : d.tree.Grounded
  apart : ∀ library ∈ d.libraries, library.content.Lacks d.serial

/-- A document and all libraries within it stand. -/
def Orderly (d : Document) : Prop :=
  ∀ d', ReflTransGen Includes d d' → d'.Stands

theorem Orderly.stands (h : d.Orderly) : d.Stands :=
  h d .refl

theorem Orderly.of_includes (h : d.Orderly) (hd : ReflTransGen Includes d d') : d'.Orderly :=
  fun _ hd' => h _ (hd.trans hd')

theorem Stands.orderly (h : d.Stands) (hlibraries : ∀ library ∈ d.libraries,
    library.content.Orderly) : d.Orderly := by
  intro d' hd'
  rcases hd'.cases_head with rfl | ⟨_, ⟨library, hlibrary, rfl⟩, hrest⟩
  · exact h
  · exact hlibraries library hlibrary d' hrest

theorem Lacks.of_libraries {serial : Nat} (hserial : d.serial ≠ serial)
    (hlibraries : ∀ library ∈ d.libraries, library.content.Lacks serial) : d.Lacks serial := by
  intro d' hd'
  rcases hd'.cases_head with rfl | ⟨_, ⟨library, hlibrary, rfl⟩, hrest⟩
  · exact hserial
  · exact hlibraries library hlibrary d' hrest

theorem Lacks.library {serial : Nat} (h : d.Lacks serial) {library : Library}
    (hlibrary : library ∈ d.libraries) : library.content.Lacks serial :=
  fun d' hd' => h d' (hd'.head ⟨library, hlibrary, rfl⟩)

/-- What a chain of bases comes to is in the same tree, or in a library and then not back. -/
theorem leans_or_includes_of_restsOn (h : TransGen OwnedElement.RestsOn r s) :
    s.document = r.document ∧ TransGen r.document.tree.Leans r.id s.id ∨
      TransGen Includes r.document s.document := by
  induction h with
  | single h =>
      rcases leans_or_library_of_base? h with ⟨heq, hleans⟩ | hlibrary
      · exact Or.inl ⟨heq, .single hleans⟩
      · exact Or.inr (.single hlibrary)
  | tail _ h ih =>
      rcases leans_or_library_of_base? h with ⟨heq, hleans⟩ | hlibrary
      · rw [heq]
        exact ih.imp (fun ih => ⟨ih.1, ih.2.tail (ih.1 ▸ hleans)⟩) id
      -- a library of the document or of a library within it, so not the document itself
      · rcases ih with ⟨heq, -⟩ | ih
        · rw [heq] at hlibrary
          exact Or.inr (.single hlibrary)
        · exact Or.inr (ih.tail hlibrary)

theorem Orderly.not_isSame (h : r.document.Orderly) (hs : TransGen OwnedElement.RestsOn r s) :
    r.isSame s = false := by
  rcases leans_or_includes_of_restsOn hs with ⟨-, hleans⟩ | hincludes
  -- in the same tree it is another element, and otherwise an element of another module
  · have hne : r.id ≠ s.id := by
      intro heq
      rw [← heq] at hleans
      exact h.stands.grounded r.id hleans
    simp [OwnedElement.isSame, hne]
  · obtain ⟨_, ⟨library, hlibrary, rfl⟩, hrest⟩ := TransGen.head'_iff.1 hincludes
    have hne := h.stands.apart library hlibrary s.document hrest
    simp [OwnedElement.isSame, Ne.symm hne]

theorem Orderly.of_restsOn (h : r.document.Orderly)
    (hs : ReflTransGen OwnedElement.RestsOn r s) : s.document.Orderly := by
  rcases reflTransGen_iff_eq_or_transGen.1 hs with rfl | hs
  · exact h
  · rcases leans_or_includes_of_restsOn hs with ⟨heq, -⟩ | hincludes
    · rwa [heq]
    · exact h.of_includes hincludes.to_reflTransGen

end Document

namespace OwnedElement

variable {r a b : OwnedElement} {i j : Nat}

theorem reflTransGen_of_nthBase? (h : r.nthBase? i = some a) : ReflTransGen RestsOn r a := by
  induction i generalizing a with
  | zero =>
      obtain rfl := Option.some.inj h
      exact .refl
  | succ i ih =>
      obtain ⟨b, hb, hbase⟩ := Option.bind_eq_some_iff.1 h
      exact (ih hb).tail hbase

theorem transGen_of_nthBase? (ha : r.nthBase? i = some a) (hb : r.nthBase? j = some b)
    (hij : i < j) : TransGen RestsOn a b := by
  induction j generalizing b with
  | zero => omega
  | succ j ih =>
      obtain ⟨c, hc, hbase⟩ := Option.bind_eq_some_iff.1 hb
      by_cases hi : i = j
      · subst hi
        obtain rfl := Option.some.inj (ha.symm.trans hc)
        exact .single hbase
      · exact (ih hc (by omega)).tail hbase

/-- A chain of bases visits no element twice. -/
theorem eq_of_isSame (h : r.document.Orderly) (ha : r.nthBase? i = some a)
    (hb : r.nthBase? j = some b) (hsame : a.isSame b = true) : i = j := by
  have hapart : ∀ {i j a b}, r.nthBase? i = some a → r.nthBase? j = some b → i < j →
      a.isSame b = false := fun ha hb hij =>
    (h.of_restsOn (reflTransGen_of_nthBase? ha)).not_isSame (transGen_of_nthBase? ha hb hij)
  rcases Nat.lt_trichotomy i j with hij | hij | hij
  · exact absurd ((hapart ha hb hij).symm.trans hsame) (by simp)
  · exact hij
  · have hback : b.isSame a = true := by
      simp only [isSame, Bool.and_eq_true, decide_eq_true_eq] at hsame ⊢
      exact ⟨hsame.1.symm, hsame.2.symm⟩
    exact absurd ((hapart hb ha hij).symm.trans hback) (by simp)

end OwnedElement

namespace Document

/-- A document comes after another one: it is of the same module, it has no libraries but those
of the other one and perhaps a new one, and no loop of bases has been closed. -/
structure Follows (d' d : Document) (new : Option Document) : Prop where
  serial : d'.serial = d.serial
  libraries : ∀ library ∈ d'.libraries, library ∈ d.libraries ∨ new = some library.content
  grounded : d.tree.Grounded → d'.tree.Grounded

namespace Follows

variable {d d' d'' : Document} {new : Option Document} {serial : Nat}

theorem refl (d : Document) (new : Option Document) : d.Follows d new :=
  ⟨rfl, fun _ => Or.inl, id⟩

theorem trans (h : d''.Follows d' new) (h' : d'.Follows d new) : d''.Follows d new where
  serial := h.serial.trans h'.serial
  libraries library hlibrary := (h.libraries library hlibrary).elim (h'.libraries library) Or.inr
  grounded := h.grounded ∘ h'.grounded

theorem of_tree {t : Tree} (h : d.tree.Grounded → t.Grounded) (new : Option Document) :
    ({ d with tree := t } : Document).Follows d new :=
  ⟨rfl, fun _ => Or.inl, h⟩

theorem lacks (h : d'.Follows d new) (hd : d.Lacks serial)
    (hnew : ∀ library, new = some library → library.Lacks serial) : d'.Lacks serial := by
  apply Lacks.of_libraries
  · rw [h.serial]
    exact hd d .refl
  · intro library hlibrary
    rcases h.libraries library hlibrary with hold | hnew'
    · exact hd.library hold
    · exact hnew _ hnew'

theorem orderly (h : d'.Follows d new) (hd : d.Orderly)
    (hnew : ∀ library, new = some library → library.Orderly ∧ library.Lacks d.serial) :
    d'.Orderly := by
  refine Stands.orderly ⟨h.grounded hd.stands.grounded, ?_⟩ ?_
  · intro library hlibrary
    rw [h.serial]
    rcases h.libraries library hlibrary with hold | hnew'
    · exact hd.stands.apart library hold
    · exact (hnew _ hnew').2
  · intro library hlibrary
    rcases h.libraries library hlibrary with hold | hnew'
    · exact hd.of_includes (.single ⟨library, hold, rfl⟩)
    · exact (hnew _ hnew').1

end Follows

end Document

end ReportModel
