import ReportModel.Proofs.Css.Values
import ReportModel.Proofs.Tree.Bare

/-!
# What elements hold

An element conforms to a standard if the standard admits every value and every stylesheet it has,
and if the type of the element defines every property that has a mask there. Whatever moves,
renames, adds or takes out elements keeps that; so does a change of an element that keeps it.
-/

namespace ReportModel

/-- What the elements of a module are held to. -/
structure Standard where
  dictionary : Dictionary
  /-- What a property of a type may hold. -/
  admits : String → String → Value → Prop
  /-- What stylesheets may be included. -/
  admitsSheet : Css.StyleSheet → Prop
  admits_of_isNormal : ∀ {typeName property v}, dictionary.IsNormal typeName property v →
    admits typeName property v
  admitsSheet_compile : ∀ {fileName rules sheet},
    Css.StyleSheet.compile fileName dictionary rules = .ok sheet → admitsSheet sheet

namespace Standard

/-- All values of a stylesheet may be held by styles. -/
def AdmitsStyles (standard : Standard) (sheet : Css.StyleSheet) : Prop :=
  ∀ style ∈ sheet.styles, ∀ entry ∈ style.properties,
    standard.admits Vocabulary.styleType entry.1 entry.2

def lenient (dictionary : Dictionary) : Standard where
  dictionary := dictionary
  admits _ _ _ := True
  admitsSheet _ := True
  admits_of_isNormal _ := trivial
  admitsSheet_compile _ := trivial

def normal (dictionary : Dictionary) : Standard where
  dictionary := dictionary
  admits := dictionary.IsNormal
  admitsSheet _ := True
  admits_of_isNormal := id
  admitsSheet_compile _ := trivial

/-- Values have to be normal, those of stylesheets too. -/
def strict (dictionary : Dictionary) : Standard where
  dictionary := dictionary
  admits := dictionary.IsNormal
  admitsSheet := Css.StyleSheet.IsNormal dictionary
  admits_of_isNormal := id
  admitsSheet_compile := Css.StyleSheet.isNormal_compile

end Standard

/-- What an element holds is admitted, and it includes each file once. -/
structure Element.Conforms (standard : Standard) (e : Element) : Prop where
  values : ∀ {property v}, e.value? property = some v → standard.admits e.typeName property v
  masks : ∀ {property mask}, e.mask? property = some mask →
    (standard.dictionary.property? e.typeName property).isSome = true
  sheets : ∀ inclusion ∈ e.sheets, standard.admitsSheet inclusion.sheet
  distinct : (e.sheets.map (·.fileName)).Nodup

theorem Element.conforms_bare_iff {standard : Standard} {e : Element} :
    e.bare.Conforms standard ↔ e.Conforms standard :=
  ⟨fun h => ⟨h.values, h.masks, h.sheets, h.distinct⟩,
    fun h => ⟨h.values, h.masks, h.sheets, h.distinct⟩⟩

theorem Element.conforms_create (standard : Standard) (typeName : String) (name : Option String) :
    (Element.create standard.dictionary typeName name).Conforms standard where
  values h := nomatch h
  masks h := nomatch h
  sheets _ h := nomatch h
  distinct := List.nodup_nil

namespace Tree

/-- A tree has the dictionary of a standard, and all its elements conform. -/
structure Conforms (standard : Standard) (t : Tree) : Prop where
  dictionary_eq : t.dictionary = standard.dictionary
  elements : ∀ {id e}, t.get? id = some e → e.Conforms standard

variable {standard : Standard} {t : Tree} {id : ElementId}

theorem conforms_new (rootType : String) :
    (Tree.new standard.dictionary rootType).Conforms standard where
  dictionary_eq := rfl
  elements {id e} h := by
    rw [Tree.new, Tree.get?, Arena.get?_insert] at h
    split at h
    · obtain rfl := Option.some.inj h
      exact Element.conforms_create standard rootType none
    · cases h

namespace Conforms

variable (h : t.Conforms standard)
include h

theorem of_sameBare {t' : Tree} (hsame : t.SameBare t') : t'.Conforms standard where
  dictionary_eq := hsame.dictionary.trans h.dictionary_eq
  elements {x e'} he' := by
    obtain ⟨e, he, hbare⟩ := hsame.symm.exists_get? he'
    rw [← Element.conforms_bare_iff, ← hbare, Element.conforms_bare_iff]
    exact h.elements he

theorem modify (id : ElementId) {f : Element → Element}
    (hf : ∀ e, t.get? id = some e → e.Conforms standard →
      (f e).Conforms standard) : (t.modify id f).Conforms standard where
  dictionary_eq := h.dictionary_eq
  elements {x e'} he' := by
    rw [Tree.modify, Tree.get?, Arena.get?_modify] at he'
    split at he'
    · obtain ⟨e, he, rfl⟩ := Option.map_eq_some_iff.1 he'
      exact hf e he (h.elements he)
    · exact h.elements he'

theorem create (typeName : String) (name : Option String) :
    (t.create typeName name).Conforms standard where
  dictionary_eq := h.dictionary_eq
  elements {x e} he := by
    rw [get?_create] at he
    split at he
    · obtain rfl := Option.some.inj he
      rw [h.dictionary_eq]
      exact Element.conforms_create standard typeName name
    · exact h.elements he

theorem eraseAll (id : ElementId) : (t.eraseAll id).Conforms standard where
  dictionary_eq := h.dictionary_eq
  elements {x e} he := by
    rw [get?_eraseAll] at he
    split at he
    · cases he
    · exact h.elements he

end Conforms

end Tree

end ReportModel
