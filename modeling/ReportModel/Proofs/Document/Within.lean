import ReportModel.Proofs.Document.Chains

/-!
# Properties of a document and of all within it

What holds of a document and of all libraries within it holds wherever references lead: of the
document of every base, and of that of the theme.
-/

namespace ReportModel.Document

open Relation

variable {P : Document → Prop} {d d' : Document}

/-- A property of a document and of all libraries within it. -/
def Throughout (P : Document → Prop) (d : Document) : Prop :=
  ∀ d', ReflTransGen Includes d d' → P d'

namespace Throughout

theorem self (h : d.Throughout P) : P d :=
  h d .refl

theorem of_includes (h : d.Throughout P) (hd : ReflTransGen Includes d d') : d'.Throughout P :=
  fun _ hd' => h _ (hd.trans hd')

theorem of_libraries (hself : P d) (hlibraries : ∀ library ∈ d.libraries,
    library.content.Throughout P) : d.Throughout P := by
  intro d' hd'
  rcases hd'.cases_head with rfl | ⟨_, ⟨library, hlibrary, rfl⟩, hrest⟩
  · exact hself
  · exact hlibraries library hlibrary d' hrest

theorem follows {new : Option Document} (h : d.Throughout P) (hfollows : d'.Follows d new)
    (hself : P d') (hnew : ∀ library, new = some library → library.Throughout P) :
    d'.Throughout P := by
  apply of_libraries hself
  intro library hlibrary
  rcases hfollows.libraries library hlibrary with hold | hnew'
  · exact h.of_includes (.single ⟨library, hold, rfl⟩)
  · exact hnew _ hnew'

theorem owner {reference : Option String} {document : Document} (h : d.Throughout P)
    (howner : d.owner? reference = some document) : document.Throughout P := by
  cases reference with
  | none => exact Option.some.inj howner ▸ h
  | some nameSpace =>
      obtain ⟨found, hfound, rfl⟩ := Option.map_eq_some_iff.1 howner
      exact h.of_includes (.single ⟨found, List.mem_of_find?_eq_some hfound, rfl⟩)

theorem base {id : ElementId} {b : OwnedElement} (h : d.Throughout P)
    (hbase : d.base? id = some b) : b.document.Throughout P := by
  obtain ⟨_, _, _, _, -, -, howner, -⟩ := base?_eq_some_iff.1 hbase
  exact h.owner howner

end Throughout

theorem theme?_eq_some_iff {theme : OwnedElement} : d.theme? = some theme ↔ ∃ text,
    (d.get? d.root).bind (·.text? Vocabulary.themeProperty) = some text ∧
    d.owner? (Reference.read text).library = some theme.document ∧
    theme.document.tree.find Vocabulary.themeSpace (Reference.read text).name =
      some theme.id := by
  simp only [theme?, Option.bind_eq_some_iff (x := (d.get? d.root).bind _),
    Option.bind_eq_some_iff (x := d.owner? _), Option.map_eq_some_iff]
  constructor
  · rintro ⟨text, htext, owner, howner, id, hid, rfl⟩
    exact ⟨text, htext, howner, hid⟩
  · rintro ⟨text, htext, howner, hid⟩
    exact ⟨text, htext, theme.document, howner, theme.id, hid, rfl⟩

theorem Throughout.theme {theme : OwnedElement} (h : d.Throughout P)
    (htheme : d.theme? = some theme) : theme.document.Throughout P := by
  obtain ⟨_, -, howner, -⟩ := theme?_eq_some_iff.1 htheme
  exact h.owner howner

end ReportModel.Document
