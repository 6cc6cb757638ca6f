import ReportModel.Proofs.Editor.Inclusions
import ReportModel.Proofs.Module.Provenance

/-!
# Names of inclusions

Whatever is done with a module, undone and rolled back, no host includes a file twice, and no two
libraries have the same name space. So a stylesheet or a library that is looked up by its name is
the only one of that name, and each one that is included can be found.
-/

namespace ReportModel

/-! ## Lookups by name -/

theorem findIdx?_eq_some_iff_of_nodup {α : Type} {xs : List α} {key : α → String}
    (h : (xs.map key).Nodup) {name : String} {i : Nat} :
    xs.findIdx? (key · = name) = some i ↔ ∃ a, xs[i]? = some a ∧ key a = name := by
  have hplace {j : Nat} (hfound : xs.findIdx? (key · = name) = some j) :
      ∃ a, xs[j]? = some a ∧ key a = name := by
    obtain ⟨hlt, hname, -⟩ := List.findIdx?_eq_some_iff_getElem.1 hfound
    exact ⟨xs[j], List.getElem?_eq_getElem hlt, of_decide_eq_true hname⟩
  refine ⟨hplace, ?_⟩
  rintro ⟨a, hget, hname⟩
  have hsome : (xs.findIdx? (key · = name)).isSome = true := by
    rw [List.findIdx?_isSome, List.any_eq_true]
    exact ⟨a, List.mem_of_getElem? hget, decide_eq_true hname⟩
  obtain ⟨j, hj⟩ := Option.isSome_iff_exists.1 hsome
  obtain ⟨b, hget', hname'⟩ := hplace hj
  -- the names at both places are the same, so the places are
  have hsame : (xs.map key)[i]? = (xs.map key)[j]? := by
    rw [List.getElem?_map, List.getElem?_map, hget, hget', Option.map_some, Option.map_some,
      hname, hname']
  have hlt : i < (xs.map key).length := by
    rw [List.length_map]
    exact (List.getElem?_eq_some_iff.1 hget).1
  rw [hj, (List.getElem?_inj hlt h).1 hsame]

namespace Module

variable {m : Module}

theorem wellIncluded_new {serial : Nat} {rootType : String} {config : Config}
    (h : Module.new serial rootType config = .ok m) : ∀ d ∈ m.documents, d.WellIncluded := by
  intro d hd
  simp only [Module.new] at h
  split at h
  · obtain rfl := Except.ok.inj h
    obtain rfl := List.mem_singleton.1 hd
    refine ⟨fun x hne => absurd ?_ hne, List.nodup_nil⟩
    rw [Document.sheets, Document.get?, Tree.new, Tree.get?, Arena.get?_insert]
    split <;> rfl
  · cases h

theorem Reachable.wellIncluded (h : m.Reachable) : ∀ d ∈ m.documents, d.WellIncluded := by
  induction h with
  | new h => exact wellIncluded_new h
  | next h input ih =>
      refine h.sound.forall_documents_next ih input (fun _ cs hd => hd.createAll cs)
        (fun _ id hd => hd.eraseAll id) ?_
      rintro files command rfl
      exact command.wellIncluded_action files h.sound.history ih

/-- What is included has a name of its own, so that the first inclusion of a name is the only one. A
file that a host includes, and a library, are found by their names and at their places. -/
theorem Reachable.inclusions_unique (h : m.Reachable) :
    (∀ host, ((m.document.sheets host).map (·.fileName)).Nodup) ∧
    (m.document.libraries.map (·.nameSpace)).Nodup ∧
    (∀ host fileName inclusion, m.document.inclusion? host fileName = some inclusion ↔
      inclusion ∈ m.document.sheets host ∧ inclusion.fileName = fileName) ∧
    (∀ host fileName i, m.document.inclusionIndex? host fileName = some i ↔
      ∃ inclusion, (m.document.sheets host)[i]? = some inclusion ∧
        inclusion.fileName = fileName) ∧
    (∀ nameSpace content, m.document.library? nameSpace = some content ↔
      ⟨nameSpace, content⟩ ∈ m.document.libraries) ∧
    ∀ nameSpace i, m.document.libraryIndex? nameSpace = some i ↔
      ∃ library, m.document.libraries[i]? = some library ∧ library.nameSpace = nameSpace := by
  obtain ⟨hhosted, hlibraries⟩ := h.wellIncluded _ m.document_mem_documents
  have hsheets := (h.proper _ m.document_mem_documents).distinct
  refine ⟨hsheets, hlibraries, fun host fileName inclusion => ?_, fun host fileName i => ?_,
    fun nameSpace content => ?_, fun nameSpace i => findIdx?_eq_some_iff_of_nodup hlibraries⟩
  · exact (Dictionary.mem_and_iff_find? (hsheets host)).symm
  · rw [Document.inclusionIndex?]
    split
    · exact findIdx?_eq_some_iff_of_nodup (hsheets host)
    · next hhost =>
      have hnil : m.document.sheets host = [] := by
        by_contra hne
        exact hhost (hhosted host hne)
      simp [hnil]
  · rw [Document.library?, Option.map_eq_some_iff]
    constructor
    · rintro ⟨⟨name, content⟩, hfound, rfl⟩
      obtain ⟨hmem, rfl⟩ := (Dictionary.mem_and_iff_find? hlibraries).2 hfound
      exact hmem
    · intro hmem
      exact ⟨_, (Dictionary.mem_and_iff_find? hlibraries).1 ⟨hmem, rfl⟩, rfl⟩

/-- Two files and a library are included; one of the files is dropped, and that is undone. -/
def stocking : List Input :=
  [.perform .empty (.addSheet ⟨0, 0⟩ { fileName := "plain.css" } ⟨"plain.css", [], []⟩),
    .perform .empty (.addSheet ⟨0, 0⟩ { fileName := "wide.css" } ⟨"wide.css", [], []⟩),
    .perform .empty (.includeLibrary "palette" palette.document),
    .perform .empty (.dropSheet ⟨0, 0⟩ "plain.css"),
    .perform .empty .undo]

/-- The second file is found at its place, and the library is found. -/
theorem inclusions_unique_stocked :
    (blank.run stocking).Reachable ∧
    (blank.run stocking).document.inclusionIndex? ⟨0, 0⟩ "wide.css" = some 1 ∧
    (blank.run stocking).document.library? "palette" = some palette.document := by
  have hreachable := reachable_blank.run stocking
  obtain ⟨-, -, -, hindex, hlibrary, -⟩ := hreachable.inclusions_unique
  refine ⟨hreachable, (hindex ⟨0, 0⟩ "wide.css" 1).2 ?_, (hlibrary "palette" _).2 ?_⟩
  · exact ⟨⟨{ fileName := "wide.css" }, ⟨"wide.css", [], []⟩⟩, by decide +kernel, rfl⟩
  · exact List.mem_singleton.2 rfl

end Module

end ReportModel
