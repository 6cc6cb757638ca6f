import ReportModel.Proofs.Listing
import ReportModel.Proofs.Document.Provenance
import ReportModel.Proofs.Editor.Conforms

/-!
# The kinds of effective values

Wherever an effective value comes from, it is normal for the property as some type defines it. In
the dictionary of report designs a style property is of one kind for all types, so that the value is
normal for the element that uses it too.
-/

namespace ReportModel

variable {dictionary : Dictionary} {property : String} {r : OwnedElement} {v : Value}
  {source : Source}

/-- A document is proper, and its elements hold normal values only. -/
structure Document.Uniform (dictionary : Dictionary) (d : Document) : Prop where
  proper : d.Proper
  conforms : d.tree.Conforms (.strict dictionary)

theorem HoldsInStyle.exists_isNormal {host : OwnedElement} {name : String}
    (h : HoldsInStyle property host name v) (hhost : host.document.Uniform dictionary) :
    ∃ typeName, dictionary.IsNormal typeName property v := by
  obtain ⟨style, hstyle, -, hvalue⟩ := h
  obtain ⟨id, -, hget⟩ := List.mem_filterMap.1 hstyle
  exact ⟨style.typeName, (hhost.conforms.elements hget).values hvalue⟩

theorem HoldsInSheet.exists_isNormal {host : OwnedElement} {fileName : String}
    (h : HoldsInSheet property host fileName r v) (hhost : host.document.Uniform dictionary) :
    ∃ typeName, dictionary.IsNormal typeName property v := by
  obtain ⟨inclusion, hinclusion, hresolve⟩ := h
  have hmem : inclusion ∈ host.document.sheets host.id := List.mem_of_find?_eq_some hinclusion
  have hnormal := (hhost.conforms.sheets host.id).1 inclusion hmem
  obtain ⟨style, hstyle, hentry⟩ := Css.exists_entry_of_resolve hresolve
  exact ⟨Vocabulary.styleType, hnormal style hstyle _ hentry⟩

theorem Holds.exists_isNormal (h : Holds property source r v)
    (hr : r.document.Throughout (Document.Uniform Vocabulary.reports)) :
    ∃ typeName, Vocabulary.reports.IsNormal typeName property v := by
  induction source generalizing r with
  | own =>
      obtain ⟨e, he, hvalue⟩ := h
      exact ⟨e.typeName, (hr.self.conforms.elements he).values hvalue⟩
  | sharedStyle name =>
      have hroot : HoldsInStyle property ⟨r.document, r.document.root⟩ name v := h
      exact hroot.exists_isNormal hr.self
  | sheet fileName =>
      have hroot : HoldsInSheet property ⟨r.document, r.document.root⟩ fileName r v := h
      exact hroot.exists_isNormal hr.self
  | themeStyle themeName name =>
      obtain ⟨theme, ⟨htheme, -⟩, hholds⟩ := h
      exact hholds.exists_isNormal (hr.theme htheme).self
  | themeSheet themeName fileName =>
      obtain ⟨theme, ⟨htheme, -⟩, hholds⟩ := h
      exact hholds.exists_isNormal (hr.theme htheme).self
  | base library via ih =>
      obtain ⟨e, reference, base, -, -, -, hbase, hvia⟩ := h
      exact ih hvia (hr.base hbase)
  | default =>
      obtain ⟨e, -, h⟩ := Option.bind_eq_some_iff.1 h
      obtain ⟨definition, hdefinition, hdefault⟩ := Option.bind_eq_some_iff.1 h
      rw [hr.self.conforms.dictionary_eq] at hdefinition
      have hmem := Dictionary.mem_allProperties_of_property? hdefinition
      exact ⟨e.typeName, definition, hdefinition, Vocabulary.validate_default hmem.1 hdefault⟩

/-- What is normal for a style property of one type is normal for every other type that has it. -/
theorem Vocabulary.isNormal_of_style {typeName other : String} {p : PropertyDef}
    (hp : p ∈ reports.styleProperties typeName) (h : reports.IsNormal other p.name v) :
    reports.IsNormal typeName p.name v := by
  obtain ⟨hp, hstyle⟩ := List.mem_filter.1 hp
  obtain ⟨definition, hdefinition, hmem⟩ := Dictionary.exists_of_mem_properties hp
  have hall := Dictionary.mem_allProperties hdefinition hmem
  -- the definition of either type is of the kind of this one
  have hkind : ∀ {type found}, reports.property? type p.name = some found →
      found.kind = p.kind := by
    intro type found hfound
    obtain ⟨hmem, hname⟩ := Dictionary.mem_allProperties_of_property? hfound
    exact kind_eq_of_style p hall found hmem hstyle hname
  obtain ⟨found, hfound, hvalidate⟩ := h
  obtain ⟨own, hown⟩ := Option.ne_none_iff_exists'.1 fun hnone =>
    Dictionary.property?_eq_none.1 hnone p hp rfl
  refine ⟨own, hown, ?_⟩
  rw [PropertyDef.validate_eq_ok] at hvalidate ⊢
  rwa [hkind hown, ← hkind hfound]

theorem SortedMap.mem_ofList {κ α : Type} [Ordered κ] [DecidableEq κ] {l : List (κ × α)}
    {entry : κ × α} (h : entry ∈ (ofList l).entries) : entry ∈ l := by
  refine List.foldlRecOn (motive := fun m : SortedMap κ α => entry ∈ m.entries → entry ∈ l) l _
    (by simp [empty]) (fun m ih other hother h => ?_) h
  rcases mem_insertEntry h with rfl | h
  · exact hother
  · exact ih h

theorem SortedMap.get?_ofList {κ α : Type} [Ordered κ] [DecidableEq κ] (f : κ → Option α)
    (keys : List κ) (k : κ) :
    (ofList (keys.filterMap fun j => (f j).map (j, ·))).get? k =
      if k ∈ keys then f k else none := by
  induction keys using List.reverseRecOn with
  | nil => rfl
  | append_singleton keys j ih =>
      cases hj : f j with
      | none =>
          have hsame : (keys ++ [j]).filterMap (fun j => (f j).map (j, ·)) =
              keys.filterMap fun j => (f j).map (j, ·) := by
            simp [List.filterMap_append, hj]
          rw [hsame, ih]
          by_cases hk : k = j
          · simp [hk, hj]
          · simp [hk]
      | some v =>
          have hlast : ofList ((keys ++ [j]).filterMap fun j => (f j).map (j, ·)) =
              (ofList (keys.filterMap fun j => (f j).map (j, ·))).insert j v := by
            simp [ofList, List.filterMap_append, hj]
          rw [hlast, get?_insert, ih]
          by_cases hk : k = j
          · simp [hk, hj]
          · simp [hk, Ne.symm hk]

theorem Document.get?_effectiveValues (d : Document) (id : ElementId)
    {properties : List PropertyDef} {p : PropertyDef} (hp : p ∈ properties) :
    (d.effectiveValues id properties).get? p.name = d.effectiveValue? id p.name := by
  have hget := SortedMap.get?_ofList (d.effectiveValue? id) (properties.map (·.name)) p.name
  rw [List.filterMap_map, if_pos (List.mem_map_of_mem hp)] at hget
  exact hget

theorem Document.isNormal_of_mem_effectiveStyle {d : Document} {id : ElementId} {e : Element}
    (hd : d.Throughout (Document.Uniform Vocabulary.reports)) (he : d.get? id = some e)
    {values : SortedMap String (Value × Source)} (h : d.effectiveStyle id = .ok values)
    (hentry : (property, v, source) ∈ values.entries) :
    Vocabulary.reports.IsNormal e.typeName property v := by
  simp only [effectiveStyle, he] at h
  cases h
  obtain ⟨p, hp, hvalue⟩ := List.mem_filterMap.1 (SortedMap.mem_ofList hentry)
  obtain ⟨_, heffective, heq⟩ := Option.map_eq_some_iff.1 hvalue
  cases heq
  have hforemost : Foremost p.name ⟨d, id⟩ 0 source v := foremost_of_effectiveValue? heffective
  have hholds := hforemost.holds fun d' hd' => (hd d' hd').proper
  obtain ⟨other, hother⟩ := hholds.exists_isNormal hd
  rw [hd.self.conforms.dictionary_eq] at hp
  exact Vocabulary.isNormal_of_style hp hother

end ReportModel
