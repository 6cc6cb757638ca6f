import ReportModel.Proofs.Css.Cascade
import ReportModel.Proofs.Value

/-!
# The values of compiled stylesheets

A compiled stylesheet holds only values that come from declarations, and each of them is normal for
the property as styles have it.
-/

namespace ReportModel

/-- A type defines a property, and a value is normal for it. -/
def Dictionary.IsNormal (d : Dictionary) (typeName property : String) (v : Value) : Prop :=
  ∃ definition, d.property? typeName property = some definition ∧ definition.validate v = .ok v

namespace Css

variable {dictionary : Dictionary} {entry x : String × Value}

def StyleSheet.IsNormal (dictionary : Dictionary) (sheet : StyleSheet) : Prop :=
  ∀ style ∈ sheet.styles, ∀ entry ∈ style.properties,
    dictionary.IsNormal Vocabulary.styleType entry.1 entry.2

theorem Declaration.convert_eq_ok {declaration : Declaration} :
    declaration.convert dictionary = .ok entry ↔
      ∃ definition, dictionary.property? Vocabulary.styleType entry.1 = some definition ∧
        definition.style = true ∧ declaration.values.isEmpty = false ∧
        entry.1 = modelName declaration.property ∧
        definition.validate (.string declaration.valueText) = .ok entry.2 := by
  obtain ⟨property, value⟩ := entry
  simp only [convert]
  constructor
  · intro h
    split at h
    · cases h
    · next definition hdefinition =>
      split at h
      · cases h
      · next hstyle =>
        split at h
        · cases h
        · next hvalues =>
          obtain ⟨v, hvalidate, hentry⟩ := map_eq_ok.1 h
          obtain ⟨rfl, rfl⟩ := Prod.mk.inj hentry
          exact ⟨definition, hdefinition, by simpa using hstyle, by simpa using hvalues, rfl,
            hvalidate⟩
  · rintro ⟨definition, hdefinition, hstyle, hvalues, rfl, hvalidate⟩
    simp [hdefinition, hstyle, hvalues, hvalidate, Except.map]

theorem Declaration.isNormal_of_convert {declaration : Declaration}
    (h : declaration.convert dictionary = .ok entry) :
    dictionary.IsNormal Vocabulary.styleType entry.1 entry.2 := by
  obtain ⟨definition, hdefinition, -, -, -, hvalidate⟩ := convert_eq_ok.1 h
  exact ⟨definition, hdefinition, PropertyDef.validate_validate hvalidate⟩

theorem mem_setValue {entries : List (String × Value)} (h : x ∈ Style.setValue entry entries) :
    x = entry ∨ x ∈ entries := by
  induction entries with
  | nil => simpa [Style.setValue] using h
  | cons first rest ih =>
      simp only [Style.setValue] at h
      split at h
      · next hname =>
        rcases List.mem_cons.1 h with rfl | h
        · rw [hname]
          exact Or.inl rfl
        · exact Or.inr (List.mem_cons_of_mem _ h)
      · rcases List.mem_cons.1 h with rfl | h
        · exact Or.inr List.mem_cons_self
        · exact (ih h).imp_right (List.mem_cons_of_mem _)

theorem mem_merge {style : Style} {new : List (String × Value)} {rank : Specificity}
    (h : x ∈ (style.merge new rank).properties) : x ∈ new ∨ x ∈ style.properties := by
  refine List.foldlRecOn (motive := fun all => x ∈ all → x ∈ new ∨ x ∈ style.properties) new _
    Or.inr (fun all ih entry hentry h => ?_) h
  rcases mem_setValue h with rfl | h
  · exact Or.inl hentry
  · exact ih h

theorem mem_addStyle {new style : Style} {styles : List Style}
    (hstyle : style ∈ addStyle new styles) (h : x ∈ style.properties) :
    x ∈ new.properties ∨ ∃ old ∈ styles, x ∈ old.properties := by
  rcases addStyle_cases new styles with ⟨before, old, after, rfl, -, hadd⟩ | ⟨-, hadd⟩
  · rw [hadd] at hstyle
    rcases List.mem_append.1 hstyle with hbefore | hstyle
    · exact Or.inr ⟨style, List.mem_append_left _ hbefore, h⟩
    · rcases List.mem_cons.1 hstyle with rfl | hafter
      · refine (mem_merge h).imp_right fun h => ⟨old, ?_, h⟩
        exact List.mem_append_right _ List.mem_cons_self
      · exact Or.inr ⟨style, List.mem_append_right _ (List.mem_cons_of_mem _ hafter), h⟩
  · rw [hadd] at hstyle
    rcases List.mem_append.1 hstyle with hold | hnew
    · exact Or.inr ⟨style, hold, h⟩
    · rw [List.mem_singleton.1 hnew] at h
      exact Or.inl h

theorem mem_foldl_addStyle {style : Style} {news : List Style}
    (hstyle : style ∈ news.foldl (fun all new => addStyle new all) [])
    (h : x ∈ style.properties) : ∃ old ∈ news, x ∈ old.properties := by
  refine List.foldlRecOn (motive := fun all => ∀ style ∈ all, x ∈ style.properties →
    ∃ old ∈ news, x ∈ old.properties) news _ (by simp) (fun all ih new hnew style hstyle h => ?_)
      style hstyle h
  rcases mem_addStyle hstyle h with h | ⟨old, hold, h⟩
  · exact ⟨new, hnew, h⟩
  · exact ih old hold h

theorem StyleSheet.exists_convert_of_mem {fileName : String} {rules : List Rule}
    {sheet : StyleSheet} (hsheet : compile fileName dictionary rules = .ok sheet) {style : Style}
    (hstyle : style ∈ sheet.styles) (h : x ∈ style.properties) :
    ∃ rule ∈ rules, ∃ declaration ∈ rule.declarations, declaration.convert dictionary = .ok x := by
  rw [styles_compile hsheet] at hstyle
  obtain ⟨old, hold, hx⟩ := mem_foldl_addStyle hstyle h
  obtain ⟨c, hc, rfl⟩ := List.mem_map.1 hold
  obtain ⟨declaration, hdeclaration, hconvert⟩ := List.mem_filterMap.1 hx
  exact ⟨c.rule, rule_mem_of_mem_clausesOf hc, declaration, hdeclaration,
    toOption_eq_some.1 hconvert⟩

theorem StyleSheet.isNormal_compile {fileName : String} {rules : List Rule} {sheet : StyleSheet}
    (hsheet : compile fileName dictionary rules = .ok sheet) : sheet.IsNormal dictionary := by
  intro style hstyle entry hentry
  obtain ⟨-, -, declaration, -, hconvert⟩ := exists_convert_of_mem hsheet hstyle hentry
  exact declaration.isNormal_of_convert hconvert

theorem exists_entry_of_resolve {sheet : StyleSheet} {property : String} {t : Tree}
    {id : ElementId} {v : Value} (h : sheet.resolve property t id = some v) :
    ∃ style ∈ sheet.styles, (property, v) ∈ style.properties := by
  rw [resolve_eq] at h
  obtain ⟨best, hbest, rfl⟩ := Option.map_eq_some_iff.1 h
  obtain ⟨before, after, hcandidates, -, -⟩ := foldl_preferred_eq_some hbest
  have hmem : best ∈ sheet.styles.filterMap (·.offer? property t id) := by
    rw [hcandidates]
    exact List.mem_append_right _ List.mem_cons_self
  obtain ⟨style, hstyle, hoffer⟩ := List.mem_filterMap.1 hmem
  refine ⟨style, hstyle, ?_⟩
  simp only [Style.offer?] at hoffer
  split at hoffer
  · next value hvalue =>
    split at hoffer
    · cases hoffer
      exact mem_of_valueIn hvalue
    · cases hoffer
  · cases hoffer

end Css

end ReportModel
