import ReportModel.Proofs.Css.Merging
import ReportModel.Proofs.Css.SelectorText

/-!
# The names of styles

A style has the text of its selector for a name, but that of a lone class has the class. Names
therefore tell selectors apart but for one case: a class and a type of the same name share a style,
in which the values for both meet under the selector that comes first.
-/

namespace ReportModel.Css

variable {s t : Selector}

namespace Selector

/-- A lone class and a lone type have the same name. -/
def Homonyms (s t : Selector) : Prop :=
  ∃ name, s = .compound [.ofClass name] ∧ t = .compound [.ofType name] ∨
    s = .compound [.ofType name] ∧ t = .compound [.ofClass name]

/-- The selector whose text is the name of the style: a lone class is written as a type. -/
def bare : Selector → Selector
  | .compound [.ofClass name] => .compound [.ofType name]
  | s => s

theorem bare_cases (s : Selector) :
    (∃ name, s = .compound [.ofClass name] ∧ s.bare = .compound [.ofType name]) ∨ s.bare = s := by
  rw [bare.eq_def]
  split
  · next name => exact Or.inl ⟨name, rfl, rfl⟩
  · exact Or.inr rfl

theorem styleName_eq_text_bare (s : Selector) : s.styleName = s.bare.text := by
  rcases bare_cases s with ⟨name, rfl, hbare⟩ | hbare
  · rw [hbare]
    simp [styleName, text, compoundText, Component.text]
  · rw [hbare, styleName.eq_def]
    split
    · exact absurd hbare (by simp [bare])
    · rfl

theorem IsFormed.bare (hs : s.IsFormed) : s.bare.IsFormed := by
  rcases bare_cases s with ⟨name, rfl, hbare⟩ | hbare
  · rw [hbare]
    have hname := (hs _ List.mem_cons_self).named _ List.mem_cons_self
    exact List.forall_mem_singleton.2 ⟨by simp, List.forall_mem_singleton.2 hname⟩
  · rwa [hbare]

theorem bare_eq_iff : s.bare = t.bare ↔ s = t ∨ Homonyms s t := by
  constructor
  · intro h
    rcases bare_cases s with ⟨name, rfl, hs⟩ | hs <;>
      rcases bare_cases t with ⟨name', rfl, ht⟩ | ht <;> rw [hs, ht] at h
    · obtain rfl : name = name' := by simpa using h
      exact Or.inl rfl
    · exact Or.inr ⟨name, Or.inl ⟨rfl, h.symm⟩⟩
    · exact Or.inr ⟨name', Or.inr ⟨h, rfl⟩⟩
    · exact Or.inl h
  · rintro (rfl | ⟨name, ⟨rfl, rfl⟩ | ⟨rfl, rfl⟩⟩) <;> rfl

/-- Formed selectors have the same name if they are equal or a class and a type of one name. -/
theorem IsFormed.styleName_eq_iff (hs : s.IsFormed) (ht : t.IsFormed) :
    s.styleName = t.styleName ↔ s = t ∨ Homonyms s t := by
  rw [styleName_eq_text_bare, styleName_eq_text_bare, ← bare_eq_iff]
  refine ⟨fun h => hs.bare.chars_inj ht.bare ?_, congrArg text⟩
  rw [← toList_text, ← toList_text, h]

end Selector

open Selector

/-! ## One style for each name -/

theorem nodup_addStyle {styles : List Style} (h : (styles.map (·.name)).Nodup) (new : Style) :
    ((addStyle new styles).map (·.name)).Nodup := by
  rcases addStyle_cases new styles with ⟨before, old, after, rfl, -, hadd⟩ | ⟨hnone, hadd⟩
  · rw [hadd]
    simpa [Style.merge] using h
  · rw [hadd, List.map_append, List.map_singleton, ← List.concat_eq_append, List.nodup_concat]
    refine ⟨fun hmem => ?_, h⟩
    obtain ⟨style, hstyle, hname⟩ := List.mem_map.1 hmem
    exact hnone style hstyle hname

theorem Style.find?_name {styles : List Style} (h : (styles.map (·.name)).Nodup) {style : Style}
    (hstyle : style ∈ styles) : styles.find? (·.name = style.name) = some style := by
  obtain ⟨before, after, rfl⟩ := List.append_of_mem hstyle
  rw [List.map_append, List.map_cons, List.nodup_middle, List.nodup_cons, List.mem_append] at h
  refine List.find?_eq_some_iff_append.2 ⟨by simp, before, after, rfl, fun other hother => ?_⟩
  have hname : other.name ≠ style.name := fun heq =>
    h.1 (Or.inl (heq ▸ List.mem_map_of_mem hother))
  simpa using hname

namespace StyleSheet

variable {fileName : String} {dictionary : Dictionary} {rules : List Rule} {sheet : StyleSheet}

theorem nodup_names (hsheet : compile fileName dictionary rules = .ok sheet) :
    (sheet.styles.map (·.name)).Nodup := by
  rw [styles_compile hsheet]
  exact List.foldlRecOn (motive := fun all : List Style => (all.map Style.name).Nodup) _ _
    List.nodup_nil fun all h new _ => nodup_addStyle h new

theorem style?_name (hsheet : compile fileName dictionary rules = .ok sheet) {style : Style}
    (hstyle : style ∈ sheet.styles) : sheet.style? style.name = some style :=
  Style.find?_name (nodup_names hsheet) hstyle

/-- Selectors that are read have the same name only if they are equal or a class and a type of one
name, and each style is made of the clauses of one selector but for such pairs. -/
theorem merged_of_readRules {text text' : String} {rules' : List Rule}
    (h : readRules text = .ok rules) (h' : readRules text' = .ok rules') :
    (∀ rule ∈ rules, ∀ s ∈ rule.selectors, ∀ rule' ∈ rules', ∀ s' ∈ rule'.selectors,
      (s.styleName = s'.styleName ↔ s = s' ∨ Homonyms s s')) ∧
    ∀ fileName dictionary sheet, compile fileName dictionary rules = .ok sheet →
      ∀ style ∈ sheet.styles, ∃ first more,
        Clause.named style.name (clausesOf rules) = first :: more ∧
        style = Clause.mergeAll dictionary more (first.style dictionary) ∧
        ∀ c ∈ more, c.selector = first.selector ∨ Homonyms c.selector first.selector := by
  have hformed := isFormed_of_readRules h
  have hformed' := isFormed_of_readRules h'
  refine ⟨fun rule hrule s hs rule' hrule' s' hs' =>
    (hformed rule hrule s hs).styleName_eq_iff (hformed' rule' hrule' s' hs'),
    fun fileName dictionary sheet hsheet style hstyle => ?_⟩
  have hmerged := style?_name hsheet hstyle
  rw [style?_compile hsheet] at hmerged
  cases hnamed : Clause.named style.name (clausesOf rules) with
  | nil =>
      rw [hnamed] at hmerged
      cases hmerged
  | cons first more =>
      rw [hnamed] at hmerged
      refine ⟨first, more, rfl, (Option.some.inj hmerged).symm, fun c hc => ?_⟩
      have hclause {c : Clause} (hc : c ∈ first :: more) :
          c.selector.IsFormed ∧ c.selector.styleName = style.name := by
        rw [← hnamed, Clause.named, List.mem_filter] at hc
        exact ⟨hformed c.rule (rule_mem_of_mem_clausesOf hc.1) c.selector
          (selector_mem_of_mem_clausesOf hc.1), of_decide_eq_true hc.2⟩
      have hfirst := hclause List.mem_cons_self
      have hlater := hclause (List.mem_cons_of_mem first hc)
      exact (hlater.1.styleName_eq_iff hfirst.1).1 (hlater.2.trans hfirst.2.symm)

/-- The rules of a text in which a class and a type have the same name. -/
def homonymous : List Rule :=
  [⟨[.compound [.ofClass "Label"]], [⟨"color", [.ident "red"], false⟩]⟩,
    ⟨[.compound [.ofType "Label"]], [⟨"font-weight", [.ident "bold"], false⟩]⟩]

/-- The texts of the selectors differ in a blank. -/
theorem merged_of_readRules_blank :
    readRules "Label.total \x7b color: red; \x7d" =
      .ok [⟨[.compound [.ofType "Label", .ofClass "total"]],
        [⟨"color", [.ident "red"], false⟩]⟩] ∧
    readRules "Label .total \x7b\x7d" =
      .ok [⟨[.within (.compound [.ofType "Label"]) .descendant [.ofClass "total"]], []⟩] ∧
    (Selector.compound [.ofType "Label", .ofClass "total"]).styleName ≠
      (Selector.within (.compound [.ofType "Label"]) .descendant [.ofClass "total"]).styleName := by
  have h : readRules "Label.total \x7b color: red; \x7d" =
      .ok [⟨[.compound [.ofType "Label", .ofClass "total"]],
        [⟨"color", [.ident "red"], false⟩]⟩] := by
    decide +kernel
  have h' : readRules "Label .total \x7b\x7d" =
      .ok [⟨[.within (.compound [.ofType "Label"]) .descendant [.ofClass "total"]], []⟩] := by
    decide +kernel
  refine ⟨h, h', fun hname => ?_⟩
  have hmeet := ((merged_of_readRules h h').1 _ List.mem_cons_self _ List.mem_cons_self _
    List.mem_cons_self _ List.mem_cons_self).1 hname
  rcases hmeet with heq | ⟨name, ⟨heq, -⟩ | ⟨heq, -⟩⟩
  · cases heq
  · cases heq
  · cases heq

/-- The label of the tree is no element of the class, but a value for labels is put into the style
of the class, and the label does not get it. -/
theorem merged_homonymous :
    readRules ".Label \x7b color: red; \x7d Label \x7b font-weight: bold; \x7d" =
      .ok homonymous ∧
    (Selector.compound [.ofClass "Label"]).styleName =
      (Selector.compound [.ofType "Label"]).styleName ∧
    (Selector.compound [.ofClass "Label"]).describes labelTree ⟨1, 0⟩ = false ∧
    (Selector.compound [.ofType "Label"]).describes labelTree ⟨1, 0⟩ = true ∧
    (compile "report.css" Vocabulary.reports homonymous).map
        (fun sheet => sheet.styles.map fun style => (style.selector, style.properties)) =
      .ok [(.compound [.ofClass "Label"],
        [("color", .color "red"), ("fontWeight", .choice "bold")])] ∧
    (compile "report.css" Vocabulary.reports homonymous).map
        (·.resolve "fontWeight" labelTree ⟨1, 0⟩) = .ok none := by
  decide +kernel

end StyleSheet

end ReportModel.Css
