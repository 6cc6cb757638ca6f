import Mathlib.Data.List.Forall2
import ReportModel.Proofs.Css.Cascade

/-!
# Importance

A declaration that is marked as important makes its rule important as a whole. So the mark of one
declaration can raise the ranks of the styles that are named by the selectors of its rule, with all
properties that they set. It raises no other rank, and changes nothing else: a property of an
element has another value only if it is taken from one of the raised styles.
-/

namespace ReportModel.Css

/-! ## Ranks -/

namespace Specificity

variable {a a' b b' : Specificity}

/-- Importance is no matter of the selector. -/
theorem ofSelector_important (s : Selector) (order : UInt32) (important : Bool) :
    ofSelector s order important =
      (ofSelector s order false).map fun rank => { rank with important } := by
  by_cases hfits : s.Fits
  · obtain ⟨rank, hrank⟩ : ∃ rank, ofSelector s order false = .ok rank :=
      exists_ofSelector_iff.2 hfits
    obtain ⟨-, horder, hcounted⟩ := ofSelector_eq_ok.1 hrank
    rw [hrank]
    refine ofSelector_eq_ok.2 ⟨rfl, horder, ?_⟩
    rintro (_ | _ | _)
    · exact hcounted .ids
    · exact hcounted .classes
    · exact hcounted .types
  · rw [ofSelector_eq_error hfits, ofSelector_eq_error hfits]
    rfl

theorem isLE_of_important (rank : Specificity) {important important' : Bool}
    (h : important = true → important' = true) :
    (({ rank with important } : Specificity).compare
      { rank with important := important' }).isLE := by
  cases important with
  | false =>
      cases important' with
      | false => exact Std.ReflCmp.isLE_rfl
      | true => rfl
  | true =>
      rw [h rfl]
      exact Std.ReflCmp.isLE_rfl

theorem max_isLE_max (ha : (a.compare a').isLE) (hb : (b.compare b').isLE) :
    ((a.max b).compare (a'.max b')).isLE := by
  have hmax : ((a'.max b').compare (a'.max b')).isLE := Std.ReflCmp.isLE_rfl
  obtain ⟨ha', hb'⟩ := isLE_max_iff.1 hmax
  exact isLE_max_iff.2 ⟨Std.TransCmp.isLE_trans ha ha', Std.TransCmp.isLE_trans hb hb'⟩

end Specificity

theorem Clause.rank_isLE {rule rule' : Rule} (order : Nat) (s : Selector)
    (h : rule.important = true → rule'.important = true) :
    ((Clause.mk rule order s).rank.compare (Clause.mk rule' order s).rank).isLE := by
  rw [Clause.rank, Clause.rank, Specificity.ofSelector_important,
    Specificity.ofSelector_important s _ rule'.important]
  cases Specificity.ofSelector s (.ofNat order) false with
  | error overflow => exact Std.ReflCmp.isLE_rfl
  | ok rank => exact rank.isLE_of_important h

/-! ## Styles that are raised -/

/-- A style becomes another one in which at most the rank is greater, and that only if the style has
one of some names. -/
structure Raises (names : List String) (plain marked : Style) : Prop where
  frame : marked = { plain with rank := marked.rank }
  isLE : (plain.rank.compare marked.rank).isLE
  others : plain.name ∉ names → marked = plain

section Raises

variable {names : List String} {plain marked new new' : Style} {styles styles' : List Style}

theorem Raises.refl (names : List String) (style : Style) : Raises names style style where
  frame := rfl
  isLE := Std.ReflCmp.isLE_rfl
  others _ := rfl

theorem Raises.merge (h : Raises names plain marked) (hnew : Raises names new new')
    (hname : plain.name = new.name) : Raises names (plain.merge new.properties new.rank)
      (marked.merge new'.properties new'.rank) where
  frame := by
    rw [h.frame, hnew.frame]
    rfl
  isLE := Specificity.max_isLE_max h.isLE hnew.isLE
  others hother := by
    have hother : plain.name ∉ names := hother
    rw [h.others hother, hnew.others (hname ▸ hother)]

theorem Raises.addStyle (hnew : Raises names new new')
    (h : List.Forall₂ (Raises names) styles styles') :
    List.Forall₂ (Raises names) (addStyle new styles) (addStyle new' styles') := by
  have hname : new'.name = new.name := by rw [hnew.frame]
  induction h with
  | nil => exact .cons hnew .nil
  | @cons plain marked rest rest' hfirst hrest ih =>
      have hfirstName : marked.name = plain.name := by rw [hfirst.frame]
      rw [Css.addStyle, Css.addStyle, hname, hfirstName]
      by_cases hsame : plain.name = new.name
      · rw [if_pos hsame, if_pos hsame]
        exact .cons (hfirst.merge hnew hsame) hrest
      · rw [if_neg hsame, if_neg hsame]
        exact .cons hfirst ih

theorem foldl_addStyle_raises (h : List.Forall₂ (Raises names) styles styles') :
    List.Forall₂ (Raises names) (styles.foldl (fun all new => Css.addStyle new all) [])
      (styles'.foldl (fun all new => Css.addStyle new all) []) :=
  List.rel_foldl (P := List.Forall₂ (Raises names)) (fun _ _ hall _ _ hnew => hnew.addStyle hall)
    .nil h

end Raises

/-! ## The choice among the styles -/

/-- A candidate becomes one that is not below it, and if it is another one, its value is that of
some styles. -/
def Yields (raised : Value → Prop) (plain marked : Specificity × Value) : Prop :=
  (plain.1.compare marked.1).isLE ∧ (marked = plain ∨ raised marked.2)

section Yields

variable {raised : Value → Prop} {old old' new new' : Specificity × Value}
  {best best' : Option (Specificity × Value)}

theorem Yields.preferred (hbest : Option.Rel (Yields raised) best best')
    (hnew : Yields raised new new') :
    Option.Rel (Yields raised) (preferred best new) (preferred best' new') := by
  cases hbest with
  | none => exact .some hnew
  | @some old old' hold =>
      rw [Css.preferred, Css.preferred]
      by_cases hkeeps : new.1.compare old.1 = .lt <;>
        by_cases hkeeps' : new'.1.compare old'.1 = .lt
      · rw [if_pos hkeeps, if_pos hkeeps']
        exact .some hold
      · -- the new candidate has come to the top
        rw [if_pos hkeeps, if_neg hkeeps']
        have hle : (old'.1.compare new'.1).isLE :=
          Ordering.isLE_iff_ne_gt.2 fun hgt => hkeeps' (Std.OrientedCmp.gt_iff_lt.1 hgt)
        refine .some ⟨Std.TransCmp.isLE_trans hold.1 hle, Or.inr (hnew.2.resolve_left ?_)⟩
        rintro rfl
        exact hkeeps' (Std.TransCmp.lt_of_lt_of_isLE hkeeps hold.1)
      · -- the old candidate has stayed at the top
        rw [if_neg hkeeps, if_pos hkeeps']
        have hle : (new'.1.compare old'.1).isLE := Ordering.isLE_of_eq_lt hkeeps'
        refine .some ⟨Std.TransCmp.isLE_trans hnew.1 hle, Or.inr (hold.2.resolve_left ?_)⟩
        rintro rfl
        exact hkeeps (Std.TransCmp.lt_of_isLE_of_lt hnew.1 hkeeps')
      · rw [if_neg hkeeps, if_neg hkeeps']
        exact .some hnew

theorem Raises.offer {names : List String} {plain marked : Style} (h : Raises names plain marked)
    {property : String} {t : Tree} {id : ElementId}
    (hraised : ∀ value, plain.name ∈ names → plain.selector.describes t id = true →
      plain.property? property = some value → raised value) :
    Option.Rel (Yields raised) (plain.offer? property t id) (marked.offer? property t id) := by
  have hproperty : marked.property? property = plain.property? property := by
    rw [h.frame]
    rfl
  have hselector : marked.selector = plain.selector := by rw [h.frame]
  rw [Style.offer?, Style.offer?, hproperty, hselector]
  cases hvalue : plain.property? property with
  | none => exact .none
  | some value =>
      by_cases hdescribes : plain.selector.describes t id = true
      · simp only [hdescribes, if_true]
        refine .some ⟨h.isLE, ?_⟩
        by_cases hname : plain.name ∈ names
        · exact Or.inr (hraised value hname hdescribes hvalue)
        · rw [h.others hname]
          exact Or.inl rfl
      · simp only [hdescribes, Bool.false_eq_true, if_false]
        exact .none

/-- A property of an element gets another value only from a style of one of the names. -/
theorem resolve_of_raises {names : List String} {plain marked : StyleSheet}
    (h : List.Forall₂ (Raises names) plain.styles marked.styles) {property : String} {t : Tree}
    {id : ElementId} (hne : marked.resolve property t id ≠ plain.resolve property t id) :
    ∃ style ∈ plain.styles, ∃ value, style.name ∈ names ∧ style.selector.describes t id = true ∧
      style.property? property = some value ∧ marked.resolve property t id = some value := by
  let raised (value : Value) : Prop := ∃ style ∈ plain.styles, style.name ∈ names ∧
    style.selector.describes t id = true ∧ style.property? property = some value
  have hoffers : List.Forall₂ (Yields raised) (plain.styles.filterMap (·.offer? property t id))
      (marked.styles.filterMap (·.offer? property t id)) :=
    List.rel_filterMap (fun style _ hstyle => hstyle.2.offer fun _ hname hdescribes hvalue =>
      ⟨style, hstyle.1, hname, hdescribes, hvalue⟩)
      ((List.forall₂_and_left plain.styles marked.styles).2 ⟨fun _ hmem => hmem, h⟩)
  have hbest : Option.Rel (Yields raised)
      ((plain.styles.filterMap (·.offer? property t id)).foldl preferred none)
      ((marked.styles.filterMap (·.offer? property t id)).foldl preferred none) :=
    List.rel_foldl (P := Option.Rel (Yields raised)) (R := Yields raised)
      (fun _ _ hbest _ _ hnew => Yields.preferred hbest hnew) .none hoffers
  rw [resolve_eq, resolve_eq] at hne
  rw [resolve_eq]
  generalize (plain.styles.filterMap (·.offer? property t id)).foldl preferred none = best
    at hbest hne
  generalize (marked.styles.filterMap (·.offer? property t id)).foldl preferred none = best'
    at hbest hne ⊢
  cases hbest with
  | none => exact absurd rfl hne
  | @some old new hyields =>
      obtain ⟨-, rfl | ⟨style, hstyle, hname, hdescribes, hvalue⟩⟩ := hyields
      · exact absurd rfl hne
      · exact ⟨style, hstyle, new.2, hname, hdescribes, hvalue, rfl⟩

end Yields

/-! ## The mark of a declaration -/

/-- A declaration in its place, with the rest of its rule and the rules around. -/
structure Site where
  before : List Rule
  selectors : List Selector
  front : List Declaration
  declaration : Declaration
  back : List Declaration
  after : List Rule

namespace Site

variable {site : Site}

def rule (site : Site) (important : Bool) : Rule :=
  ⟨site.selectors, site.front ++ { site.declaration with important := important } :: site.back⟩

def rules (site : Site) (important : Bool) : List Rule :=
  site.before ++ site.rule important :: site.after

/-- The names of the styles that the mark can raise: none if the rule is important without it. -/
def raised (site : Site) : List String :=
  if (site.front ++ site.back).any (·.important) then []
  else site.selectors.map Selector.styleName

def sheet (site : Site) (fileName : String) (dictionary : Dictionary) (important : Bool) :
    Except Overflow StyleSheet :=
  StyleSheet.compile fileName dictionary (site.rules important)

theorem important_rule (site : Site) (important : Bool) :
    (site.rule important).important =
      ((site.front ++ site.back).any (·.important) || important) := by
  simp only [Rule.important, rule, List.any_append, List.any_cons]
  cases important <;> simp

theorem values_rule (site : Site) (dictionary : Dictionary) (important : Bool) :
    (site.rule important).values dictionary = (site.rule false).values dictionary := by
  simp only [Rule.values, rule, List.filterMap_append]
  rfl

theorem refusals_rule (site : Site) (dictionary : Dictionary) (important : Bool) (style : String) :
    (site.rule important).refusals dictionary style =
      (site.rule false).refusals dictionary style := by
  simp only [Rule.refusals, rule, List.filterMap_append]
  rfl

theorem raises_style (dictionary : Dictionary) (order : Nat) {s : Selector}
    (hs : s ∈ site.selectors) : Raises site.raised
      ((Clause.mk (site.rule false) order s).style dictionary)
      ((Clause.mk (site.rule true) order s).style dictionary) where
  frame := by
    rw [Clause.style, Clause.style, values_rule]
  isLE := by
    refine Clause.rank_isLE order s ?_
    simp [important_rule]
  others hname := by
    -- the rule is important without the mark
    have hothers : (site.front ++ site.back).any (·.important) = true := by
      by_contra hnone
      refine hname ?_
      rw [raised, if_neg hnone]
      exact List.mem_map_of_mem hs
    rw [Clause.style, Clause.style, Clause.rank, Clause.rank, values_rule, important_rule,
      important_rule, hothers]
    rfl

theorem rankable_rules (site : Site) (important : Bool) :
    Rankable (site.rules important) ↔ Rankable (site.rules false) := by
  simp only [Rankable, rules, List.forall_mem_append, List.forall_mem_cons]
  rfl

section Sheets

variable {fileName : String} {dictionary : Dictionary} {plain marked : StyleSheet}

theorem raises_styles (hplain : site.sheet fileName dictionary false = .ok plain)
    (hmarked : site.sheet fileName dictionary true = .ok marked) :
    List.Forall₂ (Raises site.raised) plain.styles marked.styles := by
  have hrefl (styles : List Style) : List.Forall₂ (Raises site.raised) styles styles :=
    List.forall₂_same.2 fun style _ => .refl _ style
  rw [StyleSheet.styles_compile hplain, StyleSheet.styles_compile hmarked]
  refine foldl_addStyle_raises ?_
  rw [clausesOf, clausesOf, rules, rules, List.zipIdx_append, List.zipIdx_append,
    List.flatMap_append, List.flatMap_append, List.zipIdx_cons, List.zipIdx_cons,
    List.flatMap_cons, List.flatMap_cons, List.map_append, List.map_append, List.map_append,
    List.map_append]
  refine List.rel_append (hrefl _) (List.rel_append ?_ (hrefl _))
  rw [List.map_map, List.map_map, List.forall₂_map_left_iff, List.forall₂_map_right_iff]
  exact List.forall₂_same.2 fun s hs => raises_style dictionary _ hs

theorem unsupported_sheet (hplain : site.sheet fileName dictionary false = .ok plain)
    (hmarked : site.sheet fileName dictionary true = .ok marked) :
    marked.unsupported = plain.unsupported := by
  rw [(StyleSheet.compile_eq_ok.1 hplain).2, (StyleSheet.compile_eq_ok.1 hmarked).2]
  simp only [StyleSheet.ofRules, rules, List.flatMap_append, List.flatMap_cons,
    refusals_rule site dictionary true]
  rfl

end Sheets

/-- The mark of a declaration raises the ranks of the styles of its rule and changes nothing else in
the sheet, and a property of an element has another value only if it is that of such a style. -/
theorem resolve_sheet (site : Site) (fileName : String) (dictionary : Dictionary) :
    ((∃ marked, site.sheet fileName dictionary true = .ok marked) ↔
      ∃ plain, site.sheet fileName dictionary false = .ok plain) ∧
    ∀ plain marked, site.sheet fileName dictionary false = .ok plain →
      site.sheet fileName dictionary true = .ok marked →
      marked.unsupported = plain.unsupported ∧
      List.Forall₂ (Raises site.raised) plain.styles marked.styles ∧
      ∀ property t id, marked.resolve property t id ≠ plain.resolve property t id →
        ∃ style ∈ plain.styles, ∃ value,
          style.name ∈ site.raised ∧ style.selector.describes t id = true ∧
          style.property? property = some value ∧
          marked.resolve property t id = some value := by
  constructor
  · rw [sheet, sheet, StyleSheet.exists_compile_iff, StyleSheet.exists_compile_iff,
      site.rankable_rules true]
  · intro plain marked hplain hmarked
    have hraises := raises_styles hplain hmarked
    exact ⟨unsupported_sheet hplain hmarked, hraises, fun _ _ _ => resolve_of_raises hraises⟩

/-- The weight of labels, in the rule that also gives their colour. -/
def weight : Site where
  before := []
  selectors := [.compound [.ofType "Label"]]
  front := [⟨"color", [.ident "red"], false⟩]
  declaration := ⟨"font-weight", [.ident "bold"], false⟩
  back := []
  after := [⟨[.compound [.ofId "total"]], [⟨"color", [.ident "blue"], false⟩]⟩]

open StyleSheet (labelTree)

theorem resolve_sheet_weight :
    ∃ plain marked, weight.sheet "report.css" Vocabulary.reports false = .ok plain ∧
      weight.sheet "report.css" Vocabulary.reports true = .ok marked ∧
      marked.resolve "color" labelTree ⟨1, 0⟩ ≠ plain.resolve "color" labelTree ⟨1, 0⟩ ∧
      ∃ style ∈ plain.styles, ∃ value,
        style.name ∈ weight.raised ∧ style.selector.describes labelTree ⟨1, 0⟩ = true ∧
        style.property? "color" = some value ∧
        marked.resolve "color" labelTree ⟨1, 0⟩ = some value := by
  obtain ⟨hexists, hresolve⟩ := resolve_sheet weight "report.css" Vocabulary.reports
  obtain ⟨plain, hplain⟩ :
      ∃ plain, weight.sheet "report.css" Vocabulary.reports false = .ok plain :=
    StyleSheet.exists_compile_iff.2 (by decide +kernel)
  obtain ⟨marked, hmarked⟩ := hexists.2 ⟨plain, hplain⟩
  have hne : (weight.sheet "report.css" Vocabulary.reports true).map
      (·.resolve "color" labelTree ⟨1, 0⟩) ≠
      (weight.sheet "report.css" Vocabulary.reports false).map
        (·.resolve "color" labelTree ⟨1, 0⟩) := by
    decide +kernel
  rw [hplain, hmarked] at hne
  have hcolors : marked.resolve "color" labelTree ⟨1, 0⟩ ≠
      plain.resolve "color" labelTree ⟨1, 0⟩ := fun h => hne (congrArg Except.ok h)
  exact ⟨plain, marked, hplain, hmarked, hcolors,
    (hresolve plain marked hplain hmarked).2.2 "color" labelTree ⟨1, 0⟩ hcolors⟩

/-- With the weight marked, the colour of labels wins over that of the element of the id. -/
theorem resolve_color_weight :
    readRules ("Label \x7b color: red; font-weight: bold; \x7d " ++
      "#total \x7b color: blue; \x7d") = .ok (weight.rules false) ∧
    readRules ("Label \x7b color: red; font-weight: bold !important; \x7d " ++
      "#total \x7b color: blue; \x7d") = .ok (weight.rules true) ∧
    weight.declaration.convert Vocabulary.reports = .ok ("fontWeight", .choice "bold") ∧
    (weight.sheet "report.css" Vocabulary.reports false).map
      (·.resolve "color" labelTree ⟨1, 0⟩) = .ok (some (.color "blue")) ∧
    (weight.sheet "report.css" Vocabulary.reports true).map
      (·.resolve "color" labelTree ⟨1, 0⟩) = .ok (some (.color "red")) := by
  decide +kernel

end Site

end ReportModel.Css
