import Mathlib.Data.List.Induction
import Mathlib.Data.List.Nodup
import ReportModel.Tree.Matching
import ReportModel.Tree.Names
import ReportModel.Proofs.Css.Specificity

/-!
# The cascade within a stylesheet

A clause is a rule as it applies to one of its selectors. The clauses of one selector become one
style: a property has the value of the last clause that sets it, and the rank of the style is the
greatest of all its clauses, those included that do not set the property. An element gets the value
of the style of the greatest rank among those that describe it and set the property, so a clause can
lose to one of a lower rank whose selector also has a clause of a higher rank. This cannot happen if
no selector occurs twice.
-/

namespace ReportModel.Css

variable {dictionary : Dictionary} {property : String} {value : Value}

def valueIn (property : String) (entries : List (String × Value)) : Option Value :=
  (entries.find? (·.1 = property)).map (·.2)

section values

variable {entry : String × Value} {entries new : List (String × Value)}

theorem valueIn_cons (property : String) (entry : String × Value) (entries) :
    valueIn property (entry :: entries) =
      if entry.1 = property then some entry.2 else valueIn property entries := by
  rw [valueIn, List.find?_cons]
  split
  · next h => rw [if_pos (of_decide_eq_true h), Option.map_some]
  · next h => rw [if_neg (of_decide_eq_false h), valueIn]

theorem valueIn_eq_none (h : property ∉ entries.map (·.1)) : valueIn property entries = none := by
  rw [valueIn, Option.map_eq_none_iff, List.find?_eq_none]
  intro entry hentry
  simp only [decide_eq_true_eq]
  rintro rfl
  exact h (List.mem_map_of_mem hentry)

theorem mem_of_valueIn (h : valueIn property entries = some value) :
    (property, value) ∈ entries := by
  obtain ⟨entry, hentry, rfl⟩ := Option.map_eq_some_iff.1 h
  have hname := List.find?_some hentry
  rw [← of_decide_eq_true hname]
  exact List.mem_of_find?_eq_some hentry

theorem valueIn_setValue (property : String) (entry : String × Value) (entries) :
    valueIn property (Style.setValue entry entries) =
      if entry.1 = property then some entry.2 else valueIn property entries := by
  induction entries with
  | nil => rw [Style.setValue, valueIn_cons]
  | cons first rest ih =>
      rw [Style.setValue]
      split
      · next hfirst =>
        rw [valueIn_cons, valueIn_cons, hfirst]
        split <;> rfl
      · next hfirst =>
        rw [valueIn_cons, valueIn_cons, ih]
        split
        · next hproperty => rw [if_neg (hproperty ▸ Ne.symm hfirst)]
        · rfl

theorem valueIn_merge (property : String) (hnew : (new.map (·.1)).Nodup) (entries) :
    valueIn property (new.foldl (fun all entry => Style.setValue entry all) entries) =
      (valueIn property new).or (valueIn property entries) := by
  induction new generalizing entries with
  | nil => rfl
  | cons entry rest ih =>
      -- the property is not among the rest if it is the first one
      rw [List.map_cons, List.nodup_cons] at hnew
      rw [List.foldl_cons, ih hnew.2, valueIn_setValue, valueIn_cons]
      split
      · next hproperty =>
        rw [valueIn_eq_none (hproperty ▸ hnew.1), Option.none_or, Option.some_or]
      · rfl

end values

/-- A rule as it applies to one of its selectors, with the place of the rule in the sheet. -/
structure Clause where
  rule : Rule
  order : Nat
  selector : Selector
deriving DecidableEq

namespace Clause

variable {clauses : List Clause} {c : Clause} {s : Selector}

/-- The rank of the clause by itself, the least one if its selector has none. -/
def rank (c : Clause) : Specificity :=
  (Specificity.ofSelector c.selector (.ofNat c.order) c.rule.important).toOption.getD .least

def value? (dictionary : Dictionary) (c : Clause) (property : String) : Option Value :=
  valueIn property (c.rule.values dictionary)

def style (dictionary : Dictionary) (c : Clause) : Style where
  name := c.selector.styleName
  selector := c.selector
  properties := c.rule.values dictionary
  rank := c.rank

/-- The value that the last clause of a selector that sets a property gives it. -/
def lastValue? (dictionary : Dictionary) (clauses : List Clause) (s : Selector)
    (property : String) : Option Value :=
  (clauses.reverse.filter (·.selector = s)).findSome? (·.value? dictionary property)

def topRank (clauses : List Clause) (s : Selector) : Specificity :=
  (clauses.filter (·.selector = s)).foldl (fun top c => top.max c.rank) .least

def selectors (clauses : List Clause) : List Selector :=
  clauses.map (·.selector)

def firstPlace (clauses : List Clause) (s : Selector) : Nat :=
  (selectors clauses).idxOf s

theorem lastValue?_append_single (clauses : List Clause) (c : Clause) (s : Selector) :
    lastValue? dictionary (clauses ++ [c]) s property =
      if c.selector = s then
        (c.value? dictionary property).or (lastValue? dictionary clauses s property)
      else lastValue? dictionary clauses s property := by
  rw [lastValue?, List.reverse_append, List.reverse_singleton, List.singleton_append,
    List.filter_cons]
  by_cases h : c.selector = s
  · simp only [h, decide_true, if_true, List.findSome?_cons, lastValue?]
    cases c.value? dictionary property <;> rfl
  · simp only [h, decide_false, Bool.false_eq_true, if_false, lastValue?]

theorem topRank_append_single (clauses : List Clause) (c : Clause) (s : Selector) :
    topRank (clauses ++ [c]) s =
      if c.selector = s then (topRank clauses s).max c.rank else topRank clauses s := by
  rw [topRank, List.filter_append, List.foldl_append]
  by_cases h : c.selector = s
  · simp [h, topRank]
  · simp [h, topRank]

theorem filter_of_not_mem (h : s ∉ selectors clauses) :
    clauses.filter (·.selector = s) = [] := by
  rw [List.filter_eq_nil_iff]
  intro c hc hs
  exact h (of_decide_eq_true hs ▸ List.mem_map_of_mem hc)

theorem lastValue?_of_not_mem (h : s ∉ selectors clauses) :
    lastValue? dictionary clauses s property = none := by
  rw [lastValue?, List.filter_reverse, filter_of_not_mem h]
  rfl

theorem topRank_of_not_mem (h : s ∉ selectors clauses) : topRank clauses s = .least := by
  rw [topRank, filter_of_not_mem h]
  rfl

theorem selectors_append_single (clauses : List Clause) (c : Clause) :
    selectors (clauses ++ [c]) = selectors clauses ++ [c.selector] := by
  rw [selectors, List.map_append, List.map_singleton, selectors]

theorem firstPlace_append_of_mem (h : s ∈ selectors clauses) (c : Clause) :
    firstPlace (clauses ++ [c]) s = firstPlace clauses s := by
  rw [firstPlace, selectors_append_single, List.idxOf_append_of_mem h, firstPlace]

theorem firstPlace_lt (h : s ∈ selectors clauses) :
    firstPlace clauses s < (selectors clauses).length :=
  List.idxOf_lt_length_iff.2 h

theorem firstPlace_append_of_not_mem (h : c.selector ∉ selectors clauses) :
    firstPlace (clauses ++ [c]) c.selector = (selectors clauses).length := by
  rw [firstPlace, selectors_append_single, List.idxOf_append, if_neg h]
  simp

theorem rank_isLE_topRank (hc : c ∈ clauses) :
    (c.rank.compare (topRank clauses c.selector)).isLE := by
  induction clauses using List.reverseRecOn with
  | nil => cases hc
  | append_singleton clauses last ih =>
      have hmax : ∀ top : Specificity, (top.compare (top.max last.rank)).isLE ∧
          (last.rank.compare (top.max last.rank)).isLE := fun top =>
        Specificity.isLE_max_iff.1 Std.ReflCmp.isLE_rfl
      rw [topRank_append_single]
      rcases List.mem_append.1 hc with hc | hc
      · split
        · exact Std.TransCmp.isLE_trans (ih hc) (hmax _).1
        · exact ih hc
      · obtain rfl := List.mem_singleton.1 hc
        rw [if_pos rfl]
        exact (hmax _).2

theorem exists_rank_eq_topRank (hs : s ∈ selectors clauses) :
    ∃ c ∈ clauses, c.selector = s ∧ c.rank = topRank clauses s := by
  induction clauses using List.reverseRecOn with
  | nil => cases hs
  | append_singleton clauses last ih =>
      rw [topRank_append_single]
      by_cases hold : s ∈ selectors clauses
      · obtain ⟨c, hc, hselector, hrank⟩ := ih hold
        have hmem : c ∈ clauses ++ [last] := List.mem_append_left _ hc
        split
        · next heq =>
          rcases Specificity.max_eq_or (topRank clauses s) last.rank with hmax | hmax
          · exact ⟨c, hmem, hselector, hrank.trans hmax.symm⟩
          · exact ⟨last, List.mem_append_right _ List.mem_cons_self, heq, hmax.symm⟩
        · exact ⟨c, hmem, hselector, hrank⟩
      · rw [selectors_append_single, List.mem_append, List.mem_singleton] at hs
        have heq : last.selector = s := (hs.resolve_left hold).symm
        rw [if_pos heq, topRank_of_not_mem hold, Specificity.least_max]
        exact ⟨last, List.mem_append_right _ List.mem_cons_self, heq, rfl⟩

theorem exists_of_lastValue? (h : lastValue? dictionary clauses s property = some value) :
    ∃ c ∈ clauses, c.selector = s ∧ c.value? dictionary property = some value := by
  obtain ⟨c, hc, hvalue⟩ := List.exists_of_findSome?_eq_some h
  obtain ⟨hmem, hs⟩ := List.mem_filter.1 hc
  exact ⟨c, List.mem_reverse.1 hmem, of_decide_eq_true hs, hvalue⟩

theorem lastValue?_ne_none (hc : c ∈ clauses) (h : c.value? dictionary property ≠ none) :
    lastValue? dictionary clauses c.selector property ≠ none := by
  rw [lastValue?, Ne, List.findSome?_eq_none_iff]
  exact fun hnone => h (hnone c (List.mem_filter.2 ⟨List.mem_reverse.2 hc, decide_eq_true rfl⟩))

/-- Whether a clause sets a property of an element. -/
def Sets (dictionary : Dictionary) (t : Tree) (id : ElementId) (property : String) (c : Clause) :
    Prop :=
  c.selector.describes t id = true ∧ c.value? dictionary property ≠ none

instance (dictionary : Dictionary) (t : Tree) (id : ElementId) (property : String) (c : Clause) :
    Decidable (c.Sets dictionary t id property) :=
  inferInstanceAs (Decidable (_ ∧ _))

end Clause

open Clause

/-- The style that the clauses of its selector have become. -/
structure Sums (dictionary : Dictionary) (clauses : List Clause) (style : Style) : Prop where
  occurs : style.selector ∈ selectors clauses
  named : style.name = style.selector.styleName
  ranked : style.rank = topRank clauses style.selector
  valued : ∀ property,
    style.property? property = lastValue? dictionary clauses style.selector property

section Sums

@[simp]
theorem Style.merge_selector (style : Style) (properties : List (String × Value))
    (rank : Specificity) : (style.merge properties rank).selector = style.selector :=
  rfl

@[simp]
theorem Clause.style_selector (dictionary : Dictionary) (c : Clause) :
    (c.style dictionary).selector = c.selector :=
  rfl

variable {clauses : List Clause} {c : Clause} {style : Style}

theorem Sums.append_other (h : Sums dictionary clauses style) (hne : c.selector ≠ style.selector) :
    Sums dictionary (clauses ++ [c]) style where
  occurs := by
    rw [selectors_append_single]
    exact List.mem_append_left _ h.occurs
  named := h.named
  ranked := by
    rw [topRank_append_single, if_neg hne]
    exact h.ranked
  valued property := by
    rw [lastValue?_append_single, if_neg hne]
    exact h.valued property

theorem Sums.merge (h : Sums dictionary clauses style) (heq : c.selector = style.selector)
    (hvalues : ((c.rule.values dictionary).map (·.1)).Nodup) :
    Sums dictionary (clauses ++ [c]) (style.merge (c.rule.values dictionary) c.rank) where
  occurs := by
    rw [selectors_append_single]
    exact List.mem_append_left _ h.occurs
  named := h.named
  ranked := by
    rw [Style.merge_selector, topRank_append_single, if_pos heq]
    exact congrArg (·.max c.rank) h.ranked
  valued property := by
    rw [Style.merge_selector, lastValue?_append_single, if_pos heq]
    exact (valueIn_merge property hvalues style.properties).trans
      (congrArg (Option.or _) (h.valued property))

theorem sums_style (dictionary : Dictionary) (hnew : c.selector ∉ selectors clauses) :
    Sums dictionary (clauses ++ [c]) (c.style dictionary) where
  occurs := by
    rw [selectors_append_single]
    exact List.mem_append_right _ List.mem_cons_self
  named := rfl
  ranked := by
    rw [style_selector, topRank_append_single, if_pos rfl, topRank_of_not_mem hnew,
      Specificity.least_max]
    rfl
  valued property := by
    rw [style_selector, lastValue?_append_single, if_pos rfl, lastValue?_of_not_mem hnew,
      Option.or_none]
    rfl

end Sums

/-- The styles that some clauses have become, one for each selector. -/
structure Gathers (dictionary : Dictionary) (clauses : List Clause) (styles : List Style) :
    Prop where
  covers : ∀ s ∈ selectors clauses, s ∈ styles.map (·.selector)
  sums : ∀ style ∈ styles, Sums dictionary clauses style
  ordered : (styles.map (·.selector)).Pairwise fun r s =>
    firstPlace clauses r < firstPlace clauses s

section Gathers

variable {clauses : List Clause} {c : Clause} {styles before after : List Style} {old : Style}

theorem gathers_nil (dictionary : Dictionary) : Gathers dictionary [] [] where
  covers _ h := absurd h List.not_mem_nil
  sums _ h := absurd h List.not_mem_nil
  ordered := .nil

theorem Gathers.ordered_append (h : Gathers dictionary clauses styles) (c : Clause) :
    (styles.map (·.selector)).Pairwise fun r s =>
      firstPlace (clauses ++ [c]) r < firstPlace (clauses ++ [c]) s := by
  refine h.ordered.imp_of_mem fun {r s} hr hs hlt => ?_
  obtain ⟨style, hstyle, rfl⟩ := List.mem_map.1 hr
  obtain ⟨other, hother, rfl⟩ := List.mem_map.1 hs
  rwa [firstPlace_append_of_mem (h.sums _ hstyle).occurs,
    firstPlace_append_of_mem (h.sums _ hother).occurs]

theorem Gathers.selector_ne (h : Gathers dictionary clauses (before ++ old :: after))
    {style : Style} (hstyle : style ∈ before ++ after) : old.selector ≠ style.selector := by
  have hnodup : ((before ++ old :: after).map (·.selector)).Nodup :=
    h.ordered.imp fun hlt heq => Nat.ne_of_lt hlt (congrArg _ heq)
  rw [List.map_append, List.map_cons, List.nodup_middle, ← List.map_append, List.nodup_cons]
    at hnodup
  exact fun heq => hnodup.1 (heq ▸ List.mem_map_of_mem hstyle)

theorem Gathers.merge (h : Gathers dictionary clauses (before ++ old :: after))
    (heq : c.selector = old.selector) (hvalues : ((c.rule.values dictionary).map (·.1)).Nodup) :
    Gathers dictionary (clauses ++ [c])
      (before ++ old.merge (c.rule.values dictionary) c.rank :: after) := by
  have hmap : (before ++ old.merge (c.rule.values dictionary) c.rank :: after).map (·.selector) =
      (before ++ old :: after).map (·.selector) := by
    simp
  refine ⟨fun s hs => ?_, fun style hstyle => ?_, hmap ▸ h.ordered_append c⟩
  · rw [hmap]
    rw [selectors_append_single, List.mem_append, List.mem_singleton] at hs
    rcases hs with hs | rfl
    · exact h.covers s hs
    · exact heq ▸ List.mem_map_of_mem (List.mem_append_right _ List.mem_cons_self)
  · rcases List.mem_cons.1 (List.perm_middle.mem_iff.1 hstyle) with rfl | hother
    · exact (h.sums old (List.mem_append_right _ List.mem_cons_self)).merge heq hvalues
    · have hold := List.perm_middle.mem_iff.2 (List.mem_cons_of_mem old hother)
      exact (h.sums style hold).append_other (heq ▸ h.selector_ne hother)

theorem Gathers.append (h : Gathers dictionary clauses styles)
    (hnew : c.selector ∉ selectors clauses) :
    Gathers dictionary (clauses ++ [c]) (styles ++ [c.style dictionary]) := by
  refine ⟨fun s hs => ?_, fun style hstyle => ?_, ?_⟩
  · rw [selectors_append_single, List.mem_append, List.mem_singleton] at hs
    rw [List.map_append, List.mem_append]
    rcases hs with hs | rfl
    · exact Or.inl (h.covers s hs)
    · exact Or.inr List.mem_cons_self
  · rcases List.mem_append.1 hstyle with hstyle | hstyle
    · have hsums := h.sums style hstyle
      exact hsums.append_other fun hsame => hnew (hsame ▸ hsums.occurs)
    · obtain rfl := List.mem_singleton.1 hstyle
      exact sums_style dictionary hnew
  · rw [List.map_append, List.pairwise_append]
    refine ⟨h.ordered_append c, List.pairwise_singleton _ _, fun r hr s hs => ?_⟩
    obtain ⟨style, hstyle, rfl⟩ := List.mem_map.1 hr
    obtain rfl := List.mem_singleton.1 hs
    have hoccurs := (h.sums style hstyle).occurs
    rw [firstPlace_append_of_mem hoccurs]
    exact Nat.lt_of_lt_of_eq (firstPlace_lt hoccurs) (firstPlace_append_of_not_mem hnew).symm

theorem addStyle_cases (new : Style) (styles : List Style) :
    (∃ before old after, styles = before ++ old :: after ∧ old.name = new.name ∧
      addStyle new styles = before ++ old.merge new.properties new.rank :: after) ∨
    (∀ style ∈ styles, style.name ≠ new.name) ∧ addStyle new styles = styles ++ [new] := by
  induction styles with
  | nil => exact Or.inr ⟨fun _ h => absurd h List.not_mem_nil, rfl⟩
  | cons first rest ih =>
      by_cases hfirst : first.name = new.name
      · exact Or.inl ⟨[], first, rest, rfl, hfirst, by rw [addStyle, if_pos hfirst]; rfl⟩
      · rw [addStyle, if_neg hfirst]
        rcases ih with ⟨before, old, after, hrest, hold, hadd⟩ | ⟨hnone, hadd⟩
        · exact Or.inl ⟨first :: before, old, after, by rw [hrest]; rfl, hold, by rw [hadd]; rfl⟩
        · exact Or.inr ⟨List.forall_mem_cons.2 ⟨hfirst, hnone⟩, by rw [hadd]; rfl⟩

theorem Gathers.addStyle (h : Gathers dictionary clauses styles)
    (hnames : ∀ s ∈ selectors clauses, s.styleName = c.selector.styleName → s = c.selector)
    (hvalues : ((c.rule.values dictionary).map (·.1)).Nodup) :
    Gathers dictionary (clauses ++ [c]) (addStyle (c.style dictionary) styles) := by
  rcases addStyle_cases (c.style dictionary) styles with
    ⟨before, old, after, rfl, hold, hadd⟩ | ⟨hnone, hadd⟩
  · have hsums := h.sums old (List.mem_append_right _ List.mem_cons_self)
    -- a style of the same name is one of the same selector
    have heq : old.selector = c.selector :=
      hnames _ hsums.occurs (hsums.named.symm.trans hold)
    rw [hadd]
    exact h.merge heq.symm hvalues
  · rw [hadd]
    refine h.append fun hmem => ?_
    obtain ⟨style, hstyle, heq⟩ := List.mem_map.1 (h.covers _ hmem)
    refine hnone style hstyle ((h.sums style hstyle).named.trans ?_)
    rw [heq]
    rfl

def clausesOf (rules : List Rule) : List Clause :=
  rules.zipIdx.flatMap fun (rule, order) => rule.selectors.map fun s => ⟨rule, order, s⟩

theorem rule_mem_of_mem_clausesOf {rules : List Rule} (h : c ∈ clausesOf rules) :
    c.rule ∈ rules := by
  obtain ⟨⟨rule, order⟩, hrule, hc⟩ := List.mem_flatMap.1 h
  obtain ⟨s, -, rfl⟩ := List.mem_map.1 hc
  exact List.fst_mem_of_mem_zipIdx hrule

theorem selector_mem_of_mem_clausesOf {rules : List Rule} (h : c ∈ clausesOf rules) :
    c.selector ∈ c.rule.selectors := by
  obtain ⟨⟨rule, order⟩, -, hc⟩ := List.mem_flatMap.1 h
  obtain ⟨s, hs, rfl⟩ := List.mem_map.1 hc
  exact hs

theorem gathers_foldl (hvalues : ∀ c ∈ clauses, ((c.rule.values dictionary).map (·.1)).Nodup)
    (hnames : ∀ c ∈ clauses, ∀ c' ∈ clauses, c.selector.styleName = c'.selector.styleName →
      c.selector = c'.selector) :
    Gathers dictionary clauses ((clauses.map (·.style dictionary)).foldl
      (fun all new => Css.addStyle new all) []) := by
  induction clauses using List.reverseRecOn with
  | nil => exact gathers_nil dictionary
  | append_singleton clauses c ih =>
      rw [List.map_append, List.foldl_append]
      have hlast : c ∈ clauses ++ [c] := List.mem_append_right _ List.mem_cons_self
      refine Gathers.addStyle (ih ?_ ?_) ?_ (hvalues c hlast)
      · exact fun other hother => hvalues other (List.mem_append_left _ hother)
      · exact fun other hother other' hother' =>
          hnames other (List.mem_append_left _ hother) other' (List.mem_append_left _ hother')
      · intro s hs
        obtain ⟨other, hother, rfl⟩ := List.mem_map.1 hs
        exact hnames other (List.mem_append_left _ hother) c hlast

end Gathers

/-! ### The clauses of a sheet -/

/-- All selectors of some rules have a rank. -/
def Rankable (rules : List Rule) : Prop :=
  ∀ rule ∈ rules, ∀ s ∈ rule.selectors, s.Fits

instance (rules : List Rule) : Decidable (Rankable rules) :=
  inferInstanceAs (Decidable (∀ rule ∈ rules, ∀ s ∈ rule.selectors, s.Fits))

theorem Clause.styleOf_eq_ok {c : Clause} {style : Style} :
    StyleSheet.styleOf dictionary c.rule c.order c.selector = .ok style ↔
      c.selector.Fits ∧ style = c.style dictionary := by
  rw [StyleSheet.styleOf, bind_eq_ok, ← Specificity.exists_ofSelector_iff]
  constructor
  · rintro ⟨rank, hrank, ⟨⟩⟩
    refine ⟨⟨rank, hrank⟩, ?_⟩
    rw [Clause.style, Clause.rank, hrank]
    rfl
  · rintro ⟨⟨rank, hrank⟩, rfl⟩
    refine ⟨rank, hrank, ?_⟩
    rw [Clause.style, Clause.rank, hrank]
    rfl

theorem foldlM_addStyle_eq_ok {clauses : List Clause} {old styles : List Style} :
    (clauses.map fun c => StyleSheet.styleOf dictionary c.rule c.order c.selector).foldlM
        (fun all new => return addStyle (← new) all) old = .ok styles ↔
      (∀ c ∈ clauses, c.selector.Fits) ∧
        styles =
          (clauses.map (·.style dictionary)).foldl (fun all new => addStyle new all) old := by
  induction clauses generalizing old with
  | nil =>
      exact ⟨fun h => ⟨by simp, (Except.ok.inj h).symm⟩, fun h => congrArg Except.ok h.2.symm⟩
  | cons c clauses ih =>
      rw [List.map_cons, List.foldlM_cons, bind_eq_ok, List.forall_mem_cons, List.map_cons,
        List.foldl_cons]
      constructor
      · rintro ⟨all, hadd, hrest⟩
        obtain ⟨new, hnew, ⟨⟩⟩ := bind_eq_ok.1 hadd
        obtain ⟨hfits, rfl⟩ := styleOf_eq_ok.1 hnew
        obtain ⟨hothers, hstyles⟩ := ih.1 hrest
        exact ⟨⟨hfits, hothers⟩, hstyles⟩
      · rintro ⟨⟨hfits, hothers⟩, hstyles⟩
        exact ⟨_, bind_eq_ok.2 ⟨_, styleOf_eq_ok.2 ⟨hfits, rfl⟩, rfl⟩, ih.2 ⟨hothers, hstyles⟩⟩

theorem mem_clausesOf {rules : List Rule} {rule : Rule} {s : Selector} (hrule : rule ∈ rules)
    (hs : s ∈ rule.selectors) : ∃ c ∈ clausesOf rules, c.rule = rule ∧ c.selector = s := by
  rw [← List.zipIdx_map_fst 0 rules] at hrule
  obtain ⟨⟨rule, order⟩, horder, rfl⟩ := List.mem_map.1 hrule
  exact ⟨⟨rule, order, s⟩, List.mem_flatMap.2 ⟨_, horder, List.mem_map_of_mem hs⟩, rfl, rfl⟩

theorem rankable_iff {rules : List Rule} :
    Rankable rules ↔ ∀ c ∈ clausesOf rules, c.selector.Fits := by
  constructor
  · exact fun h c hc => h c.rule (rule_mem_of_mem_clausesOf hc) c.selector
      (selector_mem_of_mem_clausesOf hc)
  · intro h rule hrule s hs
    obtain ⟨c, hc, -, rfl⟩ := mem_clausesOf hrule hs
    exact h c hc

namespace StyleSheet

variable {fileName : String} {rules : List Rule} {sheet : StyleSheet}

/-- The sheet whose styles are those of the clauses of some rules, added in turn. -/
def ofRules (fileName : String) (dictionary : Dictionary) (rules : List Rule) : StyleSheet where
  fileName
  styles := ((clausesOf rules).map (·.style dictionary)).foldl (fun all new => addStyle new all) []
  unsupported := rules.flatMap fun rule =>
    rule.selectors.flatMap fun selector => rule.refusals dictionary selector.styleName

/-- Some rules are compiled to their sheet if all their selectors have a rank. -/
theorem compile_eq_ok : compile fileName dictionary rules = .ok sheet ↔
    Rankable rules ∧ sheet = ofRules fileName dictionary rules := by
  -- the rules with their selectors are the clauses
  have hclauses : (rules.zipIdx.flatMap fun (rule, order) =>
      rule.selectors.map (styleOf dictionary rule order)) =
      (clausesOf rules).map fun c => styleOf dictionary c.rule c.order c.selector := by
    rw [clausesOf, List.map_flatMap]
    simp only [List.map_map]
    rfl
  rw [compile, hclauses, bind_eq_ok, rankable_iff]
  constructor
  · rintro ⟨styles, hstyles, ⟨⟩⟩
    obtain ⟨hfits, rfl⟩ := foldlM_addStyle_eq_ok.1 hstyles
    exact ⟨hfits, rfl⟩
  · rintro ⟨hfits, rfl⟩
    exact ⟨_, foldlM_addStyle_eq_ok.2 ⟨hfits, rfl⟩, rfl⟩

theorem compile_of_rankable (fileName : String) (dictionary : Dictionary) (h : Rankable rules) :
    compile fileName dictionary rules = .ok (ofRules fileName dictionary rules) :=
  compile_eq_ok.2 ⟨h, rfl⟩

theorem exists_compile_iff : (∃ sheet, compile fileName dictionary rules = .ok sheet) ↔
    Rankable rules :=
  ⟨fun ⟨_, h⟩ => (compile_eq_ok.1 h).1, fun h => ⟨_, compile_of_rankable fileName dictionary h⟩⟩

theorem styles_compile (h : compile fileName dictionary rules = .ok sheet) : sheet.styles =
    ((clausesOf rules).map (·.style dictionary)).foldl (fun all new => addStyle new all) [] := by
  rw [(compile_eq_ok.1 h).2, ofRules]

end StyleSheet

/-! ### The choice among the styles -/

section preferred

variable {candidates : List (Specificity × Value)} {best : Specificity × Value}

theorem foldl_preferred_eq_none (h : candidates.foldl preferred none = none) : candidates = [] := by
  induction candidates using List.reverseRecOn with
  | nil => rfl
  | append_singleton rest new =>
      rw [List.foldl_append, List.foldl_cons, List.foldl_nil, preferred.eq_def] at h
      split at h
      · split at h <;> cases h
      · cases h

/-- No candidate is above the one that is preferred, and those after it are below. -/
theorem foldl_preferred_eq_some (h : candidates.foldl preferred none = some best) :
    ∃ before after, candidates = before ++ best :: after ∧
      (∀ other ∈ before, (other.1.compare best.1).isLE) ∧
      ∀ other ∈ after, other.1.compare best.1 = .lt := by
  induction candidates using List.reverseRecOn generalizing best with
  | nil => cases h
  | append_singleton rest new ih =>
      rw [List.foldl_append, List.foldl_cons, List.foldl_nil] at h
      cases hrest : rest.foldl preferred none with
      | none =>
          obtain rfl := foldl_preferred_eq_none hrest
          obtain rfl := Option.some.inj h
          exact ⟨[], [], rfl, by simp, by simp⟩
      | some old =>
          obtain ⟨before, after, rfl, hbefore, hafter⟩ := ih hrest
          rw [hrest, preferred] at h
          split at h
          · next hlt =>
            obtain rfl := Option.some.inj h
            refine ⟨before, after ++ [new], by simp, hbefore, fun other hother => ?_⟩
            rcases List.mem_append.1 hother with hother | hother
            · exact hafter other hother
            · exact List.mem_singleton.1 hother ▸ hlt
          · next hge =>
            obtain rfl := Option.some.inj h
            have hold : (old.1.compare new.1).isLE :=
              Ordering.isLE_iff_ne_gt.2 fun hgt => hge (Std.OrientedCmp.gt_iff_lt.1 hgt)
            refine ⟨before ++ old :: after, [], by simp, fun other hother => ?_, by simp⟩
            rcases List.mem_append.1 hother with hother | hother
            · exact Std.TransCmp.isLE_trans (hbefore other hother) hold
            · rcases List.mem_cons.1 hother with rfl | hother
              · exact hold
              · exact Std.TransCmp.isLE_trans
                  (Ordering.isLE_of_eq_lt (hafter other hother)) hold

end preferred

def Style.offer? (style : Style) (property : String) (t : Tree) (id : ElementId) :
    Option (Specificity × Value) :=
  match style.property? property with
  | some value => if style.selector.describes t id then some (style.rank, value) else none
  | none => none

theorem resolve_eq (sheet : StyleSheet) (property : String) (t : Tree) (id : ElementId) :
    sheet.resolve property t id =
      ((sheet.styles.filterMap (·.offer? property t id)).foldl preferred none).map (·.2) :=
  rfl

section Gathers

variable {clauses : List Clause} {styles : List Style} {r s : Selector} {t : Tree} {id : ElementId}

/-- The style of a selector gives way to that of another one: its rank is lower, or it is the same
and the selector does not occur later for the first time. -/
def GivesWay (clauses : List Clause) (r s : Selector) : Prop :=
  (topRank clauses r).compare (topRank clauses s) = .lt ∨
    topRank clauses r = topRank clauses s ∧ firstPlace clauses r ≤ firstPlace clauses s

instance (clauses : List Clause) (r s : Selector) : Decidable (GivesWay clauses r s) :=
  inferInstanceAs (Decidable (_ ∨ _))

theorem GivesWay.antisymm (hr : r ∈ selectors clauses) (hrs : GivesWay clauses r s)
    (hsr : GivesWay clauses s r) : r = s := by
  rcases hrs with hlt | ⟨htop, hle⟩
  · rcases hsr with hgt | ⟨htop, -⟩
    · exact absurd hgt (by simp [Std.OrientedCmp.gt_of_lt hlt])
    · exact absurd hlt (by simp [htop, Std.ReflCmp.compare_self])
  · rcases hsr with hlt | ⟨-, hge⟩
    · exact absurd hlt (by simp [htop, Std.ReflCmp.compare_self])
    · exact (List.idxOf_inj hr).1 (Nat.le_antisymm hle hge)

theorem GivesWay.isLE (h : GivesWay clauses r s) :
    ((topRank clauses r).compare (topRank clauses s)).isLE := by
  rcases h with hlt | ⟨heq, -⟩
  · exact Ordering.isLE_of_eq_lt hlt
  · exact heq ▸ Std.ReflCmp.isLE_rfl

theorem Sums.offer?_eq_some_iff {style : Style} (h : Sums dictionary clauses style)
    {offer : Specificity × Value} :
    style.offer? property t id = some offer ↔ style.selector.describes t id = true ∧
      lastValue? dictionary clauses style.selector property = some offer.2 ∧
      topRank clauses style.selector = offer.1 := by
  obtain ⟨rank, value⟩ := offer
  rw [Style.offer?, ← h.valued, ← h.ranked]
  cases style.property? property with
  | none => simp
  | some found =>
      by_cases hdescribes : style.selector.describes t id = true
      · simp [hdescribes, and_comm]
      · simp [hdescribes]

theorem Gathers.exists_offer (h : Gathers dictionary clauses styles) {c : Clause}
    (hc : c ∈ clauses) (hsets : c.Sets dictionary t id property) :
    ∃ style ∈ styles, ∃ value, style.selector = c.selector ∧
      style.offer? property t id = some (topRank clauses style.selector, value) := by
  obtain ⟨style, hstyle, heq⟩ := List.mem_map.1 (h.covers _ (List.mem_map_of_mem hc))
  obtain ⟨value, hvalue⟩ := Option.ne_none_iff_exists'.1 (lastValue?_ne_none hc hsets.2)
  exact ⟨style, hstyle, value, heq, (h.sums style hstyle).offer?_eq_some_iff.2
    ⟨heq ▸ hsets.1, heq ▸ hvalue, rfl⟩⟩

/-- A selector describes an element, its clauses give a property a value, and all clauses that set
the property of the element give way to it. -/
structure Prevails (dictionary : Dictionary) (clauses : List Clause) (t : Tree) (id : ElementId)
    (property : String) (s : Selector) (value : Value) : Prop where
  describes : s.describes t id = true
  last : lastValue? dictionary clauses s property = some value
  rivals : ∀ c ∈ clauses, c.Sets dictionary t id property → GivesWay clauses c.selector s

theorem Prevails.exists_sets (h : Prevails dictionary clauses t id property s value) :
    ∃ c ∈ clauses, c.selector = s ∧ c.value? dictionary property = some value ∧
      c.Sets dictionary t id property := by
  obtain ⟨c, hc, rfl, hvalue⟩ := exists_of_lastValue? h.last
  exact ⟨c, hc, rfl, hvalue, h.describes, by simp [hvalue]⟩

theorem Prevails.value_eq {value' : Value}
    (h : Prevails dictionary clauses t id property s value)
    (h' : Prevails dictionary clauses t id property r value') : value = value' := by
  obtain ⟨c, hc, rfl, -, hsets⟩ := h.exists_sets
  obtain ⟨c', hc', rfl, -, hsets'⟩ := h'.exists_sets
  have heq := GivesWay.antisymm (List.mem_map_of_mem hc) (h'.rivals c hc hsets)
    (h.rivals c' hc' hsets')
  exact Option.some.inj (h.last.symm.trans (heq ▸ h'.last))

theorem Gathers.exists_prevails (h : Gathers dictionary clauses styles)
    {best : Specificity × Value}
    (hbest : (styles.filterMap (·.offer? property t id)).foldl preferred none = some best) :
    ∃ s, Prevails dictionary clauses t id property s best.2 := by
  obtain ⟨before, after, hsplit, hbefore, hafter⟩ := foldl_preferred_eq_some hbest
  obtain ⟨front, rest, rfl, rfl, hrest⟩ := List.filterMap_eq_append_iff.1 hsplit
  obtain ⟨idle, style, back, rfl, hidle, hoffer, rfl⟩ := List.filterMap_eq_cons_iff.1 hrest
  have hself : style ∈ front ++ (idle ++ style :: back) := by simp
  have hsums := h.sums style hself
  obtain ⟨hdescribes, hvalue, htop⟩ := hsums.offer?_eq_some_iff.1 hoffer
  refine ⟨style.selector, hdescribes, hvalue, fun c hc hsets => ?_⟩
  obtain ⟨rival, hrival, rivalValue, heq, hrivalOffer⟩ := h.exists_offer hc hsets
  rw [← heq]
  -- a rival in front may be equal, one behind is below
  rcases List.mem_append.1 hrival with hfront | hrest
  · have hle := hbefore _ (List.mem_filterMap.2 ⟨rival, hfront, hrivalOffer⟩)
    rw [← htop] at hle
    have hplace : firstPlace clauses rival.selector < firstPlace clauses style.selector := by
      have hordered := h.ordered
      rw [List.map_append, List.pairwise_append] at hordered
      exact hordered.2.2 _ (List.mem_map_of_mem hfront) _ (List.mem_map_of_mem (by simp))
    rcases Ordering.isLE_iff_eq_lt_or_eq_eq.1 hle with hlt | heq
    · exact Or.inl hlt
    · exact Or.inr ⟨Std.LawfulEqCmp.eq_of_compare heq, Nat.le_of_lt hplace⟩
  · rcases List.mem_append.1 hrest with hsilent | hrest
    · exact absurd (hrivalOffer.symm.trans (hidle rival hsilent)) (by simp)
    · rcases List.mem_cons.1 hrest with rfl | hback
      · exact Or.inr ⟨rfl, Nat.le_refl _⟩
      · have hlt := hafter _ (List.mem_filterMap.2 ⟨rival, hback, hrivalOffer⟩)
        rw [← htop] at hlt
        exact Or.inl hlt

theorem Gathers.not_sets (h : Gathers dictionary clauses styles)
    (hnone : (styles.filterMap (·.offer? property t id)).foldl preferred none = none)
    {c : Clause} (hc : c ∈ clauses) : ¬ c.Sets dictionary t id property := by
  intro hsets
  obtain ⟨style, hstyle, found, -, hoffer⟩ := h.exists_offer hc hsets
  have hmem : (topRank clauses style.selector, found) ∈
      styles.filterMap (·.offer? property t id) :=
    List.mem_filterMap.2 ⟨style, hstyle, hoffer⟩
  rw [foldl_preferred_eq_none hnone] at hmem
  cases hmem

end Gathers

/-! ### The cascade -/

namespace StyleSheet

variable {rules : List Rule} {fileName : String} {sheet : StyleSheet}

theorem gathers_compile (hsheet : compile fileName dictionary rules = .ok sheet)
    (hvalues : ∀ rule ∈ rules, ((rule.values dictionary).map (·.1)).Nodup)
    (hnames : ∀ c ∈ clausesOf rules, ∀ c' ∈ clausesOf rules,
      c.selector.styleName = c'.selector.styleName → c.selector = c'.selector) :
    Gathers dictionary (clausesOf rules) sheet.styles := by
  rw [styles_compile hsheet]
  exact gathers_foldl (fun c hc => hvalues c.rule (rule_mem_of_mem_clausesOf hc)) hnames

theorem exists_prevails_of_resolve (hgathers : Gathers dictionary (clausesOf rules) sheet.styles)
    {t : Tree} {id : ElementId} (h : sheet.resolve property t id = some value) :
    ∃ s, Prevails dictionary (clausesOf rules) t id property s value := by
  rw [resolve_eq, Option.map_eq_some_iff] at h
  obtain ⟨best, hbest, rfl⟩ := h
  exact hgathers.exists_prevails hbest

/-- The text of a sheet in which a selector occurs twice, with another one between. -/
def tangledText : String :=
  "ReportDesign > * \x7b color: red; \x7d Label \x7b color: blue; \x7d " ++
    "ReportDesign > * \x7b font-weight: bold; \x7d"

def tangled : List Rule :=
  [⟨[.within (.compound [.ofType "ReportDesign"]) .child [.universal]],
      [⟨"color", [.ident "red"], false⟩]⟩,
    ⟨[.compound [.ofType "Label"]], [⟨"color", [.ident "blue"], false⟩]⟩,
    ⟨[.within (.compound [.ofType "ReportDesign"]) .child [.universal]],
      [⟨"font-weight", [.ident "bold"], false⟩]⟩]

/-- A design with a label in its body. -/
def labelTree : Tree :=
  ((Tree.new Vocabulary.reports "ReportDesign").create "Label" (some "total")).attach ⟨1, 0⟩
    ⟨⟨0, 0⟩, "body"⟩ 0

theorem readRules_tangled : readRules tangledText = .ok tangled := by
  decide +kernel

theorem values_tangled :
    ∀ rule ∈ tangled, ((rule.values Vocabulary.reports).map (·.1)).Nodup := by
  decide +kernel

theorem rankable_tangled : Rankable tangled := by
  decide +kernel

theorem styleNames_tangled : ∀ c ∈ clausesOf tangled, ∀ c' ∈ clausesOf tangled,
    c.selector.styleName = c'.selector.styleName → c.selector = c'.selector := by
  decide +kernel

/-- Rules give a sheet if all their selectors have a rank. A property of an element then has the
value of the last clause that sets it of the selector whose clauses have the greatest rank, of all
selectors that describe the element and have a clause that sets the property. -/
theorem resolve_compile (fileName : String) (dictionary : Dictionary)
    (hvalues : ∀ rule ∈ rules, ((rule.values dictionary).map (·.1)).Nodup)
    (hnames : ∀ c ∈ clausesOf rules, ∀ c' ∈ clausesOf rules,
      c.selector.styleName = c'.selector.styleName → c.selector = c'.selector) :
    ((∃ sheet, compile fileName dictionary rules = .ok sheet) ↔ Rankable rules) ∧
    ∀ sheet, compile fileName dictionary rules = .ok sheet →
      ∀ (t : Tree) (id : ElementId) (property : String),
        (∀ value, sheet.resolve property t id = some value ↔
          ∃ s, Prevails dictionary (clausesOf rules) t id property s value) ∧
        (sheet.resolve property t id = none ↔
          ∀ c ∈ clausesOf rules, ¬ c.Sets dictionary t id property) := by
  refine ⟨exists_compile_iff, fun sheet hsheet t id property => ?_⟩
  have hgathers := gathers_compile hsheet hvalues hnames
  cases hresolve : sheet.resolve property t id with
  | none =>
      have hnot : ∀ c ∈ clausesOf rules, ¬ c.Sets dictionary t id property :=
        fun c hc => hgathers.not_sets (Option.map_eq_none_iff.1 hresolve) hc
      refine ⟨fun value => iff_of_false (by simp) ?_, iff_of_true rfl hnot⟩
      rintro ⟨s, hs⟩
      obtain ⟨c, hc, -, -, hsets⟩ := hs.exists_sets
      exact hnot c hc hsets
  | some found =>
      obtain ⟨s, hs⟩ := exists_prevails_of_resolve hgathers hresolve
      obtain ⟨c, hc, -, -, hsets⟩ := hs.exists_sets
      refine ⟨fun value => ⟨?_, ?_⟩, iff_of_false (by simp) fun hnot => hnot c hc hsets⟩
      · rintro ⟨⟩
        exact ⟨s, hs⟩
      · rintro ⟨r, hr⟩
        exact congrArg some (hs.value_eq hr)

theorem resolve_compile_tangled :
    ∃ sheet, compile "report.css" Vocabulary.reports tangled = .ok sheet ∧
      sheet.resolve "color" labelTree ⟨1, 0⟩ = some (.color "red") := by
  obtain ⟨hexists, hresolve⟩ :=
    resolve_compile "report.css" Vocabulary.reports values_tangled styleNames_tangled
  obtain ⟨sheet, hsheet⟩ := hexists.2 rankable_tangled
  refine ⟨sheet, hsheet, ((hresolve sheet hsheet labelTree ⟨1, 0⟩ "color").1 (.color "red")).2
    ⟨.within (.compound [.ofType "ReportDesign"]) .child [.universal], ?_, ?_, ?_⟩⟩
  · decide +kernel
  · decide +kernel
  · decide +kernel

/-- The last rule of the text does not set the colour, but it lifts the first rule above the second
one, although that is of a higher rank. -/
theorem tangled_outranked :
    readRules tangledText = .ok tangled ∧
    (∀ rule ∈ tangled, ((rule.values Vocabulary.reports).map (·.1)).Nodup) ∧
    (∀ c ∈ clausesOf tangled, ∀ c' ∈ clausesOf tangled,
      c.selector.styleName = c'.selector.styleName → c.selector = c'.selector) ∧
    (compile "report.css" Vocabulary.reports tangled).map
      (·.resolve "color" labelTree ⟨1, 0⟩) = .ok (some (.color "red")) ∧
    ∃ c ∈ clausesOf tangled, c.Sets Vocabulary.reports labelTree ⟨1, 0⟩ "color" ∧
      c.value? Vocabulary.reports "color" = some (.color "blue") ∧
      ∀ c' ∈ clausesOf tangled, c'.Sets Vocabulary.reports labelTree ⟨1, 0⟩ "color" →
        c' = c ∨ c'.rank.compare c.rank = .lt := by
  refine ⟨readRules_tangled, values_tangled, styleNames_tangled, ?_, ?_⟩
  · decide +kernel
  · decide +kernel

/-- If no selector occurs twice, a property of an element has the value of the clause of the
greatest rank among those that set it. -/
theorem resolve_compile_of_once (hsheet : compile fileName dictionary rules = .ok sheet)
    (hvalues : ∀ rule ∈ rules, ((rule.values dictionary).map (·.1)).Nodup)
    (honce : ∀ c ∈ clausesOf rules, ∀ c' ∈ clausesOf rules,
      c.selector.styleName = c'.selector.styleName → c = c')
    {t : Tree} {id : ElementId} (hresolve : sheet.resolve property t id = some value) :
    ∃ c ∈ clausesOf rules, c.Sets dictionary t id property ∧
      c.value? dictionary property = some value ∧
      ∀ c' ∈ clausesOf rules, c'.Sets dictionary t id property →
        (c'.rank.compare c.rank).isLE := by
  have hgathers := gathers_compile hsheet hvalues fun c hc c' hc' h =>
    congrArg Clause.selector (honce c hc c' hc' h)
  obtain ⟨s, hs⟩ := exists_prevails_of_resolve hgathers hresolve
  obtain ⟨c, hc, rfl, hvalue, hsets⟩ := hs.exists_sets
  refine ⟨c, hc, hsets, hvalue, fun c' hc' hsets' => ?_⟩
  -- the clause of the greatest rank is the only one of its selector
  obtain ⟨top, htop, hselector, hrank⟩ := exists_rank_eq_topRank (List.mem_map_of_mem hc)
  obtain rfl := honce top htop c hc (congrArg Selector.styleName hselector)
  rw [hrank]
  exact Std.TransCmp.isLE_trans (rank_isLE_topRank hc') (hs.rivals c' hc' hsets').isLE

end StyleSheet

end ReportModel.Css
