import ReportModel.Proofs.Css.Cascade

/-!
# Merging by name

The style of a name is made of the clauses whose selectors have that name: the first of them gives
its values as they are listed, and each of the others sets them anew, one after the other. So a
later declaration overrides an earlier one, except within the first clause: a style is asked for the
first value listed, and if the first clause sets a property twice, that is the earlier one.
-/

namespace ReportModel.Css

variable {dictionary : Dictionary} {property : String} {rules : List Rule}

/-! ## Values listed and set -/

/-- The value that is given last to a property in a list of values. -/
def lastValueIn (property : String) (entries : List (String × Value)) : Option Value :=
  valueIn property entries.reverse

section values

variable {entries new : List (String × Value)}

theorem valueIn_append (property : String) (entries new : List (String × Value)) :
    valueIn property (entries ++ new) = (valueIn property entries).or (valueIn property new) := by
  rw [valueIn, List.find?_append, Option.map_or]
  rfl

theorem lastValueIn_append (property : String) (entries new : List (String × Value)) :
    lastValueIn property (entries ++ new) =
      (lastValueIn property new).or (lastValueIn property entries) := by
  rw [lastValueIn, List.reverse_append, valueIn_append]
  rfl

theorem valueIn_setAll (property : String) (new entries : List (String × Value)) :
    valueIn property (new.foldl (fun all entry => Style.setValue entry all) entries) =
      (lastValueIn property new).or (valueIn property entries) := by
  induction new generalizing entries with
  | nil => rfl
  | cons entry new ih =>
      rw [List.foldl_cons, ih, valueIn_setValue, ← List.singleton_append, lastValueIn_append,
        Option.or_assoc]
      congr 1
      rw [lastValueIn, List.reverse_singleton, valueIn_cons]
      split <;> rfl

theorem valueIn_isSome_iff :
    (valueIn property entries).isSome = true ↔ property ∈ entries.map (·.1) := by
  rw [valueIn, Option.isSome_map, List.find?_isSome, List.mem_map]
  simp only [decide_eq_true_eq]

theorem valueIn_eq_lastValueIn
    (h : ∀ v w, (property, v) ∈ entries → (property, w) ∈ entries → v = w) :
    valueIn property entries = lastValueIn property entries := by
  have hsome : (valueIn property entries).isSome = true ↔
      (lastValueIn property entries).isSome = true := by
    rw [lastValueIn, valueIn_isSome_iff, valueIn_isSome_iff, List.map_reverse, List.mem_reverse]
  cases hfirst : valueIn property entries with
  | none =>
      rw [hfirst, Option.isSome_none] at hsome
      exact (Option.not_isSome_iff_eq_none.1 fun hlast => Bool.false_ne_true (hsome.2 hlast)).symm
  | some v =>
      obtain ⟨w, hlast⟩ := Option.isSome_iff_exists.1 (hsome.1 (hfirst ▸ Option.isSome_some))
      have hw := List.mem_reverse.1 (mem_of_valueIn hlast)
      rw [hlast, h v w (mem_of_valueIn hfirst) hw]

end values

/-! ## The clauses of a name -/

namespace Clause

def named (name : String) (clauses : List Clause) : List Clause :=
  clauses.filter (·.selector.styleName = name)

theorem named_append_single (name : String) (clauses : List Clause) (c : Clause) :
    named name (clauses ++ [c]) =
      if c.selector.styleName = name then named name clauses ++ [c] else named name clauses := by
  rw [named, List.filter_append, List.filter_singleton]
  by_cases h : c.selector.styleName = name <;> simp [named, h]

def settings (dictionary : Dictionary) (clauses : List Clause) : List (String × Value) :=
  clauses.flatMap (·.rule.values dictionary)

def mergeAll (dictionary : Dictionary) (clauses : List Clause) (style : Style) : Style :=
  clauses.foldl (fun style c => style.merge (c.rule.values dictionary) c.rank) style

/-- The style that clauses of one name become. -/
def merged? (dictionary : Dictionary) : List Clause → Option Style
  | [] => none
  | first :: more => some (mergeAll dictionary more (first.style dictionary))

theorem merged?_append_single (clauses : List Clause) (c : Clause) :
    merged? dictionary (clauses ++ [c]) =
      some (match merged? dictionary clauses with
        | none => c.style dictionary
        | some style => style.merge (c.rule.values dictionary) c.rank) := by
  cases clauses with
  | nil => rfl
  | cons first more => simp [merged?, mergeAll]

theorem property?_mergeAll (dictionary : Dictionary) (clauses : List Clause) (style : Style)
    (property : String) : (mergeAll dictionary clauses style).property? property =
      (lastValueIn property (settings dictionary clauses)).or (style.property? property) := by
  induction clauses generalizing style with
  | nil => rfl
  | cons c clauses ih =>
      have hsettings : settings dictionary (c :: clauses) =
          c.rule.values dictionary ++ settings dictionary clauses := List.flatMap_cons
      rw [mergeAll, List.foldl_cons, ← mergeAll, ih, hsettings, lastValueIn_append,
        Option.or_assoc]
      exact congrArg _ (valueIn_setAll property _ _)

end Clause

open Clause

/-! ## The rules of a name -/

def Rule.gives (rule : Rule) (name : String) : Bool :=
  rule.selectors.any (·.styleName = name)

theorem Rule.countP_eq_zero_iff {rule : Rule} {name : String} :
    rule.selectors.countP (·.styleName = name) = 0 ↔ ¬rule.gives name = true := by
  rw [List.countP_eq_zero, gives, List.any_eq_true, not_exists]
  simp only [not_and]

theorem rules_named (name : String) (rules : List Rule) :
    (named name (clausesOf rules)).map (·.rule) =
      rules.flatMap fun rule =>
        List.replicate (rule.selectors.countP (·.styleName = name)) rule := by
  have hrule (entry : Rule × Nat) :
      ((entry.1.selectors.map fun s => Clause.mk entry.1 entry.2 s).filter
        (·.selector.styleName = name)).map (·.rule) =
        List.replicate (entry.1.selectors.countP (·.styleName = name)) entry.1 := by
    rw [List.filter_map, List.map_map, List.countP_eq_length_filter, ← List.map_const']
    rfl
  rw [named, clausesOf, List.filter_flatMap, List.map_flatMap]
  simp only [hrule]
  rw [← List.zipIdx_map_fst 0 rules, List.flatMap_map, List.zipIdx_map_fst]

theorem head?_named (name : String) (rules : List Rule) :
    (named name (clausesOf rules)).head?.map (·.rule) = (rules.filter (·.gives name)).head? := by
  rw [← List.head?_map, rules_named]
  induction rules with
  | nil => rfl
  | cons rule rules ih =>
      rw [List.flatMap_cons, List.head?_append, ih, List.head?_replicate, List.filter_cons]
      by_cases h : rule.gives name = true
      · rw [if_pos h, if_neg fun hzero => Rule.countP_eq_zero_iff.1 hzero h]
        rfl
      · rw [if_neg h, if_pos (Rule.countP_eq_zero_iff.2 h), Option.none_or]

/-- Values that are listed several times in a row count as if they were listed once. -/
theorem lastValueIn_replicate_append (n : Nat) (values entries : List (String × Value)) :
    lastValueIn property ((List.replicate (n + 1) values).flatten ++ entries) =
      lastValueIn property (values ++ entries) := by
  have hcopies : lastValueIn property (List.replicate (n + 1) values).flatten =
      lastValueIn property values := by
    induction n with
    | zero => simp
    | succ n ih =>
        rw [List.replicate_succ, List.flatten_cons, lastValueIn_append, ih, Option.or_self]
  rw [lastValueIn_append, lastValueIn_append, hcopies]

theorem lastValueIn_settings_named (name : String) (rules : List Rule) :
    lastValueIn property (settings dictionary (named name (clausesOf rules))) =
      lastValueIn property ((rules.filter (·.gives name)).flatMap (·.values dictionary)) := by
  rw [settings, ← List.flatMap_map, rules_named]
  induction rules with
  | nil => rfl
  | cons rule rules ih =>
      rw [List.flatMap_cons, List.flatMap_append, List.flatMap_replicate, List.filter_cons]
      by_cases h : rule.gives name = true
      · have hcount := fun hzero => Rule.countP_eq_zero_iff.1 hzero h
        obtain ⟨n, hn⟩ := Nat.exists_eq_succ_of_ne_zero hcount
        rw [if_pos h, hn, lastValueIn_replicate_append, List.flatMap_cons, lastValueIn_append,
          lastValueIn_append, ih]
      · rw [if_neg h, Rule.countP_eq_zero_iff.2 h, ← ih]
        rfl

/-! ## The style of a name -/

theorem find?_addStyle (new : Style) (styles : List Style) (name : String) :
    (addStyle new styles).find? (·.name = name) =
      if new.name = name then
        some (match styles.find? (·.name = name) with
          | none => new
          | some old => old.merge new.properties new.rank)
      else styles.find? (·.name = name) := by
  induction styles with
  | nil => by_cases h : new.name = name <;> simp [addStyle, h]
  | cons style rest ih =>
      rw [addStyle]
      by_cases hsame : style.name = new.name
      · rw [if_pos hsame, List.find?_cons, List.find?_cons]
        by_cases hname : style.name = name
        · simp [Style.merge, hname, ← hsame]
        · simp [Style.merge, hname, ← hsame]
      · rw [if_neg hsame, List.find?_cons, List.find?_cons, ih]
        by_cases hname : style.name = name
        · simp [hname, show new.name ≠ name from fun h => hsame (hname.trans h.symm)]
        · simp [hname]

theorem find?_foldl_addStyle (clauses : List Clause) (name : String) :
    ((clauses.map (·.style dictionary)).foldl (fun all new => addStyle new all) []).find?
      (·.name = name) = merged? dictionary (named name clauses) := by
  induction clauses using List.reverseRecOn with
  | nil => rfl
  | append_singleton clauses c ih =>
      rw [List.map_append, List.foldl_append, List.map_singleton, List.foldl_cons, List.foldl_nil,
        find?_addStyle, ih, named_append_single]
      by_cases h : c.selector.styleName = name
      · rw [if_pos h, if_pos (show (c.style dictionary).name = name from h), merged?_append_single]
        rfl
      · rw [if_neg h, if_neg (show (c.style dictionary).name ≠ name from h)]

namespace StyleSheet

variable {fileName : String} {sheet : StyleSheet}

theorem style?_compile (hsheet : compile fileName dictionary rules = .ok sheet) (name : String) :
    sheet.style? name = merged? dictionary (named name (clausesOf rules)) := by
  rw [style?, styles_compile hsheet, find?_foldl_addStyle]

/-- A style is asked for what the clauses after the first one set last, then for what the first one
lists first. If the first rule of the name gives the property one value only, this is what all rules
of the name set last. -/
theorem property?_compile (hsheet : compile fileName dictionary rules = .ok sheet)
    (name property : String) :
    (sheet.style? name).map (·.property? property) =
      (match named name (clausesOf rules) with
        | [] => none
        | first :: more => some ((lastValueIn property (settings dictionary more)).or
            (valueIn property (first.rule.values dictionary)))) ∧
    ((∀ first ∈ (rules.filter (·.gives name)).head?, ∀ v w,
        (property, v) ∈ first.values dictionary → (property, w) ∈ first.values dictionary →
          v = w) →
      ∀ style, sheet.style? name = some style → style.property? property =
        lastValueIn property ((rules.filter (·.gives name)).flatMap (·.values dictionary))) := by
  rw [style?_compile hsheet]
  cases hnamed : named name (clausesOf rules) with
  | nil => exact ⟨rfl, fun _ style hstyle => nomatch hstyle⟩
  | cons first more =>
      have hvalue : (mergeAll dictionary more (first.style dictionary)).property? property =
          (lastValueIn property (settings dictionary more)).or
            (valueIn property (first.rule.values dictionary)) :=
        property?_mergeAll dictionary more (first.style dictionary) property
      refine ⟨congrArg some hvalue, fun honce style hstyle => ?_⟩
      obtain rfl := Option.some.inj hstyle
      have hfirst : (rules.filter (·.gives name)).head? = some first.rule := by
        rw [← head?_named, hnamed]
        rfl
      rw [hvalue, valueIn_eq_lastValueIn (honce first.rule hfirst), ← lastValueIn_append,
        ← lastValueIn_settings_named, hnamed]
      rfl

/-- The rules of a text in which a later rule sets a property anew, and does so twice. -/
def overridden : List Rule :=
  [⟨[.compound [.ofType "Label"]], [⟨"color", [.ident "red"], false⟩]⟩,
    ⟨[.compound [.ofType "Label"]],
      [⟨"color", [.ident "blue"], false⟩, ⟨"color", [.ident "green"], false⟩]⟩]

theorem property?_compile_overridden :
    readRules ("Label { color: red; } " ++
      "Label { color: blue; color: green; }") = .ok overridden ∧
    (∀ first ∈ (overridden.filter (·.gives "Label")).head?, ∀ v w,
      ("color", v) ∈ first.values Vocabulary.reports →
      ("color", w) ∈ first.values Vocabulary.reports → v = w) ∧
    ∃ sheet, compile "report.css" Vocabulary.reports overridden = .ok sheet ∧
      (sheet.style? "Label").isSome = true ∧
      ∀ style, sheet.style? "Label" = some style →
        style.property? "color" = some (.color "green") := by
  have hvalues : ((overridden.filter (·.gives "Label")).head?.map
      (·.values Vocabulary.reports)) = some [("color", .color "red")] := by
    decide +kernel
  have honce : ∀ first ∈ (overridden.filter (·.gives "Label")).head?, ∀ v w,
      ("color", v) ∈ first.values Vocabulary.reports →
      ("color", w) ∈ first.values Vocabulary.reports → v = w := by
    intro first hfirst v w hv hw
    rw [Option.mem_def.1 hfirst, Option.map_some] at hvalues
    rw [Option.some.inj hvalues, List.mem_singleton] at hv hw
    rw [(Prod.mk.inj hv).2, (Prod.mk.inj hw).2]
  have hlast : lastValueIn "color" ((overridden.filter (·.gives "Label")).flatMap
      (·.values Vocabulary.reports)) = some (.color "green") := by
    decide +kernel
  obtain ⟨sheet, hsheet⟩ := exists_compile_iff.2
    (show Rankable overridden by decide +kernel)
  refine ⟨by decide +kernel, honce, sheet, hsheet, ?_, fun style hstyle => ?_⟩
  · rw [style?_compile hsheet]
    decide +kernel
  · rw [← hlast]
    exact (property?_compile hsheet "Label" "color").2 honce style hstyle

/-- The rules of a text in which the first rule of a name sets a property twice. -/
def repeated : List Rule :=
  [⟨[.compound [.ofType "Label"]],
    [⟨"color", [.ident "red"], false⟩, ⟨"color", [.ident "blue"], false⟩]⟩]

/-- If the first rule of a name sets a property twice, its style has the earlier value. -/
theorem property?_compile_repeated :
    readRules "Label { color: red; color: blue; }" = .ok repeated ∧
    (compile "report.css" Vocabulary.reports repeated).map
      (fun sheet => (sheet.style? "Label").map (·.property? "color")) =
        .ok (some (some (.color "red"))) ∧
    lastValueIn "color" ((repeated.filter (·.gives "Label")).flatMap
      (·.values Vocabulary.reports)) = some (.color "blue") := by
  decide +kernel

end StyleSheet

end ReportModel.Css
