import ReportModel.Editor.Sheets
import ReportModel.Proofs.Editor.Properties

/-!
# Operations on stylesheets

Including, dropping and exchanging stylesheets are single edits. Importing styles creates elements,
gives them values and adds them, all in one transaction.
-/

namespace ReportModel

open Edit Editor

section values

variable {ι : Type} {d : Document} {id : ElementId} {e : Element}

theorem applyAll_values (id : ElementId) (l : List ι) (property : ι → String)
    (old new : ι → Option Value) (d : Document) :
    applyAll (l.map fun i => .value id (property i) (old i) (new i)) d =
      onTree d (·.modify id fun e =>
        { e with values :=
            l.foldl (fun values i => values.put (property i) (new i)) e.values }) := by
  induction l generalizing d with
  | nil =>
      have htree : d.tree.modify id (fun e => { e with values := e.values }) = d.tree :=
        Tree.modify_eq_self fun _ _ => rfl
      symm
      exact Document.eq_of_tree rfl rfl htree rfl
  | cons i l ih =>
      rw [List.map_cons, applyAll, List.foldl_cons]
      refine (ih _).trans (Document.eq_of_tree rfl rfl ?_ rfl)
      exact Tree.modify_modify ..

private theorem replays_values {edits : List Edit} (hwf : d.tree.WellFormed)
    (hlive : d.tree.contains id = true)
    (h : ∀ edit ∈ edits, ∃ property old new, edit = .value id property old new) :
    Replays edits d (applyAll edits d) := by
  induction edits generalizing d with
  | nil => rfl
  | cons edit edits ih =>
      obtain ⟨property, old, new, rfl⟩ := h edit List.mem_cons_self
      have hlead : (Edit.value id property old new).Leads d _ := leads_apply hwf hlive trivial
      refine ⟨_, hlead, ih hlead.after ?_ fun e he => h e (List.mem_cons_of_mem _ he)⟩
      rw [hlead.contains_eq, hlive]

private theorem get?_clearAll (l : List ι) (property : ι → String)
    (values : SortedMap String Value) {k : String}
    (h : k ∈ l.map property ∨ values.get? k = none) :
    (l.foldl (fun values i => values.put (property i) none) values).get? k = none := by
  induction l generalizing values with
  | nil => simpa using h
  | cons i l ih =>
      apply ih
      rw [SortedMap.get?_put]
      by_cases hk : property i = k
      · exact Or.inr (if_pos hk)
      · rw [if_neg hk]
        rcases h with h | h
        · exact Or.inl ((List.mem_cons.1 h).resolve_left (Ne.symm hk))
        · exact Or.inr h

private theorem get?_setAll (l : List ι) (property : ι → String) (new : ι → Option Value)
    (values : SortedMap String Value) {k : String} (h : k ∉ l.map property) :
    (l.foldl (fun values i => values.put (property i) (new i)) values).get? k =
      values.get? k := by
  induction l generalizing values with
  | nil => rfl
  | cons i l ih =>
      rw [List.map_cons, List.mem_cons, not_or] at h
      rw [List.foldl_cons, ih _ h.2, SortedMap.get?_put, if_neg (Ne.symm h.1)]

def giveAll (id : ElementId) (entries : List (String × Value)) : List Edit :=
  entries.map fun entry => .value id entry.1 none (some entry.2)

def clearAll (id : ElementId) (entries : List (String × Value)) : List Edit :=
  entries.map fun entry => .value id entry.1 (some entry.2) none

theorem inverses_giveAll (id : ElementId) (entries : List (String × Value)) :
    inverses (giveAll id entries) = clearAll id entries.reverse := by
  simp [inverses, giveAll, clearAll, Function.comp_def, Edit.inverse]

/-- Values given to an element without any are taken back by clearing them, however often a property
is among them. -/
theorem reversible_giveAll (hwf : d.tree.WellFormed) (he : d.tree.get? id = some e)
    (hempty : ∀ k, e.values.get? k = none) (entries : List (String × Value)) :
    Reversible (giveAll id entries) d (applyAll (giveAll id entries) d) := by
  have hlive := Tree.contains_of_get? he
  have hforth : Replays (giveAll id entries) d (applyAll (giveAll id entries) d) := by
    apply replays_values hwf hlive
    intro edit hedit
    obtain ⟨entry, -, rfl⟩ := List.mem_map.1 hedit
    exact ⟨_, _, _, rfl⟩
  have hback : Replays (clearAll id entries.reverse) (applyAll (giveAll id entries) d)
      (applyAll (clearAll id entries.reverse) (applyAll (giveAll id entries) d)) := by
    have hlive' := (hforth.contains_eq id).trans hlive
    apply replays_values (hforth.wellFormed hwf) hlive'
    intro edit hedit
    obtain ⟨entry, -, rfl⟩ := List.mem_map.1 hedit
    exact ⟨_, _, _, rfl⟩
  have hcleared : applyAll (clearAll id entries.reverse) (applyAll (giveAll id entries) d) = d := by
    rw [clearAll, giveAll, applyAll_values, applyAll_values]
    refine Document.eq_of_tree rfl rfl ((Tree.modify_modify ..).trans ?_) rfl
    apply Tree.modify_eq_self
    intro e' he'
    obtain rfl := Option.some.inj (he.symm.trans he')
    have hvalues : entries.reverse.foldl (fun values entry => values.put entry.1 none)
        (entries.foldl (fun values entry => values.put entry.1 (some entry.2)) e.values) =
          e.values := by
      apply SortedMap.eq_of_get?
      intro k
      rw [hempty k]
      refine get?_clearAll _ _ _ ?_
      by_cases hk : k ∈ entries.map Prod.fst
      · rw [List.map_reverse, List.mem_reverse]
        exact Or.inl hk
      · exact Or.inr ((get?_setAll _ _ _ _ hk).trans (hempty k))
    exact congrArg (fun values => { e with values := values }) hvalues
  rw [hcleared, ← inverses_giveAll] at hback
  exact ⟨hforth, hback⟩

end values

namespace Document

variable {d : Document} {host : ElementId} {fileName : String} {index : Nat}

theorem contains_of_isHost (h : d.isHost host = true) : d.tree.contains host = true := by
  obtain ⟨e, he, -⟩ := (Option.any_eq_true _ _).1 h
  exact Tree.contains_of_get? he

theorem isHost_of_inclusionIndex? (h : d.inclusionIndex? host fileName = some index) :
    d.isHost host = true := by
  simp only [inclusionIndex?] at h
  split at h
  · assumption
  · cases h

theorem isSome_of_inclusionIndex? (h : d.inclusionIndex? host fileName = some index) :
    (d.sheets host)[index]?.isSome = true := by
  rw [inclusionIndex?, if_pos (isHost_of_inclusionIndex? h), List.findIdx?_eq_some_iff_getElem] at h
  obtain ⟨hlt, -⟩ := h
  rw [List.getElem?_eq_getElem hlt, Option.isSome_some]

theorem isSome_inclusion? (h : d.isHost host = true) :
    (d.inclusion? host fileName).isSome = (d.inclusionIndex? host fileName).isSome := by
  rw [inclusion?, inclusionIndex?, if_pos h, List.findIdx?_isSome, Bool.eq_iff_iff,
    List.find?_isSome, List.any_eq_true]

end Document

namespace Action

variable {ed : Editor}

theorem yields_checkHost {host : ElementId} {post : Unit → Editor → Prop}
    {fail : Editor → Prop} (hfail : ed.document.isHost host = false → fail ed)
    (hpost : ed.document.isHost host = true → post () ed) :
    (checkHost host).Yields ed post fail := by
  simp only [checkHost, yields_bind, yields_document, yields_existing, yields_refuse]
  refine ⟨fun hnone => hfail ?_, fun e he => ⟨fun hnot => hfail ?_, fun hhost => hpost ?_⟩⟩
  · simp [Document.isHost, hnone]
  · simpa using hnot
  · simpa using hhost

theorem yields_inclusion {host : ElementId} {fileName : String}
    {post : Nat × Css.Inclusion → Editor → Prop} {fail : Editor → Prop}
    (hfail : ed.document.inclusionIndex? host fileName = none → fail ed)
    (hpost : ∀ index found, ed.document.inclusionIndex? host fileName = some index →
      (ed.document.sheets host)[index]? = some found → post (index, found) ed) :
    (inclusion host fileName).Yields ed post fail := by
  simp only [inclusion, yields_bind]
  refine yields_checkHost (fun hhost => hfail (if_neg (by simp [hhost]))) fun _ => ?_
  simp only [yields_document, yields_demand, yields_pure]
  refine ⟨hfail, fun index hindex => ⟨fun hnone => ?_, fun found => hpost index found hindex⟩⟩
  have hsome := Document.isSome_of_inclusionIndex? hindex
  rw [hnone] at hsome
  cases hsome

theorem settles_addSheet (hwf : ed.document.tree.WellFormed) (host : ElementId)
    (link : Css.Link) (sheet : Css.StyleSheet) : (addSheet false host link sheet).Settles ed := by
  simp only [Settles, addSheet, yields_bind, yields_ensureMutable]
  refine yields_checkHost (fun _ => rfl) fun hhost => ?_
  simp only [yields_document, yields_refuse]
  refine ⟨fun _ => trivial, fun _ => ?_⟩
  exact settles_transact_execute "add css" hwf (Document.contains_of_isHost hhost) trivial
    (Nat.le_refl _)

theorem settles_addFile (hwf : ed.document.tree.WellFormed) (files : Files) (host : ElementId)
    (fileName : String) : (addFile false files host fileName).Settles ed := by
  simp only [Settles, addFile, yields_bind, yields_ensureMutable]
  refine yields_checkHost (fun _ => rfl) fun _ => ?_
  simp only [load, yields_bind, yields_document, yields_lift]
  exact ⟨fun _ _ => trivial, fun sheet _ => settles_addSheet hwf host _ sheet⟩

theorem settles_dropSheet (hwf : ed.document.tree.WellFormed) (host : ElementId)
    (fileName : String) : (dropSheet false host fileName).Settles ed := by
  simp only [Settles, dropSheet, yields_bind, yields_ensureMutable]
  refine yields_inclusion (fun _ => rfl) fun index old hindex hget => ?_
  have hlive := Document.contains_of_isHost (Document.isHost_of_inclusionIndex? hindex)
  simp only [yields_document]
  split
  · exact rfl
  · exact settles_transact_execute "drop css" hwf hlive trivial hget

theorem settles_renameSheet (hwf : ed.document.tree.WellFormed) (files : Files)
    (host : ElementId) (fileName newName : String) :
    (renameSheet false files host fileName newName).Settles ed := by
  simp only [Settles, renameSheet, yields_bind, yields_ensureMutable]
  refine yields_inclusion (fun _ => rfl) fun index old hindex hget => ?_
  have hlive := Document.contains_of_isHost (Document.isHost_of_inclusionIndex? hindex)
  simp only [load, yields_bind, yields_document, yields_refuse, yields_lift]
  refine ⟨fun _ => trivial, fun _ => ⟨fun _ _ => trivial, fun sheet _ => ?_⟩⟩
  exact settles_transact_execute "rename css" hwf hlive trivial hget

theorem settles_reloadSheet (hwf : ed.document.tree.WellFormed) (files : Files)
    (host : ElementId) (fileName : String) :
    (reloadSheet false files host fileName).Settles ed := by
  simp only [Settles, reloadSheet, yields_bind, yields_ensureMutable]
  refine yields_inclusion (fun _ => rfl) fun index old hindex hget => ?_
  have hlive := Document.contains_of_isHost (Document.isHost_of_inclusionIndex? hindex)
  simp only [load, yields_bind, yields_document, yields_lift]
  refine ⟨fun _ _ => trivial, fun sheet _ => ?_⟩
  exact settles_transact_execute "reload css" hwf hlive trivial hget

/-- What the import of a style creates. -/
def styleCreation (name : String) : Creation :=
  ⟨Vocabulary.styleType, some name⟩

/-- The import of a style creates it, or does nothing if styles cannot be created. -/
theorem yields_importStyle (hwf : ed.document.tree.WellFormed)
    (hin : ed.history.current ≠ []) (name : String) (style : Css.Style) :
    (importStyle false name style).Yields ed
      (fun _ ed' => ed.document.tree.dictionary.isConcrete Vocabulary.styleType = true ∧
        ∃ r, Absorbs [styleCreation name] r ed ed')
      fun ed' => ∃ cs, (cs <+: [styleCreation name] ∧
        (cs = [] ↔ ed.document.tree.dictionary.isConcrete Vocabulary.styleType = false)) ∧
          ∃ r, Absorbs cs r ed ed' := by
  simp only [importStyle, yields_bind, yields_create]
  refine ⟨fun habstract => ?_, fun hconcrete => ?_⟩
  · exact ⟨[], ⟨List.nil_prefix, by simp [habstract]⟩, _, absorbs_grown hin []⟩
  · have hgrown := absorbs_grown hin [styleCreation name]
    have hin₁ := hgrown.inside hin
    have hwf₁ := hgrown.wellFormed hwf
    have he : (ed.grown [styleCreation name]).document.tree.get? ed.document.tree.nextId =
        some (Element.create ed.document.tree.dictionary Vocabulary.styleType (some name)) := by
      refine (Tree.get?_create ..).trans (if_pos rfl)
    have hvalues := reversible_giveAll hwf₁ he (fun _ => rfl) style.properties
    have hdone := hgrown.trans hin (absorbs_executed hin₁ hvalues)
    have hadd := atomic_add (hdone.wellFormed hwf) ed.document.tree.nextId
      ⟨((ed.grown [styleCreation name]).executed (giveAll ed.document.tree.nextId
        style.properties)).document.root, Vocabulary.stylesSlot⟩ none
    apply (yields_executeAll hin₁ (giveAll ed.document.tree.nextId style.properties)).2
    simp only [yields_document, yields_pure]
    refine hadd.imp ?_ ?_
    · intro _ ed' hok
      obtain ⟨-, r, hr⟩ := hok
      exact ⟨hconcrete, _, hdone.trans hin hr⟩
    · intro ed' hfail
      obtain ⟨cs, hcs, rfl⟩ := hfail
      obtain rfl := List.prefix_nil.1 hcs
      exact ⟨_, ⟨List.prefix_rfl, by simp [hconcrete]⟩, _, hdone⟩

/-- Imports in turn create their styles up to the one that fails, that one included. -/
theorem yields_mapM_importStyle (hwf : ed.document.tree.WellFormed)
    (hin : ed.history.current ≠ []) (styles : List (String × Css.Style)) :
    (styles.mapM fun entry => importStyle false entry.1 entry.2).Yields ed
      (fun _ ed' => True ∧ ∃ r, Absorbs (styles.map fun entry => styleCreation entry.1) r ed ed')
      fun ed' => ∃ cs, (cs <+: (styles.map fun entry => styleCreation entry.1) ∧
        (cs = [] ↔ ed.document.tree.dictionary.isConcrete Vocabulary.styleType = false)) ∧
          ∃ r, Absorbs cs r ed ed' := by
  induction styles generalizing ed with
  | nil =>
      rw [List.mapM_nil, yields_pure]
      exact ⟨trivial, _, absorbs_grown hin []⟩
  | cons entry styles ih =>
      rw [List.mapM_cons, yields_bind]
      refine (yields_importStyle hwf hin entry.1 entry.2).imp ?_ ?_
      · intro id ed₁ hok
        obtain ⟨hconcrete, r, hr⟩ := hok
        refine yields_bind.2 ((ih (hr.wellFormed hwf) (hr.inside hin)).imp ?_ ?_)
        · intro ids ed₂ hok
          obtain ⟨-, r', hr'⟩ := hok
          exact ⟨trivial, _, hr.trans hin hr'⟩
        · intro ed₂ hfail
          obtain ⟨cs, ⟨hcs, -⟩, r', hr'⟩ := hfail
          refine ⟨_, ⟨?_, by simp [hconcrete]⟩, _, hr.trans hin hr'⟩
          exact (List.prefix_append_right_inj [styleCreation entry.1]).2 hcs
      · intro ed₁ hfail
        obtain ⟨cs, ⟨hcs, hnone⟩, hr⟩ := hfail
        exact ⟨cs, ⟨hcs.trans (List.prefix_append [styleCreation entry.1] _), hnone⟩, hr⟩

theorem yields_importStyles (hwf : ed.document.tree.WellFormed) (sheet : Css.StyleSheet)
    (names : List String) : (importStyles false sheet names).Yields ed
      (fun _ ed' => True ∧ ∃ r, Absorbs
        ((names.filterMap fun name => (sheet.style? name).map (name, ·)).map fun entry =>
          styleCreation entry.1) r ed ed')
      fun ed' => ∃ cs, (cs <+: ((names.filterMap fun name =>
          (sheet.style? name).map (name, ·)).map fun entry => styleCreation entry.1) ∧
        (cs = [] ↔ ed.document.tree.dictionary.isConcrete Vocabulary.styleType = false)) ∧
          ed' = ed.grown cs := by
  have hin : (ed.history.start "import css styles").current ≠ [] := by simp [History.start]
  refine yields_transact "import css styles" (yields_mapM_importStyle ?_ hin _)
  exact hwf

theorem atomic_importStyles (hwf : ed.document.tree.WellFormed) (sheet : Css.StyleSheet)
    (names : List String) : (importStyles false sheet names).Atomic
      ((names.filterMap fun name => (sheet.style? name).map (name, ·)).map fun entry =>
        styleCreation entry.1) ed fun _ => True := by
  refine (yields_importStyles hwf sheet names).imp (fun _ _ hok => hok) ?_
  intro ed' hfail
  obtain ⟨cs, ⟨hcs, -⟩, heq⟩ := hfail
  exact ⟨cs, hcs, heq⟩

end Action

end ReportModel
