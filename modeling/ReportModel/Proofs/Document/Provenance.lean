import ReportModel.Document.Cascade
import ReportModel.Document.Sheets
import ReportModel.Proofs.Document.Within

/-!
# Where effective values come from

The places that the cascade asks are stages in a fixed order. The value that it finds is the one of
the first stage that supplies any, and the source it tells names that place: the value is found by
looking there. If it finds none, no stage supplies one.
-/

namespace ReportModel

open Relation

/-- What a host is asked for: the root of the module, or the active theme. -/
inductive HostStage where
  /-- The shared style that the element names. -/
  | namedStyle
  /-- The shared style named after the type of the element. -/
  | typeStyle
  | sheet (index : Nat)
deriving DecidableEq, Repr

/-- What is asked for the value of a property of an element. -/
inductive Stage where
  | own
  | root (stage : HostStage)
  | theme (stage : HostStage)
  | base
  | default
deriving DecidableEq, Repr

def HostStage.rank : HostStage → Nat
  | namedStyle => 0
  | typeStyle => 1
  | sheet index => index + 2

namespace Stage

/-- The rank of a stage, and its place among the stages of that rank. -/
def rank : Stage → Nat × Nat
  | own => (0, 0)
  | root stage => (1, stage.rank)
  | theme stage => (2, stage.rank)
  | base => (3, 0)
  | default => (4, 0)

def Before (a b : Stage) : Prop :=
  a.rank.1 < b.rank.1 ∨ a.rank.1 = b.rank.1 ∧ a.rank.2 < b.rank.2

theorem Before.asymm {a b : Stage} (h : a.Before b) : ¬ b.Before a := by
  simp only [Before] at *
  omega

theorem Before.trans {a b c : Stage} (h : a.Before b) (h' : b.Before c) : a.Before c := by
  simp only [Before] at *
  omega

end Stage

namespace Tree

variable (t : Tree)

def styles (host : ElementId) : List Element :=
  (t.contents host Vocabulary.stylesSlot).filterMap t.get?

def namedStyle? (host : ElementId) (e : Element) : Option Element :=
  (e.text? Vocabulary.styleProperty).bind fun name => (t.styles host).find? (·.name = some name)

/-- The first shared style of a host that has the name of the type of an element in any case. -/
def typeStyle? (host : ElementId) (e : Element) : Option Element :=
  (t.styles host).find? fun style => style.name.any (equalIgnoringCase · e.typeName)

end Tree

def Element.offer? (style : Element) (property : String) : Option (String × Value) :=
  style.name.bind fun name => (style.value? property).map (name, ·)

def Css.Inclusion.offer? (inclusion : Css.Inclusion) (property : String) (t : Tree)
    (id : ElementId) : Option (String × Value) :=
  (inclusion.sheet.resolve property t id).map (inclusion.fileName, ·)

namespace Source

def ofStyle : Option String → String → Source
  | none, name => .sharedStyle name
  | some theme, name => .themeStyle theme name

def ofSheet : Option String → String → Source
  | none, fileName => .sheet fileName
  | some theme, fileName => .themeSheet theme fileName

end Source

/-- What a stage of a host has for an element of a tree, where the host may be a theme. -/
def HostStage.answer? (host : OwnedElement) (theme : Option String) (t : Tree) (id : ElementId)
    (e : Element) (property : String) : HostStage → Option (Value × Source)
  | namedStyle => ((host.document.tree.namedStyle? host.id e).bind (·.offer? property)).map
      fun (name, v) => (v, .ofStyle theme name)
  | typeStyle => ((host.document.tree.typeStyle? host.id e).bind (·.offer? property)).map
      fun (name, v) => (v, .ofStyle theme name)
  | sheet index => ((host.document.sheets host.id)[index]?.bind (·.offer? property t id)).map
      fun (fileName, v) => (v, .ofSheet theme fileName)

/-- The name of an element, empty if it has none. -/
def OwnedElement.label (r : OwnedElement) : String :=
  (r.get?.bind (·.name)).getD ""

/-- What a stage has for an element by itself: nothing if it is its base or its default. -/
def Stage.answer? (d : Document) (id : ElementId) (e : Element) (property : String) :
    Stage → Option (Value × Source)
  | own => (e.value? property).map (·, .own)
  | root stage => stage.answer? ⟨d, d.root⟩ none d.tree id e property
  | theme stage => d.theme?.bind fun theme =>
      stage.answer? theme (some theme.label) d.tree id e property
  | base | default => none

/-- A stage supplies a value, with its source, for an element that is `depth` bases away from the
one asked about. A base supplies what any of its own stages does; only the element asked about has a
default. -/
inductive Supplies (property : String) : OwnedElement → Nat → Stage → Source → Value → Prop
  | answer {r : OwnedElement} {depth : Nat} {stage : Stage} {e : Element} {v : Value}
    {source : Source} (he : r.get? = some e)
    (h : stage.answer? r.document r.id e property = some (v, source)) :
    Supplies property r depth stage source v
  | base {r base : OwnedElement} {depth : Nat} {stage : Stage} {e : Element} {v : Value}
    {reference : Reference} {via : Source} (he : r.get? = some e)
    (hreference : e.base = some reference) (hbase : r.base? = some base)
    (hdepth : depth < r.document.depthLimit)
    (hvia : Supplies property base (depth + 1) stage via v) :
    Supplies property r depth .base (.base reference.library via) v
  | default {r : OwnedElement} {v : Value} (h : r.document.default? r.id property = some v) :
    Supplies property r 0 .default .default v

def NoneBefore (property : String) (r : OwnedElement) (depth : Nat) (stage : Stage) : Prop :=
  ∀ earlier : Stage, earlier.Before stage → ∀ source v,
    ¬ Supplies property r depth earlier source v

/-- A source is that of the first stage that supplies a value; where that is the base, the same
holds of the base in its own document. -/
inductive Foremost (property : String) : OwnedElement → Nat → Source → Value → Prop
  | stage {r : OwnedElement} {depth : Nat} {stage : Stage} {source : Source} {v : Value}
    (hne : stage ≠ .base) (h : Supplies property r depth stage source v)
    (hnone : NoneBefore property r depth stage) : Foremost property r depth source v
  | base {r base : OwnedElement} {depth : Nat} {e : Element} {v : Value} {reference : Reference}
    {via : Source} (he : r.get? = some e) (hreference : e.base = some reference)
    (hbase : r.base? = some base) (hdepth : depth < r.document.depthLimit)
    (hvia : Foremost property base (depth + 1) via v) (hnone : NoneBefore property r depth .base) :
    Foremost property r depth (.base reference.library via) v

def Document.HasTheme (d : Document) (theme : OwnedElement) (name : String) : Prop :=
  d.theme? = some theme ∧ ∃ e, theme.get? = some e ∧ e.name = some name

def HoldsInStyle (property : String) (host : OwnedElement) (name : String) (v : Value) : Prop :=
  ∃ style ∈ host.document.tree.styles host.id, style.name = some name ∧
    style.value? property = some v

def HoldsInSheet (property : String) (host : OwnedElement) (fileName : String) (r : OwnedElement)
    (v : Value) : Prop :=
  ∃ inclusion, host.document.inclusion? host.id fileName = some inclusion ∧
    inclusion.sheet.resolve property r.document.tree r.id = some v

/-- A value is found in the place that a source names. -/
def Holds (property : String) : Source → OwnedElement → Value → Prop
  | .own, r, v => ∃ e, r.get? = some e ∧ e.value? property = some v
  | .sharedStyle name, r, v => HoldsInStyle property ⟨r.document, r.document.root⟩ name v
  | .sheet fileName, r, v => HoldsInSheet property ⟨r.document, r.document.root⟩ fileName r v
  | .themeStyle themeName name, r, v => ∃ theme, r.document.HasTheme theme themeName ∧
      HoldsInStyle property theme name v
  | .themeSheet themeName fileName, r, v => ∃ theme, r.document.HasTheme theme themeName ∧
      HoldsInSheet property theme fileName r v
  | .base library via, r, v => ∃ e reference base, r.get? = some e ∧ e.base = some reference ∧
      reference.library = library ∧ r.base? = some base ∧ Holds property via base v
  | .default, r, v => r.document.default? r.id property = some v

namespace Document

/-- The tree of a document is well-formed, and no element includes a file twice. -/
structure Proper (d : Document) : Prop where
  wellFormed : d.tree.WellFormed
  distinct : ∀ host, ((d.sheets host).map (·.fileName)).Nodup

theorem Proper.inclusion?_eq {d : Document} (h : d.Proper) {host : ElementId}
    {inclusion : Css.Inclusion} (hmem : inclusion ∈ d.sheets host) :
    d.inclusion? host inclusion.fileName = some inclusion := by
  obtain ⟨before, after, hsplit⟩ := List.append_of_mem hmem
  have hdistinct := h.distinct host
  rw [hsplit, List.map_append, List.map_cons, List.nodup_append] at hdistinct
  refine List.find?_eq_some_iff_append.2 ⟨decide_eq_true rfl, before, after, hsplit, ?_⟩
  intro other hother
  have hne := hdistinct.2.2 _ (List.mem_map_of_mem hother) _ List.mem_cons_self
  simpa using hne

theorem hasTheme_label {d : Document} {theme : OwnedElement} (h : d.Throughout Proper)
    (htheme : d.theme? = some theme) : d.HasTheme theme theme.label := by
  obtain ⟨_, -, -, hfind⟩ := theme?_eq_some_iff.1 htheme
  have hindexed := ((h.theme htheme).self.wellFormed.indexed _ _).1 hfind
  obtain ⟨e, name, _, he, hname, -⟩ := Tree.claim_eq_some_iff.1 hindexed.2
  have hget : theme.get? = some e := he
  refine ⟨htheme, e, hget, ?_⟩
  simp [OwnedElement.label, hget, hname]

end Document

/-! ### Looking in the place named -/

section Holds

variable {property : String} {e : Element} {v : Value} {source : Source} {r host : OwnedElement}

theorem Element.offer?_eq_some_iff {style : Element} {name : String} :
    style.offer? property = some (name, v) ↔ style.name = some name ∧
      style.value? property = some v := by
  simp only [offer?, Option.bind_eq_some_iff, Option.map_eq_some_iff, Prod.mk.injEq]
  constructor
  · rintro ⟨_, hname, _, hvalue, rfl, rfl⟩
    exact ⟨hname, hvalue⟩
  · rintro ⟨hname, hvalue⟩
    exact ⟨name, hname, v, hvalue, rfl, rfl⟩

theorem holdsInStyle_of_offer {chosen : Option Element} {name : String}
    (hchosen : ∀ style, chosen = some style → style ∈ host.document.tree.styles host.id)
    (h : chosen.bind (·.offer? property) = some (name, v)) : HoldsInStyle property host name v := by
  obtain ⟨style, hstyle, hoffer⟩ := Option.bind_eq_some_iff.1 h
  exact ⟨style, hchosen style hstyle, Element.offer?_eq_some_iff.1 hoffer⟩

theorem HostStage.holds_of_answer {theme : Option String} (hhost : host.document.Proper)
    {stage : HostStage}
    (h : stage.answer? host theme r.document.tree r.id e property = some (v, source)) :
    (∃ name, source = .ofStyle theme name ∧ HoldsInStyle property host name v) ∨
      ∃ fileName, source = .ofSheet theme fileName ∧ HoldsInSheet property host fileName r v := by
  cases stage with
  | namedStyle =>
      obtain ⟨⟨name, _⟩, hoffer, heq⟩ := Option.map_eq_some_iff.1 h
      cases heq
      refine Or.inl ⟨name, rfl, holdsInStyle_of_offer (fun style hstyle => ?_) hoffer⟩
      obtain ⟨_, -, hfound⟩ := Option.bind_eq_some_iff.1 hstyle
      exact List.mem_of_find?_eq_some hfound
  | typeStyle =>
      obtain ⟨⟨name, _⟩, hoffer, heq⟩ := Option.map_eq_some_iff.1 h
      cases heq
      exact Or.inl ⟨name, rfl, holdsInStyle_of_offer (fun _ => List.mem_of_find?_eq_some) hoffer⟩
  | sheet index =>
      obtain ⟨⟨fileName, _⟩, hoffer, heq⟩ := Option.map_eq_some_iff.1 h
      cases heq
      obtain ⟨inclusion, hget, hoffer⟩ := Option.bind_eq_some_iff.1 hoffer
      obtain ⟨_, hresolve, heq⟩ := Option.map_eq_some_iff.1 hoffer
      cases heq
      -- a file is included once only, so that its name finds the same inclusion again
      have hfound := hhost.inclusion?_eq (List.mem_of_getElem? hget)
      exact Or.inr ⟨inclusion.fileName, rfl, inclusion, hfound, hresolve⟩

theorem Stage.holds_of_answer (hr : r.document.Throughout Document.Proper) (he : r.get? = some e)
    {stage : Stage} (h : stage.answer? r.document r.id e property = some (v, source)) :
    Holds property source r v := by
  cases stage with
  | own =>
      obtain ⟨_, hvalue, heq⟩ := Option.map_eq_some_iff.1 h
      cases heq
      exact ⟨e, he, hvalue⟩
  | root stage =>
      have hroot : (⟨r.document, r.document.root⟩ : OwnedElement).document.Proper := hr.self
      obtain ⟨_, rfl, hholds⟩ | ⟨_, rfl, hholds⟩ := HostStage.holds_of_answer hroot h
      · exact hholds
      · exact hholds
  | theme stage =>
      obtain ⟨theme, htheme, h⟩ := Option.bind_eq_some_iff.1 h
      have hnamed := Document.hasTheme_label hr htheme
      have hproper := (hr.theme htheme).self
      obtain ⟨_, rfl, hholds⟩ | ⟨_, rfl, hholds⟩ := HostStage.holds_of_answer hproper h
      · exact ⟨theme, hnamed, hholds⟩
      · exact ⟨theme, hnamed, hholds⟩
  | base => cases h
  | default => cases h

theorem Foremost.holds {depth : Nat} (h : Foremost property r depth source v)
    (hr : r.document.Throughout Document.Proper) : Holds property source r v := by
  induction h with
  | stage hne hsupplies _ =>
      cases hsupplies with
      | answer he h => exact Stage.holds_of_answer hr he h
      | base => exact absurd rfl hne
      | default h => exact h
  | base he hreference hbase _ _ _ ih =>
      exact ⟨_, _, _, he, hreference, rfl, hbase, ih (hr.base hbase)⟩

end Holds

/-! ### The first stage that supplies a value -/

theorem findSome?_range_length {α β γ : Type} (l : List α) (f : α → Option β) (g : β → γ) :
    (List.range l.length).findSome? (fun i => (l[i]?.bind f).map g) = (l.findSome? f).map g := by
  rw [List.map_findSome?]
  induction l with
  | nil => rfl
  | cons a l ih =>
      rw [List.length_cons, List.range_succ_eq_map, List.findSome?_cons, List.findSome?_cons,
        List.findSome?_map, ← ih]
      rfl

theorem exists_first_of_findSome? {α β : Type} {R : α → α → Prop}
    (hasymm : ∀ {a b}, R a b → ¬ R b a) {l : List α} (hl : l.Pairwise R) {f : α → Option β} {b : β}
    (h : l.findSome? f = some b) : ∃ a ∈ l, f a = some b ∧ ∀ x ∈ l, R x a → f x = none := by
  obtain ⟨before, a, after, rfl, ha, hbefore⟩ := List.findSome?_eq_some_iff.1 h
  refine ⟨a, List.mem_append_right _ List.mem_cons_self, ha, fun x hx hxa => ?_⟩
  have hafter := (List.pairwise_cons.1 (List.pairwise_append.1 hl).2.1).1
  rcases List.mem_append.1 hx with hx | hx
  · exact hbefore x hx
  · rcases List.mem_cons.1 hx with rfl | hx
    · exact absurd hxa (hasymm hxa)
    · exact absurd hxa (hasymm (hafter x hx))

def hostStages (sheets : List Css.Inclusion) : List HostStage :=
  .namedStyle :: .typeStyle :: (List.range sheets.length).map .sheet

theorem pairwise_hostStages (sheets : List Css.Inclusion) :
    (hostStages sheets).Pairwise fun a b => a.rank < b.rank := by
  simp only [hostStages, List.pairwise_cons, List.forall_mem_cons, List.forall_mem_map,
    List.pairwise_map, HostStage.rank, Nat.add_lt_add_iff_right]
  exact ⟨⟨by omega, fun _ _ => by omega⟩, fun _ _ => by omega, List.pairwise_lt_range⟩

theorem findSome?_cons_or {α β : Type} (f : α → Option β) (a : α) (l : List α) :
    (a :: l).findSome? f = (f a).or (l.findSome? f) := by
  rw [List.findSome?_cons]
  cases f a <;> rfl

theorem Tree.styleValue?_eq (t : Tree) (host : ElementId) (e : Element) (property : String) :
    t.styleValue? host e property = ((t.namedStyle? host e).bind (·.offer? property)).or
      ((t.typeStyle? host e).bind (·.offer? property)) := by
  have hone : ∀ o : Option Element, o.toList.findSome? (·.offer? property) =
      o.bind (·.offer? property) := fun o => by cases o <;> simp
  rw [← hone, ← hone, ← List.findSome?_append]
  rfl

namespace Document

variable {d : Document} {id : ElementId} {e : Element} {property : String}

theorem findSome?_hostStages (host : OwnedElement) (theme : Option String) (d : Document)
    (id : ElementId) (e : Element) (property : String) :
    (hostStages (host.document.sheets host.id)).findSome?
        (HostStage.answer? host theme d.tree id e property) =
      ((host.document.tree.styleValue? host.id e property).map
        fun (name, v) => (v, .ofStyle theme name)).or
      ((d.sheetValue? (host.document.sheets host.id) id property).map
        fun (fileName, v) => (v, .ofSheet theme fileName)) := by
  have hsheets : (List.range (host.document.sheets host.id).length).findSome?
      (HostStage.answer? host theme d.tree id e property ∘ .sheet) =
        (d.sheetValue? (host.document.sheets host.id) id property).map
          fun (fileName, v) => (v, .ofSheet theme fileName) :=
    findSome?_range_length _ _ _
  rw [hostStages, findSome?_cons_or, findSome?_cons_or, List.findSome?_map, hsheets,
    Tree.styleValue?_eq, Option.map_or, Option.or_assoc]
  rfl

def themeStages (d : Document) : List HostStage :=
  (d.theme?.map fun theme => hostStages (theme.document.sheets theme.id)).getD []

def stages (d : Document) : List Stage :=
  .own :: ((hostStages (d.sheets d.root)).map .root ++ d.themeStages.map .theme)

theorem pairwise_stages (d : Document) : d.stages.Pairwise Stage.Before := by
  have hmap : ∀ {stages : List HostStage} (f : HostStage → Stage),
      (∀ {a b}, a.rank < b.rank → (f a).Before (f b)) →
      stages.Pairwise (fun a b => a.rank < b.rank) → (stages.map f).Pairwise Stage.Before :=
    fun f hf h => List.pairwise_map.2 (h.imp hf)
  have hroot := hmap .root (fun h => Or.inr ⟨rfl, h⟩) (pairwise_hostStages (d.sheets d.root))
  have htheme : (d.themeStages.map Stage.theme).Pairwise Stage.Before := by
    apply hmap .theme fun h => Or.inr ⟨rfl, h⟩
    rw [themeStages]
    cases d.theme? with
    | none => exact .nil
    | some theme => exact pairwise_hostStages _
  simp only [stages, List.pairwise_cons, List.pairwise_append, List.forall_mem_append,
    List.forall_mem_map]
  refine ⟨⟨fun _ _ => ?_, fun _ _ => ?_⟩, hroot, htheme, fun _ _ _ _ => ?_⟩
  all_goals exact Or.inl (by simp [Stage.rank])

theorem mem_hostStages {host : OwnedElement} {theme : Option String} {t : Tree}
    {stage : HostStage} {found : Value × Source}
    (h : stage.answer? host theme t id e property = some found) :
    stage ∈ hostStages (host.document.sheets host.id) := by
  cases stage with
  | namedStyle => exact List.mem_cons_self
  | typeStyle => exact List.mem_cons_of_mem _ List.mem_cons_self
  | sheet index =>
      obtain ⟨_, hoffer, -⟩ := Option.map_eq_some_iff.1 h
      obtain ⟨_, hget, -⟩ := Option.bind_eq_some_iff.1 hoffer
      have hlt := (List.getElem?_eq_some_iff.1 hget).1
      simp [hostStages, hlt]

theorem mem_stages {stage : Stage} {found : Value × Source}
    (h : stage.answer? d id e property = some found) : stage ∈ d.stages := by
  simp only [stages, List.mem_cons, List.mem_append, List.mem_map]
  cases stage with
  | own => exact Or.inl rfl
  | root stage =>
      have hanswer : stage.answer? ⟨d, d.root⟩ none d.tree id e property = some found := h
      exact Or.inr (Or.inl ⟨stage, mem_hostStages hanswer, rfl⟩)
  | theme stage =>
      obtain ⟨theme, htheme, h⟩ := Option.bind_eq_some_iff.1 h
      have hstage : stage ∈ d.themeStages := by
        rw [themeStages, htheme]
        exact mem_hostStages h
      exact Or.inr (Or.inr ⟨stage, hstage, rfl⟩)
  | base => cases h
  | default => cases h

theorem themeValue?_eq (d : Document) (id : ElementId) (e : Element) (property : String) :
    d.themeValue? id e property =
      (d.themeStages.map Stage.theme).findSome? (Stage.answer? d id e property) := by
  rw [List.findSome?_map, themeStages]
  cases htheme : d.theme? with
  | none => simp [themeValue?, htheme]
  | some theme =>
      have hanswer : Stage.answer? d id e property ∘ Stage.theme =
          HostStage.answer? theme (some theme.label) d.tree id e property := by
        funext stage
        simp [Stage.answer?, htheme]
      rw [hanswer, Option.map_some, Option.getD_some, findSome?_hostStages]
      simp only [themeValue?, htheme, Option.bind_some, Option.orElse_eq_orElse,
        Option.orElse_eq_or]
      rfl

/-- What an element has by itself is the answer of the first stage that has one. -/
theorem localValue?_eq (d : Document) (id : ElementId) (e : Element) (property : String) :
    d.localValue? id e property = d.stages.findSome? (Stage.answer? d id e property) := by
  have hroot : ((hostStages (d.sheets d.root)).map Stage.root).findSome?
      (Stage.answer? d id e property) =
        ((d.tree.styleValue? d.root e property).map fun (name, v) => (v, .sharedStyle name)).or
          ((d.sheetValue? (d.sheets d.root) id property).map
            fun (fileName, v) => (v, .sheet fileName)) := by
    rw [List.findSome?_map]
    exact findSome?_hostStages ⟨d, d.root⟩ none d id e property
  rw [stages, findSome?_cons_or, List.findSome?_append, hroot, ← themeValue?_eq, Option.or_assoc]
  simp only [localValue?, Option.orElse_eq_orElse, Option.orElse_eq_or]
  rfl

theorem cascade_eq (d : Document) (id : ElementId) (property : String) (depth : Nat) :
    d.cascade id property depth = (d.get? id).bind fun e => (d.localValue? id e property).or
      (if depth < d.depthLimit then (d.base? id).bind fun base =>
        (base.document.cascade base.id property (depth + 1)).map
          fun (value, via) => (value, .base (e.base.bind (·.library)) via)
      else none) := by
  rw [cascade]
  cases d.get? id with
  | none => rfl
  | some e =>
      simp only [Option.bind_some]
      cases d.localValue? id e property with
      | some found => rfl
      | none =>
          simp only [Option.none_or]
          split
          · cases d.base? id <;> rfl
          · rfl

theorem cascade_eq_some {d : Document} {depth : Nat} {v : Value} {source : Source}
    (h : d.cascade id property depth = some (v, source)) : ∃ e, d.get? id = some e ∧
      (d.localValue? id e property = some (v, source) ∨
        d.localValue? id e property = none ∧ depth < d.depthLimit ∧
          ∃ reference base via, e.base = some reference ∧ d.base? id = some base ∧
            base.document.cascade base.id property (depth + 1) = some (v, via) ∧
            source = .base reference.library via) := by
  rw [cascade_eq] at h
  obtain ⟨e, he, h⟩ := Option.bind_eq_some_iff.1 h
  refine ⟨e, he, ?_⟩
  cases hlocal : d.localValue? id e property with
  | some found =>
      rw [hlocal, Option.some_or] at h
      exact Or.inl h
  | none =>
      rw [hlocal, Option.none_or] at h
      split at h
      · next hdepth =>
        obtain ⟨base, hbase, h⟩ := Option.bind_eq_some_iff.1 h
        obtain ⟨⟨_, via⟩, hvia, heq⟩ := Option.map_eq_some_iff.1 h
        cases heq
        obtain ⟨e', reference, -, -, he', hreference, -⟩ := base?_eq_some_iff.1 hbase
        obtain rfl := Option.some.inj (he.symm.trans he')
        rw [hreference]
        exact Or.inr ⟨rfl, hdepth, reference, base, via, rfl, hbase, hvia, rfl⟩
      · cases h

end Document

section Foremost

variable {property : String} {r : OwnedElement} {depth : Nat} {e : Element} {v : Value}
  {source : Source}

theorem Supplies.answer_of_before {stage : Stage} (he : r.get? = some e)
    (h : Supplies property r depth stage source v) (hbefore : stage.Before .base) :
    stage.answer? r.document r.id e property = some (v, source) := by
  cases h with
  | answer he' h =>
      obtain rfl := Option.some.inj (he.symm.trans he')
      exact h
  | base => exact absurd hbefore hbefore.asymm
  | default => simp [Stage.Before, Stage.rank] at hbefore

theorem Stage.before_base_of_answer {d : Document} {id : ElementId} {stage : Stage}
    {found : Value × Source} (h : stage.answer? d id e property = some found) :
    stage.Before .base := by
  cases stage with
  | base => cases h
  | default => cases h
  | _ => exact Or.inl (by simp [rank])

theorem noneBefore_base (he : r.get? = some e)
    (h : r.document.localValue? r.id e property = none) : NoneBefore property r depth .base := by
  intro earlier hearlier source v hsupplies
  have hanswer := hsupplies.answer_of_before he hearlier
  rw [Document.localValue?_eq, List.findSome?_eq_none_iff] at h
  exact absurd (hanswer.symm.trans (h earlier (Document.mem_stages hanswer)))
    (Option.some_ne_none _)

theorem foremost_of_localValue? (he : r.get? = some e)
    (h : r.document.localValue? r.id e property = some (v, source)) :
    Foremost property r depth source v := by
  rw [Document.localValue?_eq] at h
  obtain ⟨stage, -, hanswer, hfirst⟩ :=
    exists_first_of_findSome? Stage.Before.asymm r.document.pairwise_stages h
  have hbase := Stage.before_base_of_answer hanswer
  refine .stage ?_ (.answer he hanswer) fun earlier hearlier source' v' hsupplies => ?_
  · rintro rfl
    exact hbase.asymm hbase
  · have hother := hsupplies.answer_of_before he (hearlier.trans hbase)
    exact absurd (hother.symm.trans (hfirst earlier (Document.mem_stages hother) hearlier))
      (Option.some_ne_none _)

/-- The cascade gives the value of the first stage that supplies one. -/
theorem foremost_of_cascade (h : r.document.cascade r.id property depth = some (v, source)) :
    Foremost property r depth source v := by
  -- a source that is a base holds the source there, on which the induction is
  induction source generalizing r depth with
  | base library via ih =>
      obtain ⟨e, he, hlocal | ⟨hlocal, hdepth, reference, base, _, hreference, hbase, hvia, heq⟩⟩ :=
        Document.cascade_eq_some h
      · exact foremost_of_localValue? he hlocal
      · cases heq
        exact .base he hreference hbase hdepth (ih hvia) (noneBefore_base he hlocal)
  | _ =>
      obtain ⟨e, he, hlocal | ⟨-, -, _, _, _, -, -, -, heq⟩⟩ := Document.cascade_eq_some h
      · exact foremost_of_localValue? he hlocal
      · cases heq

theorem Supplies.not_default {stage : Stage} (h : Supplies property r (depth + 1) stage source v) :
    stage ≠ .default := by
  rintro rfl
  cases h with
  | answer _ h => cases h

theorem Supplies.cascade_ne_none {stage : Stage} (h : Supplies property r depth stage source v)
    (hne : stage ≠ .default) : r.document.cascade r.id property depth ≠ none := by
  induction h with
  | @answer r depth _ e _ _ he h =>
      have hget : r.document.get? r.id = some e := he
      have hlocal : r.document.localValue? r.id e property ≠ none := by
        rw [Document.localValue?_eq, Ne, List.findSome?_eq_none_iff]
        intro hnone
        exact absurd (h.symm.trans (hnone _ (Document.mem_stages h))) (Option.some_ne_none _)
      rw [Document.cascade_eq, hget]
      simp [hlocal]
  | @base r base depth _ e _ _ _ he hreference hbase hdepth hvia ih =>
      have hget : r.document.get? r.id = some e := he
      have hfound : r.document.base? r.id = some base := hbase
      rw [Document.cascade_eq, hget, hfound, Option.bind_some, if_pos hdepth]
      simp [ih hvia.not_default]
  | default => exact absurd rfl hne

theorem foremost_of_effectiveValue?
    (h : r.document.effectiveValue? r.id property = some (v, source)) :
    Foremost property r 0 source v := by
  simp only [Document.effectiveValue?, Option.orElse_eq_orElse, Option.orElse_eq_or,
    Option.or_eq_some_iff] at h
  rcases h with hcascade | ⟨hnone, hdefault⟩
  · exact foremost_of_cascade hcascade
  · obtain ⟨_, hvalue, heq⟩ := Option.map_eq_some_iff.1 hdefault
    cases heq
    refine .stage (by simp) (.default hvalue) fun earlier hearlier _ _ hother => ?_
    refine hother.cascade_ne_none ?_ hnone
    rintro rfl
    exact hearlier.asymm hearlier

theorem not_supplies_of_effectiveValue?
    (h : r.document.effectiveValue? r.id property = none) (stage : Stage) :
    ¬ Supplies property r 0 stage source v := by
  simp only [Document.effectiveValue?, Option.orElse_eq_orElse, Option.orElse_eq_or,
    Option.or_eq_none_iff, Option.map_eq_none_iff] at h
  intro hsupplies
  by_cases hstage : stage = .default
  · subst hstage
    cases hsupplies with
    | answer _ hanswer => cases hanswer
    | default hdefault => exact absurd (hdefault.symm.trans h.2) (Option.some_ne_none _)
  · exact hsupplies.cascade_ne_none hstage h.1

end Foremost

end ReportModel
