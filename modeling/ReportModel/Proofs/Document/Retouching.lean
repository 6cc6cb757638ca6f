import Mathlib.Data.List.Find
import Mathlib.Data.List.Forall2
import ReportModel.Document.Access
import ReportModel.Proofs.Document.Depth
import ReportModel.Proofs.Document.Provenance

/-!
# Retouched documents

A document is retouched if one of its elements gets another value of one property, or other masks.
All that a document can be asked is asked here before and after: which base an element has, which
values it inherits, which access rule is in force, which selectors describe it and what the cascade
gives it. The answers differ only where the retouched element is asked for the value of that
property.
-/

namespace ReportModel

section lists

variable {α β γ : Type} {R : α → β → Prop}

theorem rel_of_exists {a? : Option α} {b? : Option β}
    (h : ∀ a, a? = some a → ∃ b, b? = some b ∧ R a b)
    (h' : ∀ b, b? = some b → ∃ a, a? = some a) : Option.Rel R a? b? := by
  cases a? with
  | some a =>
      obtain ⟨b, rfl, hab⟩ := h a rfl
      exact .some hab
  | none =>
      cases b? with
      | none => exact .none
      | some b =>
          obtain ⟨a, ha⟩ := h' b rfl
          cases ha

theorem findSome?_eq_of_forall₂ {as : List α} {bs : List β} {f : α → Option γ} {g : β → Option γ}
    (h : List.Forall₂ R as bs) (hfg : ∀ a b, b ∈ bs → R a b → f a = g b) :
    as.findSome? f = bs.findSome? g := by
  induction h with
  | nil => rfl
  | @cons a b _ _ hab _ ih =>
      rw [List.findSome?_cons, List.findSome?_cons, hfg a b List.mem_cons_self hab,
        ih fun a b hb => hfg a b (List.mem_cons_of_mem _ hb)]

end lists

namespace Element

def unset (e : Element) : Element :=
  { e with values := .empty, masks := .empty }

/-- An element differs from another one in its masks and in its value of a property at most. -/
structure Retouched (e : Element) (p : String) (e' : Element) : Prop where
  unset : e'.unset = e.unset
  values : ∀ q, q ≠ p → e'.value? q = e.value? q

namespace Retouched

variable {e e' : Element} {p q : String}

theorem refl (e : Element) (p : String) : e.Retouched p e :=
  ⟨rfl, fun _ _ => rfl⟩

theorem symm (h : e.Retouched p e') : e'.Retouched p e :=
  ⟨h.unset.symm, fun q hq => (h.values q hq).symm⟩

variable (h : e.Retouched p e')

include h

theorem typeName_eq : e'.typeName = e.typeName := by
  have htype := congrArg Element.typeName h.unset
  exact htype

theorem name_eq : e'.name = e.name := by
  have hname := congrArg Element.name h.unset
  exact hname

theorem base_eq : e'.base = e.base := by
  have hbase := congrArg Element.base h.unset
  exact hbase

theorem sheets_eq : e'.sheets = e.sheets := by
  have hsheets := congrArg Element.sheets h.unset
  exact hsheets

theorem links_eq : (e'.typeName, e'.place, e'.slots) = (e.typeName, e.place, e.slots) := by
  have hlinks := congrArg (fun e => (e.typeName, e.place, e.slots)) h.unset
  exact hlinks

theorem text?_eq (hq : q ≠ p) : e'.text? q = e.text? q := by
  rw [text?, text?, h.values q hq]

theorem holds_eq (hstyle : Vocabulary.styleProperty ≠ p) (component : Css.Component) :
    component.holds e' = component.holds e := by
  simp only [Css.Component.holds, h.typeName_eq, h.name_eq, h.text?_eq hstyle]

theorem styleValue?_eq (hstyle : Vocabulary.styleProperty ≠ p) (t : Tree) (host : ElementId)
    (q : String) : t.styleValue? host e' q = t.styleValue? host e q := by
  simp only [Tree.styleValue?, Tree.candidateStyles, h.typeName_eq, h.text?_eq hstyle]

end Retouched

end Element

namespace OwnedElement

variable {r s b : OwnedElement} {fuel : Nat} {seen : List OwnedElement}

theorem eq_of_isSame_of_document (hsame : r.isSame s = true) (hdocument : r.document = s.document) :
    r = s := by
  obtain ⟨_, _⟩ := r
  obtain ⟨_, _⟩ := s
  simp only [isSame, Bool.and_eq_true, decide_eq_true_eq] at hsame hdocument
  rw [hdocument, hsame.2]

theorem nthBase?_add (r : OwnedElement) (i j : Nat) :
    r.nthBase? (i + j) = (r.nthBase? i).bind (·.nthBase? j) := by
  induction j with
  | zero => exact (Option.bind_fun_some _).symm
  | succ j ih =>
      rw [Nat.add_succ, nthBase?, ih, Option.bind_assoc]
      rfl

/-- A chain does not lead out of a library. -/
theorem document_eq_or_lt {k : Nat} (h : r.nthBase? k = some s) :
    s.document = r.document ∨ sizeOf s.document < sizeOf r.document := by
  induction k generalizing s with
  | zero =>
      obtain rfl := Option.some.inj h
      exact Or.inl rfl
  | succ k ih =>
      obtain ⟨t, ht, hbase⟩ := Option.bind_eq_some_iff.1 h
      rcases ih ht with hdocument | hlt <;>
        rcases Document.base?_eq_or_lt hbase with hdocument' | hlt'
      · exact Or.inl (hdocument'.trans hdocument)
      · exact Or.inr (hdocument ▸ hlt')
      · exact Or.inr (hdocument' ▸ hlt)
      · exact Or.inr (hlt'.trans hlt)

theorem document_eq_of_between {i j : Nat} (hb : r.nthBase? i = some b) (hij : i ≤ j)
    (hs : r.nthBase? j = some s) (hdocument : s.document = r.document) :
    b.document = r.document := by
  obtain ⟨k, rfl⟩ := Nat.exists_eq_add_of_le hij
  rw [nthBase?_add, hb, Option.bind_some] at hs
  rcases document_eq_or_lt hb with heq | hlt
  · exact heq
  · rcases document_eq_or_lt hs with heq' | hlt'
    · exact heq'.symm.trans hdocument
    · rw [hdocument] at hlt'
      omega

/-- If a list of bases ends before the fuel does and the chain goes on, it goes on with an element
that was seen or is in the list. -/
theorem isSame_of_basesUpTo (hlength : (basesUpTo fuel seen r).length < fuel)
    (hb : r.nthBase? ((basesUpTo fuel seen r).length + 1) = some b) :
    ∃ a ∈ seen ++ basesUpTo fuel seen r, b.isSame a = true := by
  induction fuel generalizing r seen with
  | zero => exact absurd hlength (Nat.not_lt_zero _)
  | succ fuel ih =>
      cases hbase : r.base? with
      | none =>
          rw [nthBase?_succ_of_base?_eq_none hbase] at hb
          cases hb
      | some c =>
          rw [nthBase?_succ_of_base? hbase] at hb
          simp only [basesUpTo, hbase] at hlength hb ⊢
          split at hb
          · next hseen =>
            obtain rfl := Option.some.inj hb
            rw [if_pos hseen, List.append_nil]
            exact List.any_eq_true.1 hseen
          · next hnew =>
            rw [if_neg hnew] at hlength ⊢
            obtain ⟨a, ha, hsame⟩ := ih (Nat.lt_of_succ_lt_succ hlength) hb
            exact ⟨a, by simpa [or_left_comm] using ha, hsame⟩

end OwnedElement

namespace Document

/-- An element of the same document that a chain comes to within the limit is listed, also if the
list ends early because the chain comes back. -/
theorem mem_chain_of_nthBase? {d : Document} {x y : ElementId} {k : Nat} (hk : k ≤ d.depthLimit)
    (hs : (⟨d, y⟩ : OwnedElement).nthBase? k = some ⟨d, x⟩) : ⟨d, x⟩ ∈ d.chain y := by
  induction k using Nat.strong_induction_on with
  | _ k ih =>
      by_cases hlt : k < (d.chain y).length
      · exact List.mem_of_getElem? ((chain_getElem? hlt).trans hs)
      obtain ⟨m, rfl⟩ := Nat.exists_eq_add_of_le (Nat.le_of_not_lt hlt)
      obtain ⟨b, hb, hrest⟩ :=
        Option.bind_eq_some_iff.1 ((OwnedElement.nthBase?_add ..).symm.trans hs)
      have hlength : (d.chain y).length ≤ d.depthLimit := (Nat.le_add_right _ m).trans hk
      obtain ⟨a, ha, hsame⟩ := OwnedElement.isSame_of_basesUpTo (Nat.lt_of_succ_le hlength) hb
      -- the element that the list would go on with is one that is listed, so there is a shorter way
      obtain ⟨i, hi⟩ := List.mem_iff_getElem?.1 (show a ∈ d.chain y from ha)
      obtain ⟨hilt, -⟩ := List.getElem?_eq_some_iff.1 hi
      rw [chain_getElem? hilt] at hi
      have hbd := OwnedElement.document_eq_of_between hb (Nat.le_add_right _ m) hs rfl
      have had := OwnedElement.document_eq_of_between hi (by omega) hs rfl
      obtain rfl := OwnedElement.eq_of_isSame_of_document hsame (hbd.trans had.symm)
      refine ih (i + m) (by omega) (by omega) ?_
      rw [OwnedElement.nthBase?_add, hi, Option.bind_some, hrest]

variable {d d' : Document} {r r' s s' : OwnedElement} {x y host : ElementId} {e e' : Element}
  {p q : String}

/-- A document differs from another one in the masks of an element and in its value of a property
at most. -/
structure Retouched (d : Document) (x : ElementId) (p : String) (d' : Document) : Prop where
  serial : d'.serial = d.serial
  depthLimit : d'.depthLimit = d.depthLimit
  libraries : d'.libraries = d.libraries
  root : d'.tree.root = d.tree.root
  dictionary : d'.tree.dictionary = d.tree.dictionary
  names : d'.tree.names = d.tree.names
  others : ∀ y, y ≠ x → d'.get? y = d.get? y
  element : Option.Rel (Element.Retouched · p) (d.get? x) (d'.get? x)

theorem retouched_modify (d : Document) (x : ElementId) (p : String) {f : Element → Element}
    (hf : ∀ e : Element, e.Retouched p (f e)) : d.Retouched x p (Edit.onTree d (·.modify x f)) := by
  refine ⟨rfl, rfl, rfl, rfl, rfl, rfl, fun y hy => ?_, ?_⟩
  · exact (Tree.get?_modify d.tree x y f).trans (if_neg hy)
  · have hself : (Edit.onTree d (·.modify x f)).get? x = (d.get? x).map f :=
      (Tree.get?_modify d.tree x x f).trans (if_pos rfl)
    rw [hself]
    cases d.get? x with
    | none => exact .none
    | some e => exact .some (hf e)

theorem retouched_value (d : Document) (x : ElementId) (p : String) (old new : Option Value) :
    d.Retouched x p (Edit.apply d (.value x p old new)) :=
  retouched_modify d x p fun e =>
    ⟨rfl, fun q hq => (SortedMap.get?_put e.values p q new).trans (if_neg hq.symm)⟩

theorem retouched_mask (d : Document) (x : ElementId) (p : String) (old new : Option Mask) :
    d.Retouched x p (Edit.apply d (.mask x p old new)) :=
  retouched_modify d x p fun _ => ⟨rfl, fun _ _ => rfl⟩

namespace Tracks

theorem refl (d' d : Document) (r : OwnedElement) : Tracks d' d r r :=
  Or.inl rfl

theorem symm (h : Tracks d d' r r') : Tracks d' d r' r := by
  rcases h with rfl | ⟨rfl, rfl⟩
  · exact Or.inl rfl
  · exact Or.inr ⟨rfl, rfl⟩

theorem id_eq (h : Tracks d' d r' r) : r'.id = r.id := by
  rcases h with rfl | ⟨-, rfl⟩ <;> rfl

theorem serial_eq (h : Tracks d' d r' r) (hserial : d'.serial = d.serial) :
    r'.document.serial = r.document.serial := by
  rcases h with rfl | ⟨rfl, rfl⟩
  · rfl
  · exact hserial

theorem isSame_congr (hr : Tracks d' d r' r) (hs : Tracks d' d s' s)
    (hserial : d'.serial = d.serial) : r'.isSame s' = r.isSame s := by
  simp only [OwnedElement.isSame, hr.id_eq, hs.id_eq, hr.serial_eq hserial, hs.serial_eq hserial]

end Tracks

namespace Retouched

theorem refl (d : Document) (x : ElementId) (p : String) : d.Retouched x p d := by
  refine ⟨rfl, rfl, rfl, rfl, rfl, rfl, fun _ _ => rfl, ?_⟩
  cases d.get? x with
  | none => exact .none
  | some e => exact .some (.refl e p)

theorem symm (h : d.Retouched x p d') : d'.Retouched x p d := by
  refine ⟨h.serial.symm, h.depthLimit.symm, h.libraries.symm, h.root.symm, h.dictionary.symm,
    h.names.symm, fun y hy => (h.others y hy).symm, ?_⟩
  have helement := h.element
  generalize d.get? x = e?, d'.get? x = e'? at helement
  cases helement with
  | none => exact .none
  | some he => exact .some he.symm

variable (h : d.Retouched x p d')

include h

theorem rel_get? (y : ElementId) : Option.Rel (Element.Retouched · p) (d.get? y) (d'.get? y) := by
  by_cases hy : y = x
  · exact hy ▸ h.element
  · rw [h.others y hy]
    cases d.get? y with
    | none => exact .none
    | some e => exact .some (.refl e p)

theorem exists_get? (he' : d'.get? y = some e') : ∃ e, d.get? y = some e ∧ e.Retouched p e' := by
  have hget := h.rel_get? y
  rw [he'] at hget
  generalize d.get? y = e? at hget
  cases hget with
  | some he => exact ⟨_, rfl, he⟩

theorem bind_get?_eq {α : Type} {f : Element → Option α}
    (hf : ∀ e e', e.Retouched p e' → f e' = f e) (y : ElementId) :
    (d'.get? y).bind f = (d.get? y).bind f := by
  have hget := h.rel_get? y
  generalize d.get? y = e?, d'.get? y = e'? at hget
  cases hget with
  | none => rfl
  | some he => exact hf _ _ he

theorem map_get?_eq {α : Type} {f : Element → α} (hf : ∀ e e', e.Retouched p e' → f e' = f e)
    (y : ElementId) : (d'.get? y).map f = (d.get? y).map f := by
  rw [Option.map_eq_bind, Option.map_eq_bind]
  exact h.bind_get?_eq (fun e e' he => congrArg some (hf e e' he)) y

theorem sameLinks : Tree.SameLinks d.tree d'.tree where
  root := h.root
  dictionary := h.dictionary
  links := h.map_get?_eq fun _ _ he => he.links_eq

theorem find_eq (space name : String) : d'.tree.find space name = d.tree.find space name := by
  rw [Tree.find, Tree.find, h.names]

theorem default?_eq (y : ElementId) (q : String) : d'.default? y q = d.default? y q := by
  have hdefault : ∀ d : Document, d.default? y q = ((d.get? y).map (·.typeName)).bind
      fun typeName => (d.tree.dictionary.property? typeName q).bind (·.default) := by
    intro d
    rw [Option.bind_map]
    rfl
  rw [hdefault, hdefault, h.dictionary, h.map_get?_eq fun _ _ he => he.typeName_eq]

theorem sheets_eq (y : ElementId) : d'.sheets y = d.sheets y :=
  congrArg (Option.getD · []) (h.map_get?_eq (fun _ _ he => he.sheets_eq) y)

section bases

private theorem exists_base? {b' : OwnedElement} (hb' : d'.base? y = some b') :
    ∃ b, d.base? y = some b ∧ Tracks d' d b' b := by
  refine exists_base?_of_le hb' h.libraries h.dictionary ?_ ?_
  · intro e' he' _
    obtain ⟨e, he, hretouched⟩ := h.exists_get? he'
    exact ⟨e, he, hretouched.typeName_eq.symm, hretouched.base_eq.symm⟩
  · intro space name y f' hfind hf'
    obtain ⟨f, hf, hretouched⟩ := h.exists_get? hf'
    exact ⟨(h.find_eq space name).symm.trans hfind, f, hf, hretouched.typeName_eq.symm⟩

theorem rel_base? (hr : Tracks d' d r' r) : Option.Rel (Tracks d' d) r'.base? r.base? := by
  rcases hr with rfl | ⟨rfl, rfl⟩
  · cases r'.base? with
    | none => exact .none
    | some b => exact .some (.refl _ _ b)
  · refine rel_of_exists (fun b' hb' => h.exists_base? hb') fun b hb => ?_
    obtain ⟨b', hb', -⟩ := h.symm.exists_base? hb
    exact ⟨b', hb'⟩

theorem forall₂_basesUpTo {fuel : Nat} {seen' seen : List OwnedElement} (hr : Tracks d' d r' r)
    (hseen : List.Forall₂ (Tracks d' d) seen' seen) :
    List.Forall₂ (Tracks d' d) (OwnedElement.basesUpTo fuel seen' r')
      (OwnedElement.basesUpTo fuel seen r) := by
  induction fuel generalizing r r' seen seen' with
  | zero => exact .nil
  | succ fuel ih =>
      have hbase := h.rel_base? hr
      simp only [OwnedElement.basesUpTo]
      generalize r'.base? = b'?, r.base? = b? at hbase
      cases hbase with
      | none => exact .nil
      | @some b' b hb =>
          have hany : seen'.any b'.isSame = seen.any b.isSame := by
            induction hseen with
            | nil => rfl
            | cons hs _ ih => rw [List.any_cons, List.any_cons, ih, hb.isSame_congr hs h.serial]
          simp only [hany]
          split
          · exact .nil
          · exact .cons hb (ih hb (.cons hb hseen))

theorem forall₂_chain (y : ElementId) :
    List.Forall₂ (Tracks d' d) (d'.chain y) (d.chain y) := by
  have hself : Tracks d' d ⟨d', y⟩ ⟨d, y⟩ := Or.inr ⟨rfl, rfl⟩
  simp only [chain, h.depthLimit]
  exact .cons hself (h.forall₂_basesUpTo hself (.cons hself .nil))

end bases

section access

/-- An element inherits the value it inherited, unless the retouched one is in its chain. -/
theorem virtualValue?_eq (hout : (⟨d, x⟩ : OwnedElement) ∉ d.chain y) (q : String) :
    d'.virtualValue? y q = d.virtualValue? y q := by
  have hchain : ((d'.chain y).findSome? fun r => r.get?.bind (·.value? q)) =
      (d.chain y).findSome? fun r => r.get?.bind (·.value? q) := by
    refine findSome?_eq_of_forall₂ (h.forall₂_chain y) ?_
    rintro r' r hr (rfl | ⟨rfl, rfl⟩)
    · rfl
    · have hne : r.id ≠ x := fun hid => hout (hid ▸ hr)
      exact congrArg (Option.bind · _) (h.others r.id hne)
  simp only [virtualValue?, hchain, h.default?_eq]

theorem flag_eq (hout : (⟨d, x⟩ : OwnedElement) ∉ d.chain y) (q : String) :
    d'.flag y q = d.flag y q := by
  rw [flag, flag, h.virtualValue?_eq hout]

theorem statedRule?_eq (hout : (⟨d, x⟩ : OwnedElement) ∉ d.chain y) :
    d'.statedRule? y = d.statedRule? y := by
  rw [statedRule?, statedRule?, h.virtualValue?_eq hout]

/-- The rule in force for an element is what it was, unless the retouched one is in the chain of
that element or of one around it. -/
theorem accessRule?_eq (hf : d.tree.Forest)
    (hout : ∀ z ∈ y :: d.tree.ancestors y, (⟨d, x⟩ : OwnedElement) ∉ d.chain z) :
    d'.accessRule? y = d.accessRule? y := by
  obtain ⟨hself, houter⟩ := List.forall_mem_cons.1 hout
  have hfind : (d.tree.ancestors y).find? (d'.flag · Vocabulary.enableAccessProperty) =
      (d.tree.ancestors y).find? (d.flag · Vocabulary.enableAccessProperty) :=
    List.find?_congr fun z hz => h.flag_eq (houter z hz) _
  simp only [accessRule?, h.flag_eq hself, h.statedRule?_eq hself, h.sameLinks.ancestors_eq hf,
    hfind]
  split
  · rfl
  · cases hnearest : (d.tree.ancestors y).find? (d.flag · Vocabulary.enableAccessProperty) with
    | none => rfl
    | some outer =>
        have hmem := houter outer (List.mem_of_find?_eq_some hnearest)
        simp only [h.flag_eq hmem, h.statedRule?_eq hmem]

end access

section cascade

variable (hf : d.tree.Forest) (hstyle : Vocabulary.styleProperty ≠ p)
  (htheme : Vocabulary.themeProperty ≠ p)
  (hslots : ∀ host, x ∉ d.tree.contents host Vocabulary.stylesSlot)

section

include hf hstyle

theorem describes_eq (s : Css.Selector) : s.describes d'.tree = s.describes d.tree := by
  have hholds : ∀ conditions y,
      Css.holdsAt d'.tree conditions y = Css.holdsAt d.tree conditions y := by
    intro conditions y
    have hget := h.map_get?_eq (f := fun e => conditions.all (·.holds e))
      (fun e e' he => by simp only [he.holds_eq hstyle]) y
    have hany := congrArg (Option.any id) hget
    simp only [Option.any_map] at hany
    exact hany
  induction s with
  | compound conditions => exact funext (hholds conditions)
  | within outer combinator conditions ih =>
      funext y
      cases combinator with
      | child => simp only [Css.Selector.describes, hholds, h.sameLinks.parent_eq, ih]
      | descendant => simp only [Css.Selector.describes, hholds, h.sameLinks.ancestors_eq hf, ih]

theorem sheetValue?_eq (sheets : List Css.Inclusion) (y : ElementId) (q : String) :
    d'.sheetValue? sheets y q = d.sheetValue? sheets y q := by
  simp only [sheetValue?, Css.StyleSheet.resolve, h.describes_eq hf hstyle]

end

include hslots in
theorem styleValue?_eq (host : ElementId) (e : Element) (q : String) :
    d'.tree.styleValue? host e q = d.tree.styleValue? host e q := by
  have hstyles : (d.tree.contents host Vocabulary.stylesSlot).filterMap d'.tree.get? =
      (d.tree.contents host Vocabulary.stylesSlot).filterMap d.tree.get? :=
    List.filterMap_congr fun y hy => h.others y fun heq => hslots host (heq ▸ hy)
  simp only [Tree.styleValue?, Tree.candidateStyles, h.sameLinks.contents_eq, hstyles]

section

include htheme

private theorem exists_theme? {theme' : OwnedElement} (ht : d'.theme? = some theme') :
    ∃ theme, d.theme? = some theme ∧ Tracks d' d theme' theme := by
  obtain ⟨text, htext, howner, hfind⟩ := theme?_eq_some_iff.1 ht
  have htext' : (d.get? d.root).bind (·.text? Vocabulary.themeProperty) = some text := by
    have hroot : d'.root = d.root := h.root
    rw [← htext, hroot, h.bind_get?_eq fun _ _ he => he.text?_eq htheme]
  cases hlibrary : (Reference.read text).library with
  | none =>
      have hself : theme'.document = d' := by
        rw [hlibrary] at howner
        exact (Option.some.inj howner).symm
      rw [hself, h.find_eq] at hfind
      refine ⟨⟨d, theme'.id⟩, theme?_eq_some_iff.2 ⟨text, htext', ?_, hfind⟩, Or.inr ⟨rfl, ?_⟩⟩
      · rw [hlibrary]
        rfl
      · rw [← hself]
  | some nameSpace =>
      refine ⟨theme', theme?_eq_some_iff.2 ⟨text, htext', ?_, hfind⟩, .refl _ _ _⟩
      rw [← howner, hlibrary, owner?, owner?, library?, library?, h.libraries]

theorem rel_theme? : Option.Rel (Tracks d' d) d'.theme? d.theme? := by
  refine rel_of_exists (fun theme' ht' => h.exists_theme? htheme ht') fun theme ht => ?_
  obtain ⟨theme', ht', -⟩ := h.symm.exists_theme? htheme ht
  exact ⟨theme', ht'⟩

end

include hf hstyle htheme hslots

theorem themeValue?_eq (he : e.Retouched p e') (y : ElementId) (q : String) :
    d'.themeValue? y e' q = d.themeValue? y e q := by
  have hthemes := h.rel_theme? htheme
  simp only [themeValue?]
  generalize d'.theme? = theme'?, d.theme? = theme? at hthemes
  cases hthemes with
  | none => rfl
  | @some theme' theme htracks =>
      rcases htracks with rfl | ⟨rfl, rfl⟩
      · simp only [Option.bind_some, he.styleValue?_eq hstyle, h.sheetValue?_eq hf hstyle]
      · have hname : (d'.tree.get? theme.id).bind (·.name) =
            (theme.document.tree.get? theme.id).bind (·.name) :=
          h.bind_get?_eq (fun _ _ he => he.name_eq) theme.id
        simp only [Option.bind_some, he.styleValue?_eq hstyle, h.sheetValue?_eq hf hstyle,
          h.styleValue?_eq hslots, h.sheets_eq, OwnedElement.get?, hname]

theorem localValue?_eq (he : e.Retouched p e') (hvalue : e'.value? q = e.value? q)
    (y : ElementId) : d'.localValue? y e' q = d.localValue? y e q := by
  have hroot : d'.root = d.root := h.root
  simp only [localValue?, hvalue, hroot, he.styleValue?_eq hstyle, h.styleValue?_eq hslots,
    h.sheets_eq, h.sheetValue?_eq hf hstyle, h.themeValue?_eq hf hstyle htheme hslots he]

private theorem cascade_step {depth : Nat} (hq : q = p → y ≠ x)
    (hnext : ∀ b, depth < d.depthLimit → d.base? y = some ⟨d, b⟩ →
      d'.cascade b q (depth + 1) = d.cascade b q (depth + 1)) :
    d'.cascade y q depth = d.cascade y q depth := by
  rw [Document.cascade_eq, Document.cascade_eq, h.depthLimit]
  have hget := h.rel_get? y
  cases he : d.get? y with
  | none =>
      rw [he] at hget
      generalize d'.get? y = e'? at hget
      cases hget with
      | none => rfl
  | some e =>
      obtain ⟨e', he', hretouched⟩ : ∃ e', d'.get? y = some e' ∧ e.Retouched p e' := by
        obtain ⟨e', he', hretouched⟩ := h.symm.exists_get? he
        exact ⟨e', he', hretouched.symm⟩
      -- the retouched element is asked for other properties only
      have hvalue : e'.value? q = e.value? q := by
        by_cases hqp : q = p
        · rw [h.others y (hq hqp)] at he'
          rw [Option.some.inj (he'.symm.trans he)]
        · exact hretouched.values q hqp
      rw [he', Option.bind_some, Option.bind_some, hretouched.base_eq,
        h.localValue?_eq hf hstyle htheme hslots hretouched hvalue]
      congr 1
      split
      · next hdepth =>
        have hbase : Option.Rel (Tracks d' d) (d'.base? y) (d.base? y) :=
          h.rel_base? (r := ⟨d, y⟩) (Or.inr ⟨rfl, rfl⟩)
        generalize hb' : d'.base? y = b'?, hb : d.base? y = b? at hbase
        cases hbase with
        | none => rfl
        | @some b' b htracks =>
            rcases htracks with rfl | ⟨hdocument, rfl⟩
            · rfl
            · obtain ⟨document, b⟩ := b
              obtain rfl : document = d := hdocument
              rw [Option.bind_some, Option.bind_some, hnext b hdepth hb]
      · rfl

/-- The cascade gives an element what it gave, as long as the retouched one is not asked for the
value of that property. -/
theorem cascade_eq {depth : Nat} (hq : q = p → ∀ k, k ≤ d.depthLimit - depth →
      (⟨d, y⟩ : OwnedElement).nthBase? k ≠ some ⟨d, x⟩) :
    d'.cascade y q depth = d.cascade y q depth := by
  -- both cascades go from base to base in step, until the limit or a library
  induction hn : d.depthLimit - depth using Nat.strong_induction_on generalizing y depth with
  | _ n ih =>
      have hself : q = p → y ≠ x := fun hqp hy => hq hqp 0 (Nat.zero_le _) (hy ▸ rfl)
      refine h.cascade_step hf hstyle htheme hslots hself fun b hdepth hb => ?_
      refine ih (d.depthLimit - (depth + 1)) (by omega) (fun hqp k hk hs => ?_) rfl
      exact hq hqp (k + 1) (by omega)
        ((OwnedElement.nthBase?_succ_of_base? (r := ⟨d, y⟩) hb k).trans hs)

/-- An element has the effective value it had, unless it is asked for the value of that property and
the retouched one is in its chain. -/
theorem effectiveValue?_eq (hq : q = p → (⟨d, x⟩ : OwnedElement) ∉ d.chain y) :
    d'.effectiveValue? y q = d.effectiveValue? y q := by
  have hcascade : d'.cascade y q 0 = d.cascade y q 0 :=
    h.cascade_eq hf hstyle htheme hslots fun hqp k hk hs => hq hqp (mem_chain_of_nthBase? hk hs)
  rw [effectiveValue?, effectiveValue?, hcascade, h.default?_eq]

end cascade

end Retouched

end Document

end ReportModel
