import ReportModel.Proofs.Css.Cutting
import ReportModel.Proofs.Css.Reading

/-!
# The text of selectors

Every condition but a type starts with a mark of its own, names have no marks in them, and a blank
stands in front of each compound but the first. The text of a selector as it can be read therefore
determines the selector.
-/

namespace ReportModel.Css

variable {c d : Component} {cs ds : Compound} {s t : Selector} {rest : List Char}

/-! ## Conditions -/

namespace Component

/-- The name in a condition is one that reading may give. -/
def isNamed : Component → Bool
  | .ofType name | .ofClass name => isIdent name.toList
  | .universal => true
  | .ofId name => isHex name.toList || isIdent name.toList
  | .ofPseudo name => isPseudoName name.toList

def chars (c : Component) : List Char :=
  c.text.toList

@[simp]
theorem chars_ofType (name : String) : (ofType name).chars = name.toList :=
  rfl

@[simp]
theorem chars_universal : universal.chars = ['*'] :=
  rfl

@[simp]
theorem chars_ofClass (name : String) : (ofClass name).chars = '.' :: name.toList :=
  String.toList_append

@[simp]
theorem chars_ofId (name : String) : (ofId name).chars = '#' :: name.toList :=
  String.toList_append

@[simp]
theorem chars_ofPseudo (name : String) : (ofPseudo name).chars = ':' :: name.toList :=
  String.toList_append

end Component

/-- The condition that a text starts with, and the rest. -/
def firstCondition : List Char → Component × List Char
  | [] => (.universal, [])
  | c :: cs =>
    if c = '*' then (.universal, cs)
    else if c = '.' then
      (.ofClass (String.ofList (cs.takeWhile isIdentPart)), cs.dropWhile isIdentPart)
    else if c = '#' then
      (.ofId (String.ofList (cs.takeWhile isIdentPart)), cs.dropWhile isIdentPart)
    else if c = ':' then
      (.ofPseudo (String.ofList (cs.takeWhile isIdentPart)), cs.dropWhile isIdentPart)
    else
      (.ofType (String.ofList ((c :: cs).takeWhile isIdentPart)), (c :: cs).dropWhile isIdentPart)

theorem firstCondition_append (hc : c.isNamed = true) (hrest : EndsName rest) :
    firstCondition (c.chars ++ rest) = (c, rest) := by
  have hname {cs : List Char} (hcs : ∀ c ∈ cs, isIdentPart c = true) :=
    takeWhile_append_of_head rest hcs hrest
  cases c with
  | ofType name =>
      obtain ⟨htake, hdrop⟩ := hname (isIdentPart_of_isIdent hc)
      obtain ⟨first, more, hcons, hstart⟩ := exists_isIdentStart hc
      have hmark {mark : Char} (hne : isIdentStart mark = false) : first ≠ mark := by
        rintro rfl
        exact Bool.false_ne_true (hne.symm.trans hstart)
      rw [hcons, List.cons_append] at htake hdrop
      rw [Component.chars_ofType, hcons, List.cons_append, firstCondition,
        if_neg (hmark (by decide)), if_neg (hmark (by decide)), if_neg (hmark (by decide)),
        if_neg (hmark (by decide)), htake, hdrop, ← hcons, String.ofList_toList]
  | universal => rfl
  | ofClass name =>
      obtain ⟨htake, hdrop⟩ := hname (isIdentPart_of_isIdent hc)
      simp [firstCondition, htake, hdrop]
  | ofId name =>
      have hparts : ∀ c ∈ name.toList, isIdentPart c = true :=
        (Bool.or_eq_true_iff.1 hc).elim isIdentPart_of_isHex isIdentPart_of_isIdent
      obtain ⟨htake, hdrop⟩ := hname hparts
      simp [firstCondition, htake, hdrop]
  | ofPseudo name =>
      obtain ⟨htake, hdrop⟩ := hname (isIdentPart_of_isPseudoName hc)
      simp [firstCondition, htake, hdrop]

theorem Component.mem_chars (hc : c.isNamed = true) :
    ∀ x ∈ c.chars, isIdentPart x = true ∨ x ∈ ['*', '.', '#', ':'] := by
  cases c with
  | ofType name => exact fun x hx => Or.inl (isIdentPart_of_isIdent hc x hx)
  | universal => simp
  | ofClass name =>
      rw [chars_ofClass]
      exact List.forall_mem_cons.2
        ⟨by simp, fun x hx => Or.inl (isIdentPart_of_isIdent hc x hx)⟩
  | ofId name =>
      rw [chars_ofId]
      refine List.forall_mem_cons.2 ⟨by simp, fun x hx => Or.inl ?_⟩
      exact (Bool.or_eq_true_iff.1 hc).elim (fun h => isIdentPart_of_isHex h x hx)
        fun h => isIdentPart_of_isIdent h x hx
  | ofPseudo name =>
      rw [chars_ofPseudo]
      exact List.forall_mem_cons.2
        ⟨by simp, fun x hx => Or.inl (isIdentPart_of_isPseudoName hc x hx)⟩

theorem Component.endsName (hc : c.isQualifier = true) (rest : List Char) :
    EndsName (c.chars ++ rest) := by
  cases c with
  | ofType | universal => cases hc
  | ofClass | ofId | ofPseudo =>
      simp only [chars_ofClass, chars_ofId, chars_ofPseudo]
      rintro x ⟨⟩
      decide

theorem Component.chars_ne_nil (hc : c.isNamed = true) : c.chars ≠ [] := by
  cases c with
  | ofType name =>
      obtain ⟨first, more, hcons, -⟩ := exists_isIdentStart hc
      simp [hcons]
  | universal | ofClass | ofId | ofPseudo => simp

/-! ## Compounds -/

def compoundChars (cs : Compound) : List Char :=
  cs.flatMap Component.chars

@[simp]
theorem compoundChars_nil : compoundChars [] = [] :=
  rfl

@[simp]
theorem compoundChars_cons (c : Component) (cs : Compound) :
    compoundChars (c :: cs) = c.chars ++ compoundChars cs :=
  List.flatMap_cons

theorem toList_compoundText (cs : Compound) : (compoundText cs).toList = compoundChars cs := by
  rw [compoundText, String.toList_join, List.flatMap_map]
  rfl

theorem endsName_compoundChars (hcs : ∀ q ∈ cs, q.isQualifier = true) :
    EndsName (compoundChars cs) := by
  cases cs with
  | nil => simp [EndsName]
  | cons c cs =>
      rw [compoundChars_cons]
      exact Component.endsName (hcs c List.mem_cons_self) _

/-- Conditions of which only the first may be no qualifier, with names that reading may give. -/
structure IsFormed (cs : Compound) : Prop where
  qualified : ∀ q ∈ cs.tail, q.isQualifier = true
  named : ∀ c ∈ cs, c.isNamed = true

theorem IsFormed.tail (h : IsFormed (c :: cs)) : IsFormed cs where
  qualified q hq := h.qualified q (List.mem_of_mem_tail hq)
  named d hd := h.named d (List.mem_cons_of_mem c hd)

theorem IsFormed.compoundChars_ne_nil (h : IsFormed (c :: cs)) : compoundChars (c :: cs) ≠ [] := by
  rw [compoundChars_cons]
  exact List.append_ne_nil_of_left_ne_nil
    (Component.chars_ne_nil (h.named c List.mem_cons_self)) _

theorem IsFormed.firstCondition (h : IsFormed (c :: cs)) :
    firstCondition (compoundChars (c :: cs)) = (c, compoundChars cs) := by
  rw [compoundChars_cons]
  exact firstCondition_append (h.named c List.mem_cons_self) (endsName_compoundChars h.qualified)

theorem IsFormed.compoundChars_inj (hcs : IsFormed cs) (hds : IsFormed ds)
    (h : compoundChars cs = compoundChars ds) : cs = ds := by
  induction cs generalizing ds with
  | nil =>
      cases ds with
      | nil => rfl
      | cons d ds => exact absurd h.symm hds.compoundChars_ne_nil
  | cons c cs ih =>
      cases ds with
      | nil => exact absurd h hcs.compoundChars_ne_nil
      | cons d ds =>
          have hfirst := congrArg Css.firstCondition h
          rw [hcs.firstCondition, hds.firstCondition] at hfirst
          obtain ⟨rfl, hrest⟩ := Prod.mk.inj hfirst
          rw [ih hcs.tail hds.tail hrest]

theorem IsFormed.notMem_compoundChars {x : Char} (h : IsFormed cs) (hpart : isIdentPart x = false)
    (hmark : x ∉ ['*', '.', '#', ':']) : x ∉ compoundChars cs := by
  intro hx
  obtain ⟨c, hc, hx⟩ := List.mem_flatMap.1 hx
  rcases Component.mem_chars (h.named c hc) x hx with hname | hx
  · exact Bool.false_ne_true (hpart.symm.trans hname)
  · exact hmark hx

/-! ## Selectors -/

def Selector.IsFormed (s : Selector) : Prop :=
  ∀ cs ∈ s.compounds, Css.IsFormed cs

/-- What stands in front of the blank before a compound. -/
def Combinator.lead : Combinator → List Char
  | .descendant => []
  | .child => [' ', '>']

namespace Selector

def chars : Selector → List Char
  | .compound cs => compoundChars cs
  | .within outer combinator cs => outer.chars ++ combinator.lead ++ ' ' :: compoundChars cs

theorem toList_text (s : Selector) : s.text.toList = s.chars := by
  induction s with
  | compound cs => exact toList_compoundText cs
  | within outer combinator cs ih =>
      rw [text, chars, String.toList_append, String.toList_append, ih, toList_compoundText]
      cases combinator <;> simp [Combinator.text, Combinator.lead]

theorem forall_compounds_within {p : Compound → Prop} {outer : Selector}
    {combinator : Combinator} : (∀ ds ∈ (within outer combinator cs).compounds, p ds) ↔
      (∀ ds ∈ outer.compounds, p ds) ∧ p cs := by
  simp [compounds, or_imp, forall_and]

theorem isFormed_within {outer : Selector} {combinator : Combinator} :
    (within outer combinator cs).IsFormed ↔ outer.IsFormed ∧ Css.IsFormed cs :=
  forall_compounds_within

/-- Two lists are cut alike at the last place of a value. -/
private theorem append_cons_inj_of_last {α : Type} {a : α} {xs ys us vs : List α} (hus : a ∉ us)
    (hvs : a ∉ vs) (h : xs ++ a :: us = ys ++ a :: vs) : xs = ys ∧ us = vs := by
  have hshift {bs us vs : List α} (hus : a ∉ us) (h : a :: us = bs ++ a :: vs) :
      bs = [] ∧ us = vs := by
    cases bs with
    | nil => exact ⟨rfl, (List.cons.inj h).2⟩
    | cons b bs =>
        refine absurd ?_ hus
        rw [(List.cons.inj h).2]
        simp
  rcases List.append_eq_append_iff.1 h with ⟨bs, rfl, hbs⟩ | ⟨bs, rfl, hbs⟩
  · obtain ⟨rfl, rfl⟩ := hshift hus hbs
    exact ⟨(List.append_nil xs).symm, rfl⟩
  · obtain ⟨rfl, rfl⟩ := hshift hvs hbs
    exact ⟨List.append_nil ys, rfl⟩

theorem IsFormed.getLast?_chars_ne (hs : s.IsFormed) : s.chars.getLast? ≠ some '>' := by
  intro h
  have hlast {cs : Compound} (hcs : Css.IsFormed cs) : '>' ∉ ' ' :: compoundChars cs := by
    rw [List.mem_cons, not_or]
    exact ⟨by decide, hcs.notMem_compoundChars (by decide) (by decide)⟩
  cases s with
  | compound cs =>
      have hcs := hs cs List.mem_cons_self
      exact hlast hcs (List.mem_cons_of_mem _ (List.mem_of_getLast? h))
  | within outer combinator cs =>
      rw [chars, List.getLast?_append_of_ne_nil _ (List.cons_ne_nil _ _)] at h
      exact hlast (isFormed_within.1 hs).2 (List.mem_of_getLast? h)

theorem IsFormed.getLast?_lead (hs : s.IsFormed) (combinator : Combinator) :
    (s.chars ++ combinator.lead).getLast? = some '>' ↔ combinator = .child := by
  cases combinator with
  | descendant => simpa [Combinator.lead] using hs.getLast?_chars_ne
  | child => simp [Combinator.lead]

theorem IsFormed.chars_inj (hs : s.IsFormed) (ht : t.IsFormed) (h : s.chars = t.chars) : s = t := by
  have hblank {cs : Compound} (hcs : Css.IsFormed cs) : ' ' ∉ compoundChars cs :=
    hcs.notMem_compoundChars (by decide) (by decide)
  induction s generalizing t with
  | compound cs =>
      have hcs := hs cs List.mem_cons_self
      cases t with
      | compound ds => rw [hcs.compoundChars_inj (ht ds List.mem_cons_self) h]
      | within outer combinator ds =>
          refine absurd ?_ (hblank hcs)
          have h' : compoundChars cs = _ := h
          rw [h', chars]
          simp
  | within outer combinator cs ih =>
      obtain ⟨houter, hcs⟩ := isFormed_within.1 hs
      cases t with
      | compound ds =>
          refine absurd ?_ (hblank (ht ds List.mem_cons_self))
          have h' : _ = compoundChars ds := h
          rw [← h', chars]
          simp
      | within outer' combinator' ds =>
          obtain ⟨houter', hds⟩ := isFormed_within.1 ht
          obtain ⟨hfront, hlast⟩ := append_cons_inj_of_last (hblank hcs) (hblank hds) h
          obtain rfl := hcs.compoundChars_inj hds hlast
          have hchild : combinator = .child ↔ combinator' = .child := by
            rw [← houter.getLast?_lead, hfront, houter'.getLast?_lead]
          obtain rfl : combinator = combinator' := by
            cases combinator <;> cases combinator' <;> simp_all
          rw [ih houter houter' (List.append_cancel_right hfront)]

end Selector

/-! ## Selectors that are read -/

section read

variable {used : List Lexeme}

theorem IsQualifier.isNamed (h : IsQualifier used c) (hcut : ∀ t ∈ used, t.IsCut) :
    c.isNamed = true := by
  have hident {name : Lexeme} (hmem : name ∈ used) (hname : name.token = .ident) :
      isIdent name.text.toList = true := by
    rw [Lexeme.text, String.toList_ofList]
    exact (hcut name hmem).isIdent hname
  cases h with
  | ofClass hdot hname => exact hident (by simp) hname
  | ofId hhash hname => exact Bool.or_eq_true_iff.2 (Or.inr (hident (by simp) hname))
  | ofColor ht => exact Bool.or_eq_true_iff.2 (Or.inl ((hcut _ (by simp)).isHex ht))
  | ofPseudo ht => exact (hcut _ (by simp)).isPseudoName ht

theorem IsHead.isNamed (h : IsHead used c) (hcut : ∀ t ∈ used, t.IsCut) : c.isNamed = true := by
  cases h with
  | @ofType t ht =>
      rw [Component.isNamed, Lexeme.text, String.toList_ofList]
      exact (hcut t List.mem_cons_self).isIdent ht
  | universal => rfl
  | qualifier h => exact h.isNamed hcut

theorem IsQualifiers.isNamed (h : IsQualifiers used cs) (hcut : ∀ t ∈ used, t.IsCut) :
    ∀ c ∈ cs, c.isNamed = true := by
  induction h with
  | nil => simp
  | cons hq _ _ ih =>
      rw [List.forall_mem_append] at hcut
      exact List.forall_mem_cons.2 ⟨hq.isNamed hcut.1, ih hcut.2⟩

theorem IsCompound.isFormed (h : IsCompound used cs) (hcut : ∀ t ∈ used, t.IsCut) :
    IsFormed cs := by
  obtain ⟨hhead, hmore⟩ := h
  rw [List.forall_mem_append] at hcut
  exact ⟨hmore.isQualifier, List.forall_mem_cons.2
    ⟨hhead.isNamed hcut.1, hmore.isNamed hcut.2⟩⟩

theorem IsSelector.isFormed (h : IsSelector used s) (hcut : ∀ t ∈ used, t.IsCut) :
    s.IsFormed := by
  induction h with
  | compound hc => exact List.forall_mem_singleton.2 (hc.isFormed hcut)
  | child _ _ hc ih =>
      rw [List.forall_mem_append, List.forall_mem_cons] at hcut
      exact Selector.isFormed_within.2 ⟨ih hcut.1, hc.isFormed hcut.2.2⟩
  | descendant _ hc _ ih =>
      rw [List.forall_mem_append] at hcut
      exact Selector.isFormed_within.2 ⟨ih hcut.1, hc.isFormed hcut.2⟩

theorem IsSelectors.isFormed {ss : List Selector} (h : IsSelectors used ss)
    (hcut : ∀ t ∈ used, t.IsCut) : ∀ s ∈ ss, s.IsFormed := by
  induction h with
  | single hs => exact List.forall_mem_singleton.2 (hs.isFormed hcut)
  | cons hs _ _ ih =>
      rw [List.forall_mem_append, List.forall_mem_cons] at hcut
      exact List.forall_mem_cons.2 ⟨hs.isFormed hcut.1, ih hcut.2.2⟩

theorem IsSheet.isFormed {rules : List Rule} (h : IsSheet used rules)
    (hcut : ∀ t ∈ used, t.IsCut) : ∀ rule ∈ rules, ∀ s ∈ rule.selectors, s.IsFormed := by
  induction h with
  | nil => simp
  | cons hrule _ ih =>
      rw [List.forall_mem_append] at hcut
      obtain ⟨hselectors, -, -, -⟩ := hrule
      refine List.forall_mem_cons.2 ⟨hselectors.isFormed fun t ht => hcut.1 t ?_, ih hcut.2⟩
      simp [ht]

/-- The selectors of a text that is read are formed. -/
theorem isFormed_of_readRules {text : String} {rules : List Rule} (h : readRules text = .ok rules) :
    ∀ rule ∈ rules, ∀ s ∈ rule.selectors, s.IsFormed := by
  have hcut := lex_isCut (stripComments text.toList)
  exact ((takeRules_eq_ok hcut).1 (mapError_eq_ok.1 h)).isFormed hcut

end read

end ReportModel.Css
