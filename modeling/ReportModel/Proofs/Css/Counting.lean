import ReportModel.Proofs.Css.IdNames
import ReportModel.Proofs.Css.Specificity

/-!
# Counting conditions

The rank of a selector counts its ids, its classes and pseudo-classes, and its types. The counts are
exact, and one more condition raises the rank. But the counters are words of 16 bits, and the reader
takes selectors of any length: a selector with more conditions of one sort than a word can count is
read, and has no rank. A text of at most 65535 characters has no such selector.
-/

namespace ReportModel.Css

namespace Specificity

variable {a b : Specificity} {counter : Counter} {s less : Selector} {c : Component}
  {order : UInt32} {important : Bool}

theorem compareKeys_cons_self (m : Nat) (ms ns : List Nat) :
    compareKeys (m :: ms) (m :: ns) = compareKeys ms ns := by
  rw [compareKeys, if_neg (Nat.lt_irrefl m), if_neg (Nat.lt_irrefl m)]

theorem compareKeys_cons_succ (m : Nat) (ms ns : List Nat) :
    compareKeys (m :: ms) ((m + 1) :: ns) = .lt := by
  rw [compareKeys, if_pos (Nat.lt_succ_self m)]

theorem Adds.compare_eq_lt (h : Adds a (fun other => if counter = other then 1 else 0) b) :
    a.compare b = .lt := by
  have hids : b.ids.toNat = a.ids.toNat + if counter = .ids then 1 else 0 := h.counted .ids
  have hclasses : b.classes.toNat = a.classes.toNat + if counter = .classes then 1 else 0 :=
    h.counted .classes
  have htypes : b.types.toNat = a.types.toNat + if counter = .types then 1 else 0 :=
    h.counted .types
  rw [compare, key, key, h.important, h.order, hids, hclasses, htypes, compareKeys_cons_self]
  cases counter with
  | ids => exact compareKeys_cons_succ _ _ _
  | classes =>
      simp only [reduceCtorEq, if_false, if_true, Nat.add_zero]
      rw [compareKeys_cons_self, compareKeys_cons_succ]
  | types =>
      simp only [reduceCtorEq, if_false, if_true, Nat.add_zero]
      rw [compareKeys_cons_self, compareKeys_cons_self, compareKeys_cons_succ]

theorem number_of_perm (hperm : s.components.Perm (c :: less.components)) (counter : Counter) :
    s.number counter = less.number counter + if c.counter? = some counter then 1 else 0 := by
  rw [Selector.number, hperm.countP_eq, List.countP_cons, Selector.number]
  simp only [decide_eq_true_eq]

/-- A selector that has a rank has one above that of the selector with a condition less. -/
theorem compare_ofSelector (hc : c ≠ .universal)
    (hperm : s.components.Perm (c :: less.components)) (hfits : s.Fits) :
    ∃ lower higher, ofSelector less order important = .ok lower ∧
      ofSelector s order important = .ok higher ∧ lower.compare higher = .lt := by
  obtain ⟨counter, hcounter⟩ := c.exists_counter hc
  have hnumber := number_of_perm hperm
  have hless : less.Fits := fun k => by
    have := hfits k
    have := hnumber k
    omega
  obtain ⟨lower, hlower⟩ : ∃ rank, ofSelector less order important = .ok rank :=
    exists_ofSelector_iff.2 hless
  obtain ⟨higher, hhigher⟩ : ∃ rank, ofSelector s order important = .ok rank :=
    exists_ofSelector_iff.2 hfits
  obtain ⟨himportant, horder, hcounted⟩ := ofSelector_eq_ok.1 hlower
  obtain ⟨himportant', horder', hcounted'⟩ := ofSelector_eq_ok.1 hhigher
  have hadds : Adds lower (fun k => if counter = k then 1 else 0) higher := by
    refine ⟨himportant'.trans himportant.symm, horder'.trans horder.symm, fun k => ?_⟩
    rw [hcounted', hcounted, hnumber, hcounter]
    simp only [Option.some.injEq]
  exact ⟨lower, higher, hlower, hhigher, hadds.compare_eq_lt⟩

end Specificity

/-! ## The selectors of a text -/

section Text

variable {used : List Lexeme} {c : Component} {cs : List Component} {s : Selector}
  {ss : List Selector} {rules : List Rule} {rule : Rule}

theorem IsQualifier.length_pos (h : IsQualifier used c) : 0 < used.length := by
  cases h <;> simp

theorem IsHead.length_pos (h : IsHead used c) : 0 < used.length := by
  cases h with
  | ofType | universal => simp
  | qualifier h => exact h.length_pos

theorem IsQualifiers.length_le (h : IsQualifiers used cs) : cs.length ≤ used.length := by
  induction h with
  | nil => exact Nat.le_refl 0
  | cons hq _ _ ih =>
      have := hq.length_pos
      rw [List.length_cons, List.length_append]
      omega

theorem IsCompound.length_le (h : IsCompound used cs) : cs.length ≤ used.length := by
  obtain ⟨hhead, hmore⟩ := h
  have := hhead.length_pos
  have := hmore.length_le
  rw [List.length_cons, List.length_append]
  omega

theorem IsSelector.length_le (h : IsSelector used s) : s.components.length ≤ used.length := by
  have hwithin (outer : Selector) (combinator : Combinator) (cs : Compound) :
      (Selector.within outer combinator cs).components.length =
        outer.components.length + cs.length := by
    simp [Selector.components, Selector.compounds]
  induction h with
  | @compound _ cs hc => simpa [Selector.components, Selector.compounds] using hc.length_le
  | child _ _ hc ih =>
      have := hc.length_le
      rw [hwithin, List.length_append, List.length_cons]
      omega
  | descendant _ hc _ ih =>
      have := hc.length_le
      rw [hwithin, List.length_append]
      omega

theorem IsSelectors.length_le (h : IsSelectors used ss) :
    ∀ s ∈ ss, s.components.length ≤ used.length := by
  induction h with
  | single hs => exact List.forall_mem_singleton.2 hs.length_le
  | @cons ts us comma s ss hs _ _ ih =>
      have hfirst := hs.length_le
      rw [List.length_append, List.length_cons]
      refine List.forall_mem_cons.2 ⟨by omega, fun s hmem => ?_⟩
      have := ih s hmem
      omega

theorem IsSheet.length_le (h : IsSheet used rules) :
    ∀ rule ∈ rules, ∀ s ∈ rule.selectors, s.components.length ≤ used.length := by
  induction h with
  | nil => simp
  | cons hrule _ ih =>
      obtain ⟨hselectors, -, -, -⟩ := hrule
      refine List.forall_mem_cons.2 ⟨fun s hs => ?_, fun rule hrule s hs => ?_⟩
      · have := hselectors.length_le s hs
        simp only [List.length_append]
        omega
      · have := ih rule hrule s hs
        rw [List.length_append]
        omega

theorem length_lexFrom_le (joined : Bool) (skip : Nat) (cs : List Char) :
    (lexFrom joined skip cs).length ≤ cs.length := by
  fun_induction lexFrom joined skip cs with
  | case1 => exact Nat.le_refl 0
  | case2 _ _ _ _ ih => exact Nat.le_succ_of_le ih
  | case3 _ _ _ _ ih => exact Nat.le_succ_of_le ih
  | case4 _ _ _ _ _ _ _ ih => exact Nat.succ_le_succ ih
  | case5 => exact Nat.zero_le _
  | case6 _ _ _ _ _ _ ih => exact Nat.le_succ_of_le ih

theorem length_components_le {text : String} (h : readRules text = .ok rules) :
    ∀ rule ∈ rules, ∀ s ∈ rule.selectors, s.components.length ≤ text.length := by
  intro rule hrule s hs
  calc s.components.length
      ≤ (lex (stripComments text.toList)).length :=
        (readRules_eq_ok.1 h).length_le rule hrule s hs
    _ ≤ (stripComments text.toList).length := length_lexFrom_le _ _ _
    _ ≤ text.toList.length := length_stripFrom_le _ _
    _ = text.length := String.length_toList

end Text

theorem Selector.fits_of_length_lt {s : Selector} (h : s.components.length < 65536) : s.Fits :=
  fun _ => Nat.lt_of_le_of_lt List.countP_le_length h

theorem fits_of_readRules {text : String} {rules : List Rule} (h : readRules text = .ok rules)
    (hshort : text.length < 65536) : ∀ rule ∈ rules, ∀ s ∈ rule.selectors, s.Fits :=
  fun rule hrule s hs => Selector.fits_of_length_lt
    (Nat.lt_of_le_of_lt (length_components_le h rule hrule s hs) hshort)

/-- A rank has the number of the conditions of each sort in its counter, and a selector has a rank
unless a counter runs over. So every condition raises the rank of a selector that has one. All
selectors of a text that is shorter than the size of a counter have a rank. -/
theorem Specificity.counting (s : Selector) (order : UInt32) (important : Bool) :
    (∀ rank, ofSelector s order important = .ok rank ↔
      rank.important = important ∧ rank.order = order ∧
        ∀ counter, (rank.counted counter).toNat = s.number counter) ∧
    (if s.Fits then ∃ rank, ofSelector s order important = .ok rank
      else ofSelector s order important = .error .counter) ∧
    (∀ (less : Selector) (c : Component), c ≠ .universal →
      s.components.Perm (c :: less.components) → s.Fits →
      ∃ lower higher, ofSelector less order important = .ok lower ∧
        ofSelector s order important = .ok higher ∧ lower.compare higher = .lt) ∧
    ∀ (text : String) (rules : List Rule), readRules text = .ok rules → text.length < 65536 →
      ∀ rule ∈ rules, s ∈ rule.selectors → s.Fits := by
  refine ⟨fun rank => ofSelector_eq_ok, ?_, fun less c hc hperm hfits =>
    compare_ofSelector hc hperm hfits, fun text rules hread hshort rule hrule hs =>
    fits_of_readRules hread hshort rule hrule s hs⟩
  split
  · next hfits => exact exists_ofSelector_iff.2 hfits
  · next hfull => exact ofSelector_eq_error hfull

/-- A cell with a class and an id, and perhaps more conditions. -/
def totalCell (more : Compound) : Selector :=
  .within (.compound [.ofType "Table"]) .child
    (.ofType "Cell" :: .ofClass "total" :: .ofId "sum" :: more)

theorem Specificity.counting_totalCell :
    readRules "Table > Cell.total#sum, Table > Cell.total#sum.odd \x7b\x7d" =
      .ok [⟨[totalCell [], totalCell [.ofClass "odd"]], []⟩] ∧
    (∃ rank, ofSelector (totalCell []) 3 false = .ok rank ∧ (rank.counted .types).toNat = 2) ∧
    ∃ lower higher, ofSelector (totalCell []) 0 true = .ok lower ∧
      ofSelector (totalCell [.ofClass "odd"]) 0 true = .ok higher ∧
      lower.compare higher = .lt := by
  have hread : readRules "Table > Cell.total#sum, Table > Cell.total#sum.odd \x7b\x7d" =
      .ok [⟨[totalCell [], totalCell [.ofClass "odd"]], []⟩] := by
    decide +kernel
  obtain ⟨hexact, hrank, -, hshort⟩ := counting (totalCell []) 3 false
  rw [if_pos (hshort _ _ hread (by decide +kernel) _ List.mem_cons_self (by simp))] at hrank
  obtain ⟨rank, hrank⟩ := hrank
  obtain ⟨-, -, hraises, hshort⟩ := counting (totalCell [.ofClass "odd"]) 0 true
  have hfits := hshort _ _ hread (by decide +kernel) _ List.mem_cons_self (by simp)
  refine ⟨hread, ⟨rank, hrank, ?_⟩, hraises _ (.ofClass "odd") (by decide) (by decide) hfits⟩
  rw [((hexact rank).1 hrank).2.2]
  decide

/-! ## A full counter -/

/-- A compound of one class, written many times. -/
def crowd (n : Nat) : Selector :=
  .compound (List.replicate n (.ofClass "a"))

theorem components_crowd (n : Nat) : (crowd n).components = List.replicate n (.ofClass "a") :=
  List.append_nil _

theorem number_crowd (n : Nat) : (crowd n).number .classes = n := by
  rw [Selector.number, components_crowd, List.countP_replicate]
  rfl

theorem readRules_of_isLegible {s : Selector} (hs : ∀ cs ∈ s.compounds, IsLegible cs) :
    readRules (s.text ++ " \x7b\x7d") = .ok [⟨[s], []⟩] := by
  have hformed : s.IsFormed := fun cs hcs => ⟨(hs cs hcs).qualified, fun c hc =>
    Component.isNamed_of_isLegible ((hs cs hcs).legible c hc)⟩
  obtain ⟨ts, hcuts, hselector⟩ := s.exists_cuts hs
  have hread := readRules_of_cuts hcuts hselector (hformed.notMem_chars (by decide) (by decide))
  rwa [← s.toList_text, String.ofList_toList] at hread

theorem isLegible_crowd {n : Nat} (hn : n ≠ 0) : ∀ cs ∈ (crowd n).compounds, IsLegible cs := by
  have hone : ∀ c ∈ List.replicate n (Component.ofClass "a"), c = .ofClass "a" := fun c hc =>
    List.eq_of_mem_replicate hc
  refine List.forall_mem_singleton.2 ⟨by simpa using hn, fun q hq => ?_, fun c hc => ?_⟩
  · rw [hone q (List.mem_of_mem_tail hq)]
    rfl
  · rw [hone c hc]
    decide

/-- A selector of so many classes that they cannot be counted is read, but has no rank, unlike that
with one class less. -/
theorem Specificity.counting_crowd :
    readRules ((crowd 65536).text ++ " \x7b\x7d") = .ok [⟨[crowd 65536], []⟩] ∧
    (crowd 65536).number .classes = 65536 ∧
    ofSelector (crowd 65536) 0 false = .error .counter ∧
    ∃ rank, ofSelector (crowd 65535) 0 false = .ok rank ∧
      (rank.counted .classes).toNat = 65535 := by
  have hfits : (crowd 65535).Fits := by
    refine Selector.fits_of_length_lt ?_
    rw [components_crowd, List.length_replicate]
    decide
  have hfull : ¬(crowd 65536).Fits := fun h => absurd (h .classes) (by rw [number_crowd]; decide)
  obtain ⟨rank, hrank⟩ := exists_ofSelector_iff.2 hfits
  refine ⟨readRules_of_isLegible (isLegible_crowd (by decide)), number_crowd _,
    ofSelector_eq_error hfull, rank, hrank, ?_⟩
  rw [(ofSelector_eq_ok.1 hrank).2.2, number_crowd]

end ReportModel.Css
