import ReportModel.Proofs.Document.Chains

/-!
# The walks along chains of bases

Three walks go along a chain of bases. The check of all chains starts at the element, the check of a
new base starts at that base, and the list of the chain starts after the element itself. They count
against the same limit: none of them stops on a chain that has no more bases than the limit and
comes to no element twice, and all of them stop on any other chain.
-/

namespace ReportModel

namespace OwnedElement

variable {r b self : OwnedElement} {fuel : Nat} {seen : List OwnedElement}

/-- The chain of an element has at most some number of bases. -/
def EndsWithin (r : OwnedElement) (limit : Nat) : Prop :=
  r.nthBase? (limit + 1) = none

theorem nthBase?_succ (r : OwnedElement) (n : Nat) :
    r.nthBase? (n + 1) = r.base?.bind (·.nthBase? n) := by
  induction n with
  | zero =>
      change r.base? = r.base?.bind some
      exact (Option.bind_fun_some _).symm
  | succ n ih =>
      rw [nthBase?, ih, Option.bind_assoc]
      rfl

theorem isSame_comm (r s : OwnedElement) : r.isSame s = s.isSame r := by
  simp only [isSame, eq_comm]

/-- The chain of an element comes back to it. -/
def Returns (r : OwnedElement) : Prop :=
  ∃ k s, r.nthBase? (k + 1) = some s ∧ s.isSame r = true

/-- The chain of an element comes to some element twice. -/
def Revisits (r : OwnedElement) : Prop :=
  ∃ i j a b, i < j ∧ r.nthBase? i = some a ∧ r.nthBase? j = some b ∧ a.isSame b = true

/-- The bases of an element have not been seen, and no two of them are the same. -/
def Fresh (seen : List OwnedElement) (r : OwnedElement) : Prop :=
  ∀ j b, r.nthBase? (j + 1) = some b → seen.any b.isSame = false ∧
    ∀ i a, i < j → r.nthBase? (i + 1) = some a → b.isSame a = false

theorem nthBase?_succ_of_base? (hbase : r.base? = some b) (k : Nat) :
    r.nthBase? (k + 1) = b.nthBase? k := by
  rw [nthBase?_succ, hbase, Option.bind_some]

theorem nthBase?_succ_of_base?_eq_none (hbase : r.base? = none) (k : Nat) :
    r.nthBase? (k + 1) = none := by
  rw [nthBase?_succ, hbase, Option.bind_none]

theorem endsWithin_succ (hbase : r.base? = some b) :
    r.EndsWithin (fuel + 1) ↔ b.EndsWithin fuel := by
  rw [EndsWithin, nthBase?_succ_of_base? hbase, EndsWithin]

theorem EndsWithin.nthBase?_eq_none {limit k : Nat} (h : r.EndsWithin limit) (hk : limit < k) :
    r.nthBase? k = none := by
  induction k with
  | zero => omega
  | succ k ih =>
      rcases Nat.lt_succ_iff_lt_or_eq.1 hk with hlt | rfl
      · rw [nthBase?, ih hlt, Option.bind_none]
      · exact h

theorem fresh_of_base?_eq_none (hbase : r.base? = none) : Fresh seen r := by
  intro j b hb
  rw [nthBase?_succ_of_base?_eq_none hbase] at hb
  cases hb

theorem fresh_succ (hbase : r.base? = some b) :
    Fresh seen r ↔ seen.any b.isSame = false ∧ Fresh (b :: seen) b := by
  have hchain := nthBase?_succ_of_base? hbase
  constructor
  · intro h
    refine ⟨(h 0 b (hchain 0)).1, fun j c hc => ?_⟩
    obtain ⟨hseen, hearlier⟩ := h (j + 1) c ((hchain _).trans hc)
    have hb : c.isSame b = false := hearlier 0 b (Nat.succ_pos j) (hchain 0)
    refine ⟨by rw [List.any_cons, hb, hseen, Bool.or_false], fun i a hij ha => ?_⟩
    exact hearlier (i + 1) a (by omega) ((hchain _).trans ha)
  · intro h j c hc
    rw [hchain] at hc
    cases j with
    | zero =>
        obtain rfl := Option.some.inj hc
        exact ⟨h.1, fun i a hi => absurd hi (Nat.not_lt_zero i)⟩
    | succ j =>
        obtain ⟨hseen, hearlier⟩ := h.2 j c hc
        rw [List.any_cons, Bool.or_eq_false_iff] at hseen
        refine ⟨hseen.2, fun i a hij ha => ?_⟩
        rw [hchain] at ha
        cases i with
        | zero =>
            obtain rfl := Option.some.inj ha
            exact hseen.1
        | succ i => exact hearlier i a (by omega) ha

theorem fresh_self : Fresh [r] r ↔ ¬ r.Revisits := by
  constructor
  · rintro h ⟨i, j, a, b, hij, ha, hb, hsame⟩
    obtain ⟨j, rfl⟩ := Nat.exists_eq_succ_of_ne_zero (by omega : j ≠ 0)
    obtain ⟨hfirst, hearlier⟩ := h j b hb
    rw [isSame_comm] at hsame
    cases i with
    | zero =>
        obtain rfl := Option.some.inj ha
        simp [hsame] at hfirst
    | succ i => exact absurd (hearlier i a (by omega) ha) (by simp [hsame])
  · intro h j b hb
    have hnot : ∀ i a, i < j + 1 → r.nthBase? i = some a → b.isSame a = false := by
      intro i a hij ha
      apply Bool.eq_false_iff.2
      intro hsame
      exact h ⟨i, j + 1, a, b, hij, ha, hb, (isSame_comm a b).trans hsame⟩
    refine ⟨?_, fun i a hij ha => hnot (i + 1) a (by omega) ha⟩
    simp [hnot 0 r (Nat.succ_pos j) rfl]

/-- In an orderly document a chain comes to nothing twice. -/
theorem not_revisits (h : r.document.Orderly) : ¬ r.Revisits := by
  rintro ⟨i, j, a, b, hij, ha, hb, hsame⟩
  exact absurd (eq_of_isSame h ha hb hsame) (by omega)

/-- The check of a chain passes if its bases are fresh and no more than the limit. -/
theorem runsOn_eq_false_iff_fresh :
    runsOn fuel seen r.base? = false ↔ Fresh seen r ∧ r.EndsWithin fuel := by
  induction fuel generalizing r seen with
  | zero =>
      cases hbase : r.base? with
      | none =>
          have hend : r.EndsWithin 0 := nthBase?_succ_of_base?_eq_none hbase 0
          simp [runsOn, hend, fresh_of_base?_eq_none hbase]
      | some b =>
          have hend : ¬ r.EndsWithin 0 := by
            simp [EndsWithin, nthBase?, hbase]
          simp [runsOn, hend]
  | succ fuel ih =>
      cases hbase : r.base? with
      | none =>
          have hend : r.EndsWithin (fuel + 1) := nthBase?_succ_of_base?_eq_none hbase _
          simp [runsOn, hend, fresh_of_base?_eq_none hbase]
      | some b =>
          rw [runsOn, Bool.or_eq_false_iff, ih, fresh_succ hbase, endsWithin_succ hbase, and_assoc]

theorem runsOn_self_eq_false_iff :
    runsOn fuel [r] r.base? = false ↔ ¬ r.Revisits ∧ r.EndsWithin fuel := by
  rw [runsOn_eq_false_iff_fresh, fresh_self]

theorem basesUpTo_of_base?_eq_none (hbase : r.base? = none) : basesUpTo fuel seen r = [] := by
  cases fuel with
  | zero => rfl
  | succ fuel => simp only [basesUpTo, hbase]

theorem basesUpTo_getElem? {k : Nat} (hk : k < (basesUpTo fuel seen r).length) :
    (basesUpTo fuel seen r)[k]? = r.nthBase? (k + 1) := by
  induction fuel generalizing r seen k with
  | zero => exact absurd hk (Nat.not_lt_zero k)
  | succ fuel ih =>
      cases hbase : r.base? with
      | none => simp [basesUpTo_of_base?_eq_none hbase] at hk
      | some b =>
          rw [nthBase?_succ_of_base? hbase]
          simp only [basesUpTo, hbase] at hk ⊢
          split at hk
          · exact absurd hk (Nat.not_lt_zero k)
          · next hnew =>
            rw [if_neg hnew]
            cases k with
            | zero => rfl
            | succ k => exact ih (Nat.lt_of_succ_lt_succ hk)

theorem Fresh.basesUpTo_getElem? (h : Fresh seen r) (k : Nat) :
    (basesUpTo fuel seen r)[k]? = if k < fuel then r.nthBase? (k + 1) else none := by
  induction fuel generalizing r seen k with
  | zero => rfl
  | succ fuel ih =>
      cases hbase : r.base? with
      | none => simp [basesUpTo_of_base?_eq_none, nthBase?_succ_of_base?_eq_none, hbase]
      | some b =>
          obtain ⟨hnew, hfresh⟩ := (fresh_succ hbase).1 h
          simp only [basesUpTo, hbase, hnew, nthBase?_succ_of_base? hbase]
          cases k with
          | zero => rfl
          | succ k =>
              simp only [Nat.succ_lt_succ_iff]
              exact ih hfresh k

theorem exists_of_comesTo (h : comesTo self fuel (some b) = true) :
    (∃ k s, b.nthBase? k = some s ∧ s.isSame self = true) ∨ ∃ s, b.nthBase? fuel = some s := by
  induction fuel generalizing b with
  | zero => exact Or.inr ⟨b, rfl⟩
  | succ fuel ih =>
      rw [comesTo, Bool.or_eq_true] at h
      rcases h with hsame | hrest
      · exact Or.inl ⟨0, b, rfl, hsame⟩
      · cases hbase : b.base? with
        | none =>
            rw [hbase] at hrest
            cases fuel <;> cases hrest
        | some c =>
            rw [hbase] at hrest
            have hchain := nthBase?_succ_of_base? hbase
            rcases ih hrest with ⟨k, s, hs, hsame⟩ | ⟨s, hs⟩
            · exact Or.inl ⟨k + 1, s, (hchain k).trans hs, hsame⟩
            · exact Or.inr ⟨s, (hchain fuel).trans hs⟩

theorem nthBase?_of_comesTo (h : comesTo self fuel (some b) = false) :
    b.nthBase? fuel = none ∧ ∀ k r, b.nthBase? k = some r → r.isSame self = false := by
  induction fuel generalizing b with
  | zero => cases h
  | succ fuel ih =>
      simp only [comesTo, Bool.or_eq_false_iff] at h
      cases hbase : b.base? with
      | none =>
          refine ⟨by rw [nthBase?_succ, hbase]; rfl, fun k r hr => ?_⟩
          cases k with
          | zero =>
              obtain rfl := Option.some.inj hr
              exact h.1
          | succ k =>
              rw [nthBase?_succ, hbase] at hr
              cases hr
      | some c =>
          rw [hbase] at h
          obtain ⟨hnone, hall⟩ := ih h.2
          refine ⟨by rw [nthBase?_succ, hbase]; exact hnone, fun k r hr => ?_⟩
          cases k with
          | zero =>
              obtain rfl := Option.some.inj hr
              exact h.1
          | succ k =>
              rw [nthBase?_succ, hbase] at hr
              exact hall k r hr

end OwnedElement

namespace Document

variable {d d' : Document} {id : ElementId} {e : Element} {b r r' s s' : OwnedElement}
  {reference : Reference}

/-- The check of all chains passes if those of the attached elements come to nothing twice and have
no more bases than the limit. -/
theorem runawayReference?_eq_none_iff (hwf : d.tree.WellFormed) :
    d.runawayReference? = none ↔ ∀ x, d.tree.isAttached x = true →
      ¬ (⟨d, x⟩ : OwnedElement).Revisits ∧ (⟨d, x⟩ : OwnedElement).EndsWithin d.depthLimit := by
  have hchain : ∀ x, OwnedElement.runsOn d.depthLimit [⟨d, x⟩] (d.base? x) = false ↔
      ¬ (⟨d, x⟩ : OwnedElement).Revisits ∧ (⟨d, x⟩ : OwnedElement).EndsWithin d.depthLimit :=
    fun x => OwnedElement.runsOn_self_eq_false_iff (r := ⟨d, x⟩)
  constructor
  · intro hnone x hx
    exact (hchain x).1 (runsOn_of_runawayReference? hnone (hwf.forest.mem_attached.2 hx))
  · intro hall
    refine List.findSome?_eq_none_iff.2 fun x hx => ?_
    have hpass := (hchain x).2 (hall x (hwf.forest.mem_attached.1 hx))
    simp only [Option.bind_eq_none_iff, Option.filter_eq_none_iff, hpass]
    simp

/-- The chain of an element is listed as it begins. -/
theorem chain_getElem? {k : Nat} (hk : k < (d.chain id).length) :
    (d.chain id)[k]? = (⟨d, id⟩ : OwnedElement).nthBase? k := by
  cases k with
  | zero => rfl
  | succ k => exact OwnedElement.basesUpTo_getElem? (Nat.lt_of_succ_lt_succ hk)

theorem chain_getElem?_of_not_revisits (h : ¬ (⟨d, id⟩ : OwnedElement).Revisits) (k : Nat) :
    (d.chain id)[k]? =
      if k ≤ d.depthLimit then (⟨d, id⟩ : OwnedElement).nthBase? k else none := by
  cases k with
  | zero => rfl
  | succ k => exact (OwnedElement.fresh_self.2 h).basesUpTo_getElem? k

theorem chain_getElem?_of_endsWithin (h : ¬ (⟨d, id⟩ : OwnedElement).Revisits)
    (hend : (⟨d, id⟩ : OwnedElement).EndsWithin d.depthLimit) (k : Nat) :
    (d.chain id)[k]? = (⟨d, id⟩ : OwnedElement).nthBase? k := by
  rw [chain_getElem?_of_not_revisits h]
  split
  · rfl
  · next hlimit => exact (hend.nthBase?_eq_none (by omega)).symm

end Document

end ReportModel
