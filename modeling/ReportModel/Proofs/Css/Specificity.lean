import ReportModel.Css.Specificity
import ReportModel.Proofs.Except

/-!
# Ranks

Ranks are compared by their parts, so the comparison is a linear order, and the greater of two ranks
is their least upper bound. A selector has a rank if and only if its conditions can be counted in
words of 16 bits, and then each counter is the number of conditions of its sort.
-/

namespace ReportModel.Css

namespace Specificity

/-! ## The order of ranks -/

variable {a b c : Specificity}

theorem compareKeys_eq (ms ns : List Nat) :
    compareKeys ms ns = List.compareLex Ord.compare ms ns := by
  induction ms generalizing ns with
  | nil => cases ns <;> rfl
  | cons m ms ih =>
      cases ns with
      | nil => rfl
      | cons n ns =>
          rw [compareKeys, List.compareLex_cons_cons, Nat.compare_eq_ite_lt, ih]
          split
          · rfl
          · split <;> rfl

theorem compare_eq (a b : Specificity) :
    a.compare b = List.compareLex Ord.compare a.key b.key :=
  compareKeys_eq a.key b.key

theorem key_injective (h : a.key = b.key) : a = b := by
  obtain ⟨important, ids, classes, types, order⟩ := a
  obtain ⟨important', ids', classes', types', order'⟩ := b
  simp only [key, List.cons.injEq, UInt16.toNat_inj, UInt32.toNat_inj, and_true] at h
  obtain ⟨himportant, rfl, rfl, rfl, rfl⟩ := h
  obtain rfl : important = important' := by
    cases important <;> cases important' <;> first | rfl | cases himportant
  rfl

instance : Std.TransCmp compare where
  eq_swap {a b} := by
    rw [compare_eq a b, compare_eq b a]
    exact Std.OrientedCmp.eq_swap
  isLE_trans {a b c} hab hbc := by
    rw [compare_eq] at hab hbc ⊢
    exact Std.TransCmp.isLE_trans hab hbc

instance : Std.LawfulEqCmp compare where
  compare_self {a} := (compare_eq a a).trans Std.ReflCmp.compare_self
  eq_of_compare {a b} h :=
    key_injective (Std.LawfulEqCmp.eq_of_compare ((compare_eq a b).symm.trans h))

theorem max_eq_or (a b : Specificity) : a.max b = a ∨ a.max b = b := by
  rw [max]
  split
  · exact Or.inl rfl
  · exact Or.inr rfl

/-- The greater of two ranks is their least upper bound. -/
theorem isLE_max_iff : ((a.max b).compare c).isLE ↔ (a.compare c).isLE ∧ (b.compare c).isLE := by
  rw [max]
  split
  · next hgt =>
    have hba : (b.compare a).isLE :=
      Ordering.isLE_of_eq_lt (Std.OrientedCmp.gt_iff_lt.1 hgt)
    exact ⟨fun h => ⟨h, Std.TransCmp.isLE_trans hba h⟩, And.left⟩
  · next hle =>
    have hab : (a.compare b).isLE := Ordering.isLE_iff_ne_gt.2 hle
    exact ⟨fun h => ⟨Std.TransCmp.isLE_trans hab h, h⟩, And.right⟩

def least : Specificity :=
  ⟨false, 0, 0, 0, 0⟩

private theorem compareKeys_zeros_isLE (ns : List Nat) :
    (compareKeys (List.replicate ns.length 0) ns).isLE := by
  induction ns with
  | nil => rfl
  | cons n ns ih =>
      rw [List.length_cons, List.replicate_succ, compareKeys]
      split
      · rfl
      · rw [if_neg (Nat.not_lt_zero n)]
        exact ih

theorem least_isLE (a : Specificity) : (least.compare a).isLE :=
  compareKeys_zeros_isLE a.key

theorem least_max (a : Specificity) : least.max a = a := by
  rw [max, if_neg (Ordering.isLE_iff_ne_gt.1 (least_isLE a))]

end Specificity

/-! ## Counting conditions -/

inductive Counter where
  | ids
  | classes
  | types
deriving DecidableEq

/-- The counter that a condition belongs to; `*` belongs to none. -/
def Component.counter? : Component → Option Counter
  | .ofId _ => some .ids
  | .ofClass _ | .ofPseudo _ => some .classes
  | .ofType _ => some .types
  | .universal => none

theorem Component.exists_counter {c : Component} (hc : c ≠ .universal) :
    ∃ counter, c.counter? = some counter := by
  cases c with
  | universal => exact absurd rfl hc
  | _ => exact ⟨_, rfl⟩

namespace Selector

/-- How many conditions of a selector belong to a counter. -/
def number (s : Selector) (counter : Counter) : Nat :=
  s.components.countP (·.counter? = some counter)

/-- No counter runs over when the conditions of the selector are counted. -/
def Fits (s : Selector) : Prop :=
  ∀ counter, s.number counter < 65536

instance (s : Selector) : Decidable s.Fits :=
  decidable_of_iff (s.number .ids < 65536 ∧ s.number .classes < 65536 ∧ s.number .types < 65536)
    ⟨fun ⟨hids, hclasses, htypes⟩ => (fun | .ids => hids | .classes => hclasses | .types => htypes),
      fun h => ⟨h .ids, h .classes, h .types⟩⟩

end Selector

namespace Specificity

variable {rank mid next : Specificity} {counter : Counter} {c : Component} {m n : Counter → Nat}
  {s : Selector} {order : UInt32} {important : Bool}

def counted (rank : Specificity) : Counter → UInt16
  | .ids => rank.ids
  | .classes => rank.classes
  | .types => rank.types

theorem ext_counted {a b : Specificity} (himportant : a.important = b.important)
    (horder : a.order = b.order)
    (hcounted : ∀ counter, (a.counted counter).toNat = (b.counted counter).toNat) : a = b := by
  refine key_injective ?_
  have hids : a.ids.toNat = b.ids.toNat := hcounted .ids
  have hclasses : a.classes.toNat = b.classes.toNat := hcounted .classes
  have htypes : a.types.toNat = b.types.toNat := hcounted .types
  rw [key, key, himportant, horder, hids, hclasses, htypes]

/-- A rank becomes another one in which so many more conditions are counted. Whatever is counted
fits into the counters, so this says as well that there is room. -/
structure Adds (rank : Specificity) (n : Counter → Nat) (next : Specificity) : Prop where
  important : next.important = rank.important
  order : next.order = rank.order
  counted : ∀ counter, (next.counted counter).toNat = (rank.counted counter).toNat + n counter

theorem Adds.unique {other : Specificity} (h : Adds rank n next) (h' : Adds rank n other) :
    next = other :=
  ext_counted (h.important.trans h'.important.symm) (h.order.trans h'.order.symm)
    fun counter => (h.counted counter).trans (h'.counted counter).symm

theorem Adds.trans (h : Adds rank n mid) (h' : Adds mid m next) :
    Adds rank (fun counter => n counter + m counter) next where
  important := h'.important.trans h.important
  order := h'.order.trans h.order
  counted counter := by rw [h'.counted, h.counted, Nat.add_assoc]

theorem exists_adds (h : ∀ counter, (rank.counted counter).toNat + n counter < 65536) :
    ∃ next, Adds rank n next := by
  let filled (counter : Counter) : UInt16 := .ofNat ((rank.counted counter).toNat + n counter)
  refine ⟨⟨rank.important, filled .ids, filled .classes, filled .types, rank.order⟩, rfl, rfl, ?_⟩
  rintro (_ | _ | _) <;> exact UInt16.toNat_ofNat_of_lt' (h _)

theorem Adds.exists_mid (h : Adds rank (fun counter => n counter + m counter) next) :
    ∃ mid, Adds rank n mid ∧ Adds mid m next := by
  have hroom (counter : Counter) : (rank.counted counter).toNat + n counter < 65536 := by
    have := h.counted counter
    have := (next.counted counter).toNat_lt
    omega
  obtain ⟨mid, hmid⟩ := exists_adds hroom
  refine ⟨mid, hmid, h.important.trans hmid.important.symm, h.order.trans hmid.order.symm,
    fun counter => ?_⟩
  rw [h.counted, hmid.counted, Nat.add_assoc]

theorem increment_eq_ok {word word' : UInt16} :
    increment word = .ok word' ↔ word'.toNat = word.toNat + 1 := by
  have hlt : word'.toNat < 65536 := word'.toNat_lt
  rw [increment]
  split
  · next hfull =>
    have hword : word.toNat = 65535 := congrArg UInt16.toNat hfull
    exact iff_of_false nofun (by omega)
  · next hroom =>
    have hne : word.toNat ≠ 65535 := fun h => hroom (UInt16.toNat_inj.1 h)
    have hword : word.toNat < 65536 := word.toNat_lt
    have hsucc : (word + 1).toNat = word.toNat + 1 := by
      rw [UInt16.toNat_add, UInt16.toNat_one]
      exact Nat.mod_eq_of_lt (by omega)
    rw [Except.ok.injEq, ← UInt16.toNat_inj, hsucc, eq_comm]

def withCounted (rank : Specificity) : Counter → UInt16 → Specificity
  | .ids, word => { rank with ids := word }
  | .classes, word => { rank with classes := word }
  | .types, word => { rank with types := word }

theorem counted_withCounted (rank : Specificity) (counter other : Counter) (word : UInt16) :
    (rank.withCounted counter word).counted other =
      if counter = other then word else rank.counted other := by
  cases counter <;> cases other <;> rfl

theorem count_of_counter (h : c.counter? = some counter) : rank.count c =
    increment (rank.counted counter) >>= fun word => .ok (rank.withCounted counter word) := by
  cases c <;> cases h <;> rfl

theorem adds_withCounted_iff {word : UInt16} :
    Adds rank (fun other => if counter = other then 1 else 0) (rank.withCounted counter word) ↔
      word.toNat = (rank.counted counter).toNat + 1 := by
  constructor
  · intro h
    have hcounted := h.counted counter
    rwa [counted_withCounted, if_pos rfl, if_pos rfl] at hcounted
  · intro h
    refine ⟨by cases counter <;> rfl, by cases counter <;> rfl, fun other => ?_⟩
    rw [counted_withCounted]
    split
    · next heq => rw [← heq, h]
    · rfl

theorem count_eq_ok : rank.count c = .ok next ↔
    Adds rank (fun counter => if c.counter? = some counter then 1 else 0) next := by
  cases hcounter : c.counter? with
  | none =>
      obtain rfl : c = .universal := Decidable.byContradiction fun hc =>
        have ⟨_, h⟩ := c.exists_counter hc
        nomatch hcounter.symm.trans h
      have hself : Adds rank (fun _ => 0) rank := ⟨rfl, rfl, fun _ => rfl⟩
      simp only [reduceCtorEq, if_false]
      exact ⟨fun h => Except.ok.inj h ▸ hself, fun h => congrArg Except.ok (hself.unique h)⟩
  | some counter =>
      simp only [Option.some.injEq]
      rw [count_of_counter hcounter, bind_eq_ok]
      constructor
      · rintro ⟨word, hword, ⟨⟩⟩
        exact adds_withCounted_iff.2 (increment_eq_ok.1 hword)
      · intro h
        have hword : (next.counted counter).toNat = (rank.counted counter).toNat + 1 := by
          rw [h.counted, if_pos rfl]
        exact ⟨next.counted counter, increment_eq_ok.2 hword,
          congrArg Except.ok ((adds_withCounted_iff.2 hword).unique h)⟩

theorem foldlM_count_eq_ok {cs : List Component} : cs.foldlM count rank = .ok next ↔
    Adds rank (fun counter => cs.countP (·.counter? = some counter)) next := by
  induction cs generalizing rank with
  | nil =>
      have hself : Adds rank (fun _ => 0) rank := ⟨rfl, rfl, fun _ => rfl⟩
      exact ⟨fun h => Except.ok.inj h ▸ hself, fun h => congrArg Except.ok (hself.unique h)⟩
  | cons c cs ih =>
      have hsum (counter : Counter) : (c :: cs).countP (·.counter? = some counter) =
          (if c.counter? = some counter then 1 else 0) +
            cs.countP (·.counter? = some counter) := by
        rw [List.countP_cons, Nat.add_comm]
        simp only [decide_eq_true_eq]
      simp only [hsum]
      rw [List.foldlM_cons, bind_eq_ok]
      constructor
      · rintro ⟨mid, hcount, hrest⟩
        exact (count_eq_ok.1 hcount).trans (ih.1 hrest)
      · intro h
        obtain ⟨mid, hmid, hrest⟩ := h.exists_mid
        exact ⟨mid, count_eq_ok.2 hmid, ih.2 hrest⟩

private theorem toNat_counted_zero (important : Bool) (order : UInt32) (counter : Counter) :
    ((⟨important, 0, 0, 0, order⟩ : Specificity).counted counter).toNat = 0 := by
  cases counter <;> rfl

/-- The rank of a selector has the importance and the place that are asked for, and in each counter
the number of the conditions that belong to it. -/
theorem ofSelector_eq_ok : ofSelector s order important = .ok rank ↔
    rank.important = important ∧ rank.order = order ∧
      ∀ counter, (rank.counted counter).toNat = s.number counter := by
  rw [ofSelector, foldlM_count_eq_ok]
  constructor
  · intro h
    refine ⟨h.important, h.order, fun counter => ?_⟩
    rw [h.counted, toNat_counted_zero, Nat.zero_add]
    rfl
  · rintro ⟨himportant, horder, hcounted⟩
    refine ⟨himportant, horder, fun counter => ?_⟩
    rw [hcounted, toNat_counted_zero, Nat.zero_add]
    rfl

theorem exists_ofSelector_iff :
    (∃ rank, ofSelector s order important = .ok rank) ↔ s.Fits := by
  constructor
  · rintro ⟨rank, h⟩ counter
    rw [← (ofSelector_eq_ok.1 h).2.2 counter]
    exact (rank.counted counter).toNat_lt
  · intro h
    obtain ⟨rank, hrank⟩ : ∃ rank, Adds ⟨important, 0, 0, 0, order⟩ s.number rank := by
      refine exists_adds fun counter => ?_
      rw [toNat_counted_zero, Nat.zero_add]
      exact h counter
    exact ⟨rank, foldlM_count_eq_ok.2 hrank⟩

theorem ofSelector_eq_error (h : ¬s.Fits) : ofSelector s order important = .error .counter := by
  cases hrank : ofSelector s order important with
  | ok rank => exact absurd (exists_ofSelector_iff.1 ⟨rank, hrank⟩) h
  | error overflow => rfl

end Specificity

end ReportModel.Css
