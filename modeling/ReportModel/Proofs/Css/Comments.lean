import ReportModel.Css.Comment

/-!
# What comments take away

A text without the mark that opens a comment is left as it is, and any other text gets shorter.
Whether a comment is open at the end of a text decides what becomes of the text behind it, unless
the two make a mark where they meet. A comment stands for a blank, so no new mark comes about where
it was: what is left opens no comment, and nothing more is taken from it.
-/

namespace ReportModel.Css

variable {inside : Bool} {c x y : Char} {cs front body rest : List Char}

/-- Whether a comment is open at the end of a text; `inside` tells whether one is at its start. -/
def endsInside (inside : Bool) : List Char → Bool
  | [] => inside
  | [_] => inside
  | c :: d :: rest =>
    if inside then
      if c = '*' && d = '/' then endsInside false rest else endsInside true (d :: rest)
    else
      if c = '/' && d = '*' then endsInside true rest else endsInside false (d :: rest)

theorem stripFrom_cons (hstar : c ≠ '*') (hslash : c ≠ '/') (inside : Bool) (rest : List Char) :
    stripFrom inside (c :: rest) = (if inside then [] else [c]) ++ stripFrom inside rest := by
  cases rest with
  | nil => cases inside <;> rfl
  | cons d rest => cases inside <;> simp [stripFrom, hstar, hslash]

/-- A text is stripped up to a character that is part of no mark, and then on from there. -/
theorem stripFrom_append (hstar : c ≠ '*') (hslash : c ≠ '/') (inside : Bool)
    (cs rest : List Char) : stripFrom inside (cs ++ c :: rest) =
      stripFrom inside cs ++ stripFrom (endsInside inside cs) (c :: rest) := by
  fun_induction endsInside inside cs with
  | case1 inside => cases inside <;> rfl
  | case2 inside d => cases inside <;> simp [stripFrom, hstar, hslash]
  | case3 d e cs hends ih => simp [stripFrom, hends, ih]
  | case4 d e cs hends ih => simpa [stripFrom, hends] using ih
  | case5 inside d e cs hinside hopens ih => simp [stripFrom, hinside, hopens, ih]
  | case6 inside d e cs hinside hopens ih => simpa [stripFrom, hinside, hopens] using ih

theorem mem_stripFrom (h : x ∈ stripFrom inside cs) : x ∈ cs ∨ x = ' ' := by
  fun_induction stripFrom inside cs with
  | case1 => exact Or.inl h
  | case2 => cases h
  | case3 => exact Or.inl h
  | case4 c d rest hends ih =>
      exact (ih h).imp_left fun hx => List.mem_cons_of_mem _ (List.mem_cons_of_mem _ hx)
  | case5 c d rest hends ih => exact (ih h).imp_left (List.mem_cons_of_mem _)
  | case6 inside c d rest hinside hopens ih =>
      rcases List.mem_cons.1 h with rfl | h
      · exact Or.inr rfl
      · exact (ih h).imp_left fun hx => List.mem_cons_of_mem _ (List.mem_cons_of_mem _ hx)
  | case7 inside c d rest hinside hopens ih =>
      rcases List.mem_cons.1 h with rfl | h
      · exact Or.inl List.mem_cons_self
      · exact (ih h).imp_left (List.mem_cons_of_mem _)

theorem length_stripFrom_le (inside : Bool) (cs : List Char) :
    (stripFrom inside cs).length ≤ cs.length := by
  fun_induction stripFrom inside cs with
  | case1 | case2 | case3 => simp
  | case4 c d rest hends ih => exact Nat.le_succ_of_le (Nat.le_succ_of_le ih)
  | case5 c d rest hends ih => exact Nat.le_succ_of_le ih
  | case6 inside c d rest hinside hopens ih => exact Nat.succ_le_succ (Nat.le_succ_of_le ih)
  | case7 inside c d rest hinside hopens ih => exact Nat.succ_le_succ ih

private theorem opens_or_later {d : Char} (h : ['/', '*'] <:+: c :: d :: rest) :
    (c = '/' ∧ d = '*') ∨ ['/', '*'] <:+: d :: rest := by
  refine (List.infix_cons_iff.1 h).imp_left fun hprefix => ?_
  obtain ⟨hc, hmore⟩ := List.cons_prefix_cons.1 hprefix
  exact ⟨hc.symm, (List.cons_prefix_cons.1 hmore).1.symm⟩

theorem length_stripComments_lt (h : ['/', '*'] <:+: cs) :
    (stripComments cs).length < cs.length := by
  unfold stripComments
  induction cs with
  | nil => cases List.infix_nil.1 h
  | cons c cs ih =>
      cases cs with
      | nil => exact absurd h.length_le (by simp)
      | cons d cs =>
          rw [stripFrom, if_neg Bool.false_ne_true]
          split
          · exact Nat.succ_lt_succ (Nat.lt_succ_of_le (length_stripFrom_le true cs))
          · next hopens =>
            refine Nat.succ_lt_succ (ih ((opens_or_later h).resolve_left fun hmark => hopens ?_))
            simpa using hmark

theorem stripComments_of_unopened (h : ¬ ['/', '*'] <:+: cs) :
    stripComments cs = cs ∧ endsInside false cs = false := by
  unfold stripComments
  induction cs with
  | nil => exact ⟨rfl, rfl⟩
  | cons c cs ih =>
      have hmore := ih fun hmark => h (List.infix_cons hmark)
      cases cs with
      | nil => exact ⟨rfl, rfl⟩
      | cons d cs =>
          have hopens : ¬ (c = '/' && d = '*') = true := by
            simp only [Bool.and_eq_true, decide_eq_true_eq]
            rintro ⟨rfl, rfl⟩
            exact h ⟨[], cs, rfl⟩
          simp only [stripFrom, endsInside, if_neg Bool.false_ne_true, if_neg hopens, hmore,
            and_self]

theorem stripComments_eq_self_iff : stripComments cs = cs ↔ ¬ ['/', '*'] <:+: cs := by
  refine ⟨fun heq hmark => ?_, fun h => (stripComments_of_unopened h).1⟩
  have hlt := length_stripComments_lt hmark
  rw [heq] at hlt
  exact Nat.lt_irrefl _ hlt

theorem stripComments_eq_self (h : '/' ∉ cs) : stripComments cs = cs :=
  stripComments_eq_self_iff.2 fun hmark => h (hmark.subset List.mem_cons_self)

/-! ## A comment is a blank -/

/-- Where a text meets one that does not go on with it, no mark comes about. -/
theorem not_prefix_append (hfront : ¬ [x, y] <:+: c :: front) (hrest : y ∉ rest.head?) :
    ¬ [x, y] <+: c :: (front ++ rest) := by
  intro hmark
  cases front with
  | nil =>
      obtain ⟨-, more, rfl⟩ := List.cons_prefix_cons.1 hmark
      exact hrest rfl
  | cons d front =>
      obtain ⟨rfl, hmore⟩ := List.cons_prefix_cons.1 hmark
      obtain ⟨rfl, -⟩ := List.cons_prefix_cons.1 hmore
      exact hfront ⟨[], front, rfl⟩

theorem stripComments_cons (h : ¬ ['/', '*'] <+: c :: cs) :
    stripComments (c :: cs) = c :: stripComments cs := by
  cases cs with
  | nil => rfl
  | cons d cs =>
      have hopens : ¬ (c = '/' && d = '*') = true := by
        simp only [Bool.and_eq_true, decide_eq_true_eq]
        rintro ⟨rfl, rfl⟩
        exact h ⟨cs, rfl⟩
      simp only [stripComments, stripFrom, if_neg Bool.false_ne_true, if_neg hopens]

theorem stripFrom_true_cons (h : ¬ ['*', '/'] <+: c :: cs) :
    stripFrom true (c :: cs) = stripFrom true cs := by
  cases cs with
  | nil => rfl
  | cons d cs =>
      have hcloses : ¬ (c = '*' && d = '/') = true := by
        simp only [Bool.and_eq_true, decide_eq_true_eq]
        rintro ⟨rfl, rfl⟩
        exact h ⟨cs, rfl⟩
      simp only [stripFrom, if_true, if_neg hcloses]

theorem stripComments_append (hfront : ¬ ['/', '*'] <:+: front) (hrest : '*' ∉ rest.head?) :
    stripComments (front ++ rest) = front ++ stripComments rest := by
  induction front with
  | nil => rfl
  | cons c front ih =>
      rw [List.cons_append, stripComments_cons (not_prefix_append hfront hrest),
        ih fun hmark => hfront (List.infix_cons hmark)]
      rfl

theorem stripFrom_true_append (hbody : ¬ ['*', '/'] <:+: body) (hrest : '/' ∉ rest.head?) :
    stripFrom true (body ++ rest) = stripFrom true rest := by
  induction body with
  | nil => rfl
  | cons c body ih =>
      rw [List.cons_append, stripFrom_true_cons (not_prefix_append hbody hrest),
        ih fun hmark => hbody (List.infix_cons hmark)]

theorem stripComments_closed (hfront : ¬ ['/', '*'] <:+: front) (hbody : ¬ ['*', '/'] <:+: body)
    (rest : List Char) : stripComments (front ++ ['/', '*'] ++ body ++ ['*', '/'] ++ rest) =
      front ++ ' ' :: stripComments rest := by
  have hpassed : stripFrom true (body ++ '*' :: '/' :: rest) =
      stripFrom true ('*' :: '/' :: rest) := stripFrom_true_append hbody (by simp)
  have hcomment : stripComments ('/' :: '*' :: (body ++ '*' :: '/' :: rest)) =
      ' ' :: stripComments rest := congrArg (' ' :: ·) hpassed
  have hkept : stripComments (front ++ '/' :: '*' :: (body ++ '*' :: '/' :: rest)) =
      front ++ stripComments ('/' :: '*' :: (body ++ '*' :: '/' :: rest)) :=
    stripComments_append hfront (by simp)
  rw [hcomment] at hkept
  simpa using hkept

theorem stripComments_unclosed (hfront : ¬ ['/', '*'] <:+: front)
    (hbody : ¬ ['*', '/'] <:+: body) :
    stripComments (front ++ ['/', '*'] ++ body) = front ++ [' '] := by
  have hpassed : stripFrom true (body ++ []) = stripFrom true [] :=
    stripFrom_true_append hbody (by simp)
  rw [List.append_nil] at hpassed
  have hcomment : stripComments ('/' :: '*' :: body) = [' '] := congrArg (' ' :: ·) hpassed
  have hkept : stripComments (front ++ '/' :: '*' :: body) =
      front ++ stripComments ('/' :: '*' :: body) := stripComments_append hfront (by simp)
  rw [hcomment] at hkept
  simpa using hkept

theorem stripComments_blank (hfront : ¬ ['/', '*'] <:+: front) (rest : List Char) :
    stripComments (front ++ [' '] ++ rest) = front ++ ' ' :: stripComments rest := by
  have hblank : stripComments (' ' :: rest) = ' ' :: stripComments rest :=
    stripFrom_cons (by decide) (by decide) false rest
  have hkept : stripComments (front ++ ' ' :: rest) = front ++ stripComments (' ' :: rest) :=
    stripComments_append hfront (by simp)
  rw [hblank] at hkept
  simpa using hkept

theorem head?_stripComments (h : '*' ∈ (stripComments cs).head?) : '*' ∈ cs.head? := by
  cases cs with
  | nil => exact h
  | cons c cs =>
      by_cases hopens : ['/', '*'] <+: c :: cs
      · obtain ⟨more, hmore⟩ := hopens
        rw [← hmore] at h
        simp [stripComments, stripFrom] at h
      · rw [stripComments_cons hopens] at h
        exact h

theorem unopened_stripFrom (inside : Bool) (cs : List Char) :
    ¬ ['/', '*'] <:+: stripFrom inside cs := by
  fun_induction stripFrom inside cs with
  | case1 | case2 => simp
  | case3 => exact fun hmark => absurd hmark.length_le (by simp)
  | case4 _ _ _ _ ih | case5 _ _ _ _ ih => exact ih
  | case6 inside c d rest hinside hopens ih =>
      rw [List.infix_cons_iff]
      rintro (hmark | hmark)
      · cases (List.cons_prefix_cons.1 hmark).1
      · exact ih hmark
  | case7 inside c d rest hinside hopens ih =>
      rw [List.infix_cons_iff]
      rintro (hmark | hmark)
      · -- the star behind the slash would be the next character of the text
        obtain ⟨rfl, more, hmore⟩ := List.cons_prefix_cons.1 hmark
        have hstar : '*' ∈ (d :: rest).head? :=
          head?_stripComments (by simp [stripComments, ← hmore])
        obtain rfl : d = '*' := by simpa using hstar
        exact hopens rfl
      · exact ih hmark

/-- A comment is read as a blank, and one that is not closed takes the rest of the text. What is
left opens no comment, so it is left as it is. -/
theorem stripComments_exact :
    (∀ front body rest, ¬ ['/', '*'] <:+: front → ¬ ['*', '/'] <:+: body →
      stripComments (front ++ ['/', '*'] ++ body ++ ['*', '/'] ++ rest) =
        stripComments (front ++ [' '] ++ rest)) ∧
    (∀ front body, ¬ ['/', '*'] <:+: front → ¬ ['*', '/'] <:+: body →
      stripComments (front ++ ['/', '*'] ++ body) = front ++ [' ']) ∧
    (∀ cs, stripComments cs = cs ↔ ¬ ['/', '*'] <:+: cs) ∧
    (∀ cs, ¬ ['/', '*'] <:+: stripComments cs) ∧
    ∀ cs, stripComments (stripComments cs) = stripComments cs := by
  refine ⟨fun front body rest hfront hbody => ?_, fun front body => stripComments_unclosed,
    fun cs => stripComments_eq_self_iff, unopened_stripFrom false, fun cs => ?_⟩
  · rw [stripComments_closed hfront hbody, stripComments_blank hfront]
  · exact stripComments_eq_self_iff.2 (unopened_stripFrom false cs)

/-- Slashes and stars beside the marks do not count, and the slash in front of a comment opens none
with the star behind it. -/
theorem stripComments_exact_crowded :
    (¬ ['/', '*'] <:+: ['a', '/'] ∧ ¬ ['*', '/'] <:+: ['/', '*']) ∧
    stripComments (['a', '/'] ++ ['/', '*'] ++ ['/', '*'] ++ ['*', '/'] ++ ['*', 'b', '/', '*']) =
      stripComments (['a', '/'] ++ [' '] ++ ['*', 'b', '/', '*']) ∧
    stripComments (['a', '/', ' ', '*', 'b'] ++ ['/', '*'] ++ []) =
      ['a', '/', ' ', '*', 'b'] ++ [' '] := by
  obtain ⟨hclosed, hunclosed, -⟩ := stripComments_exact
  refine ⟨by decide, hclosed _ _ _ (by decide) (by decide), hunclosed _ _ (by decide) (by decide)⟩

end ReportModel.Css
