import ReportModel.Proofs.Css.Literals
import ReportModel.Proofs.Css.Quoting

/-!
# The spelling of lexemes

Which texts a sort of lexemes has, said apart from the pattern that finds them. Where a pattern
admits anything, it admits the longest text of its sort, and no text is of two sorts.
-/

namespace ReportModel.Css

variable {token other : Token} {cs ds es rest unit : List Char} {c quote : Char}

/-- The text of a sort that has no other. -/
def Token.word? : Token → Option (List Char)
  | .important => some ['!', 'i', 'm', 'p', 'o', 'r', 't', 'a', 'n', 't']
  | .braceOpen => some ['{']
  | .braceClose => some ['}']
  | .colon => some [':']
  | .semicolon => some [';']
  | .comma => some [',']
  | .dot => some ['.']
  | .hash => some ['#']
  | .star => some ['*']
  | .greaterThan => some ['>']
  | _ => none

/-- The texts of each sort. -/
inductive Spells : Token → List Char → Prop
  | word {token : Token} {cs : List Char} (h : token.word? = some cs) : Spells token cs
  | hexColor {cs : List Char} (h : isHex cs = true) : Spells .hexColor ('#' :: cs)
  | pseudoClass {cs : List Char} (h : isPseudoName cs = true) : Spells .pseudoClass (':' :: cs)
  | quoted {quote : Char} {token : Token} {cs : List Char} (h : IsQuote quote token)
    (hcs : quote ∉ cs) : Spells token (quote :: (cs ++ [quote]))
  | dimension {cs unit : List Char} (h : IsNumeral cs) (hunit : unit ∈ Pattern.units) :
    Spells .dimension (cs ++ unit)
  | number {cs : List Char} (h : IsNumeral cs) : Spells .number cs
  | ident {cs : List Char} (h : isIdent cs = true) : Spells .ident cs

namespace Pattern

theorem length_le_run {p : Char → Bool} (h : ∀ c ∈ cs, p c = true) (rest : List Char) :
    cs.length ≤ run p (cs ++ rest) := by
  rw [run, List.takeWhile_append_of_pos h, List.length_append]
  exact Nat.le_add_right _ _

theorem literal_append (word rest : List Char) : literal word (word ++ rest) = word.length := by
  rw [literal, if_pos (by simp)]

theorem take_literal {word : List Char} (h : literal word cs ≠ 0) :
    cs.take (literal word cs) = word := by
  unfold literal at h ⊢
  split at h
  · next hfront =>
    rw [if_pos hfront]
    exact (List.prefix_iff_eq_take.1 (List.isPrefixOf_iff_prefix.1 hfront)).symm
  · exact absurd rfl h

/-! ### Numbers -/

theorem run_le_unsigned (cs : List Char) : run Char.isDigit cs ≤ unsigned cs := by
  simp only [unsigned]
  split
  · next hzero => exact Nat.le_of_eq hzero
  · split
    · split <;> omega
    · exact Nat.le_refl _

theorem unsigned_point (hne : ds ≠ []) (hds : ∀ c ∈ ds, c.isDigit = true)
    (hrest : run Char.isDigit rest ≠ 0) :
    unsigned (ds ++ '.' :: rest) = ds.length + 1 + run Char.isDigit rest := by
  have hwhole : run Char.isDigit (ds ++ '.' :: rest) = ds.length :=
    run_append hds (by rintro c ⟨⟩; decide)
  have hpositive : ds.length ≠ 0 := fun hzero => hne (List.eq_nil_of_length_eq_zero hzero)
  simp only [unsigned, hwhole, if_neg hpositive, List.drop_left, if_neg hrest]

theorem number_of_isUnsigned (h : IsUnsigned cs) (rest : List Char) :
    number (cs ++ rest) = unsigned (cs ++ rest) := by
  obtain ⟨c, ds, rfl, hc⟩ := h.head
  rw [number]
  rintro _ ⟨⟩
  cases hc

end Pattern

theorem IsUnsigned.length_le (h : IsUnsigned cs) (rest : List Char) :
    cs.length ≤ Pattern.unsigned (cs ++ rest) := by
  cases h with
  | @mk ds fraction hne hds hfraction =>
      cases hfraction with
      | nil =>
          rw [List.append_nil]
          exact Nat.le_trans (Pattern.length_le_run hds rest) (Pattern.run_le_unsigned _)
      | @point ds' hne' hds' =>
          have hpositive := List.length_pos_iff.2 hne'
          have hfraction := Pattern.length_le_run hds' rest
          rw [List.append_assoc, List.cons_append, Pattern.unsigned_point hne hds (by omega),
            List.length_append, List.length_cons]
          omega

theorem IsUnsigned.unsigned_eq (h : IsUnsigned cs)
    (hrest : ∀ c ∈ rest.head?, (c.isDigit || c = '.') = false) :
    Pattern.unsigned (cs ++ rest) = cs.length := by
  have hdigit : ∀ c ∈ rest.head?, c.isDigit = false := fun c hc =>
    (Bool.or_eq_false_iff.1 (hrest c hc)).1
  cases h with
  | @mk ds fraction hne hds hfraction =>
      cases hfraction with
      | nil =>
          have hwhole := Pattern.run_append hds hdigit
          have hpositive : ds.length ≠ 0 := fun hzero => hne (List.eq_nil_of_length_eq_zero hzero)
          rw [List.append_nil, Pattern.unsigned]
          simp only [hwhole, if_neg hpositive, List.drop_left]
          split
          · next hpoint =>
            have := hrest '.' rfl
            cases this
          · rfl
      | @point ds' hne' hds' =>
          have hpositive := List.length_pos_iff.2 hne'
          have hfraction := Pattern.run_append hds' hdigit
          rw [List.append_assoc, List.cons_append, Pattern.unsigned_point hne hds (by omega),
            hfraction, List.length_append, List.length_cons]
          omega

theorem IsNumeral.length_le (h : IsNumeral cs) (rest : List Char) :
    cs.length ≤ Pattern.number (cs ++ rest) := by
  cases h with
  | plain h =>
      rw [Pattern.number_of_isUnsigned h]
      exact h.length_le rest
  | @minus cs h =>
      have hlength := h.length_le rest
      have hpositive := List.length_pos_iff.2 (IsNumeral.plain h).ne_nil
      simp only [List.cons_append, Pattern.number, List.length_cons]
      rw [if_neg (by omega)]
      omega

theorem IsNumeral.number_eq (h : IsNumeral cs)
    (hrest : ∀ c ∈ rest.head?, (c.isDigit || c = '.') = false) :
    Pattern.number (cs ++ rest) = cs.length := by
  cases h with
  | plain h => rw [Pattern.number_of_isUnsigned h, h.unsigned_eq hrest]
  | @minus cs h =>
      have hpositive := List.length_pos_iff.2 (IsNumeral.plain h).ne_nil
      simp only [List.cons_append, Pattern.number, List.length_cons, h.unsigned_eq hrest]
      rw [if_neg (by omega), Nat.add_comm]

/-! ### Dimensions -/

/-- Of two units at the front of one text neither is longer than the other. -/
private theorem units_prefix_unique : ∀ unit ∈ Pattern.units, ∀ unit' ∈ Pattern.units,
    unit <+: unit' → unit = unit' := by
  decide

private theorem units_end : ∀ unit ∈ Pattern.units,
    (unit.head?.all fun c => !(c.isDigit || c = '.')) = true := by
  decide

theorem Pattern.find?_units (hunit : unit ∈ units) (rest : List Char) :
    units.find? (·.isPrefixOf (unit ++ rest)) = some unit := by
  cases hfound : units.find? (·.isPrefixOf (unit ++ rest)) with
  | none =>
      have hmiss := List.find?_eq_none.1 hfound unit hunit
      exact absurd (by simp) hmiss
  | some found =>
      have hmem := List.mem_of_find?_eq_some hfound
      have hfront : found <+: unit ++ rest := by simpa using List.find?_some hfound
      rcases List.prefix_or_prefix_of_prefix hfront (List.prefix_append unit rest) with h | h
      · rw [units_prefix_unique found hmem unit hunit h]
      · rw [units_prefix_unique unit hunit found hmem h]

theorem Pattern.dimension_append (h : IsNumeral cs) (hunit : unit ∈ units) (rest : List Char) :
    dimension (cs ++ unit ++ rest) = cs.length + unit.length := by
  have hends : ∀ c ∈ (unit ++ rest).head?, (c.isDigit || c = '.') = false := by
    have hend := units_end unit hunit
    cases unit with
    | nil => exact absurd hunit (by decide)
    | cons d unit => simpa using hend
  have hnumber := h.number_eq hends
  have hpositive : cs.length ≠ 0 := fun hzero => h.ne_nil (List.eq_nil_of_length_eq_zero hzero)
  rw [List.append_assoc]
  simp only [dimension, hnumber, if_neg hpositive, List.drop_left, find?_units hunit]

/-! ## What patterns admit -/

namespace Token

theorem pattern_of_word (h : token.word? = some cs) : token.pattern = Pattern.literal cs := by
  cases token with
  | hexColor | dimension | pseudoClass | doubleQuoted | singleQuoted | number | ident => cases h
  | _ => rw [← Option.some.inj h]; rfl

theorem spells_take (h : token.pattern cs ≠ 0) : Spells token (cs.take (token.pattern cs)) := by
  have hword {word : List Char} (hword : token.word? = some word) :
      Spells token (cs.take (token.pattern cs)) := by
    rw [pattern_of_word hword] at h ⊢
    rw [Pattern.take_literal h]
    exact .word hword
  have hquoted {quote : Char} (hquote : IsQuote quote token) :
      Spells token (cs.take (token.pattern cs)) := by
    rw [hquote.pattern_eq] at h ⊢
    obtain ⟨body, hbody, htake⟩ := Pattern.quoted_sound h
    rw [htake]
    exact .quoted hquote hbody
  cases token with
  | hexColor =>
      obtain ⟨ds, htake, hhex⟩ := Pattern.hexColor_sound h
      exact htake ▸ .hexColor hhex
  | dimension =>
      obtain ⟨measure, unit, hmeasure, hunit, htake⟩ := Pattern.dimension_sound h
      exact htake ▸ .dimension hmeasure hunit
  | pseudoClass =>
      obtain ⟨ds, htake, hname⟩ := Pattern.pseudoClass_sound h
      exact htake ▸ .pseudoClass hname
  | doubleQuoted => exact hquoted .double
  | singleQuoted => exact hquoted .single
  | number => exact .number (Pattern.number_sound h)
  | ident => exact .ident (Pattern.ident_sound h)
  | _ => exact hword rfl

end Token

theorem Spells.length_le_pattern (h : Spells token cs) (rest : List Char) :
    cs.length ≤ token.pattern (cs ++ rest) := by
  cases h with
  | word hword =>
      rw [Token.pattern_of_word hword, Pattern.literal_append]
  | @hexColor cs hhex =>
      simp only [isHex, Bool.and_eq_true, decide_eq_true_eq] at hhex
      obtain ⟨⟨hmin, hmax⟩, hdigits⟩ := hhex
      have hrun := Pattern.length_le_run (List.all_eq_true.1 hdigits) rest
      simp only [Token.pattern, List.cons_append, Pattern.hexColor, List.length_cons]
      rw [if_pos (by omega)]
      omega
  | @pseudoClass cs hname =>
      cases cs with
      | nil => cases hname
      | cons c cs =>
          obtain ⟨hstart, hparts⟩ := Bool.and_eq_true_iff.1 hname
          have hrun := Pattern.length_le_run (List.all_eq_true.1 hparts) rest
          simp only [Token.pattern, List.cons_append, Pattern.pseudoClass, if_pos hstart,
            List.length_cons]
          omega
  | quoted hquote hcs =>
      rw [hquote.pattern_eq, List.cons_append, List.append_assoc, List.singleton_append,
        Pattern.quoted_closed hcs]
      simp
  | dimension hmeasure hunit =>
      rw [Token.pattern, Pattern.dimension_append hmeasure hunit, List.length_append]
  | number hnumeral => exact hnumeral.length_le rest
  | ident hident =>
      cases cs with
      | nil => cases hident
      | cons c cs =>
          obtain ⟨hstart, hparts⟩ := Bool.and_eq_true_iff.1 hident
          have hrun := Pattern.length_le_run (List.all_eq_true.1 hparts) rest
          simp only [Token.pattern, List.cons_append, Pattern.ident, if_pos hstart,
            List.length_cons]
          omega

theorem Spells.ne_nil (h : Spells token cs) : cs ≠ [] := by
  cases h with
  | word hword =>
      rintro rfl
      cases token <;> cases hword
  | hexColor | pseudoClass | quoted => exact List.cons_ne_nil _ _
  | dimension hmeasure => exact List.append_ne_nil_of_left_ne_nil hmeasure.ne_nil _
  | number hnumeral => exact hnumeral.ne_nil
  | ident hident =>
      rintro rfl
      cases hident

theorem Spells.exists_head (h : Spells token cs) :
    ∃ c ds, cs = c :: ds ∧ token.mayStart c = true := by
  obtain ⟨c, ds, rfl⟩ := List.exists_cons_of_ne_nil h.ne_nil
  refine ⟨c, ds, rfl, ?_⟩
  by_contra hstart
  have hlength := h.length_le_pattern []
  rw [List.cons_append, token.pattern_cons_eq_zero (Bool.eq_false_iff.2 hstart)] at hlength
  cases hlength

/-! ## No text is of two sorts -/

/-- Of two sorts that may start alike, the one whose texts are longer. -/
def Token.rival? : Token → Option Token
  | .hash => some .hexColor
  | .colon => some .pseudoClass
  | .number => some .dimension
  | _ => none

private theorem eq_of_mayStart_digit (h : c.isDigit = true) (hstart : token.mayStart c = true) :
    token = .dimension ∨ token = .number := by
  have hne {d : Char} (hd : d.isDigit = false) : c ≠ d := by
    rintro rfl
    exact Bool.false_ne_true (hd.symm.trans h)
  cases token with
  | dimension => exact Or.inl rfl
  | number => exact Or.inr rfl
  | ident =>
      have hident : Token.number = .ident :=
        eq_ident_of_mayStart hstart (by simp [Token.mayStart, h])
      cases hident
  | _ =>
      simp only [Token.mayStart, decide_eq_true_eq] at hstart
      exact absurd hstart (hne (by decide))

theorem Token.eq_or_rival (h : token.mayStart c = true) (hother : other.mayStart c = true) :
    token = other ∨ token.rival? = some other ∨ other.rival? = some token := by
  have hmark {d : Char} (hd : c = d) (hsole : ∀ other : Token, other.mayStart d = true →
      token = other ∨ token.rival? = some other ∨ other.rival? = some token) :
      token = other ∨ token.rival? = some other ∨ other.rival? = some token :=
    hsole other (hd ▸ hother)
  cases token with
  | ident => exact Or.inl (eq_ident_of_mayStart h hother).symm
  | dimension | number =>
      rcases Bool.or_eq_true_iff.1 h with hminus | hdigit
      · exact hmark (of_decide_eq_true hminus) (by decide)
      · rcases eq_of_mayStart_digit hdigit hother with rfl | rfl <;> decide
  | _ => exact hmark (of_decide_eq_true h) (by decide)

/-- A number is written with digits, a point and a minus, and a unit has something else in it. -/
private def isNumberPart (c : Char) : Bool :=
  c.isDigit || c = '.' || c = '-'

private theorem units_part : ∀ unit ∈ Pattern.units, unit.all isNumberPart = false := by
  decide

private theorem IsNumeral.all_isNumberPart (h : IsNumeral cs) :
    cs.all isNumberPart = true := by
  have hpart {c : Char} (hc : c.isDigit = true ∨ c = '.') : isNumberPart c = true := by
    rcases hc with hc | hc <;> simp [isNumberPart, hc]
  rw [List.all_eq_true]
  cases h with
  | plain h => exact fun c hc => hpart (h.isPart c hc)
  | minus h => exact List.forall_mem_cons.2 ⟨rfl, fun c hc => hpart (h.isPart c hc)⟩

theorem Spells.not_rival (h : Spells token cs) (hrival : token.rival? = some other) :
    ¬ Spells other cs := by
  intro hother
  cases token with
  | hash | colon =>
      obtain rfl := Option.some.inj hrival
      cases h with
      | word hword =>
          obtain rfl := Option.some.inj hword
          exact absurd (hother.length_le_pattern []) (by decide)
      | quoted hquote => cases hquote
  | number =>
      obtain rfl := Option.some.inj hrival
      cases h with
      | word hword => cases hword
      | quoted hquote => cases hquote
      | number hnumeral =>
          cases hother with
          | word hword => cases hword
          | quoted hquote => cases hquote
          | dimension hmeasure hunit =>
              have hall := hnumeral.all_isNumberPart
              rw [List.all_append, units_part _ hunit, Bool.and_false] at hall
              cases hall
  | _ => cases hrival

theorem Spells.unique (h : Spells token cs) (hother : Spells other cs) : token = other := by
  obtain ⟨c, ds, rfl, hstart⟩ := h.exists_head
  obtain ⟨c', ds', heq, hstart'⟩ := hother.exists_head
  obtain ⟨rfl, -⟩ := List.cons.inj heq
  rcases Token.eq_or_rival hstart hstart' with hsame | hrival | hrival
  · exact hsame
  · exact absurd hother (h.not_rival hrival)
  · exact absurd h (hother.not_rival hrival)

/-! ## The longest text -/

/-- A text of a sort in front of others, such that no longer one of any sort is there. -/
structure Foremost (token : Token) (ds rest : List Char) : Prop where
  spells : Spells token ds
  bounds : ∀ {other : Token} {es : List Char}, Spells other es → es <+: ds ++ rest →
    es.length ≤ ds.length

theorem foremost_of_longest {n : Nat} (h : longest cs = some (token, n)) :
    Foremost token (cs.take n) (cs.drop n) := by
  obtain ⟨hpositive, hpattern, hbounds⟩ := longest_eq_some h
  refine ⟨?_, fun {other es} hother hfront => ?_⟩
  · have hspells := Token.spells_take (hpattern ▸ Nat.ne_of_gt hpositive)
    rwa [hpattern] at hspells
  · rw [List.take_append_drop] at hfront
    have hlength := hfront.length_le
    obtain ⟨more, rfl⟩ := hfront
    have hpattern := hother.length_le_pattern more
    have hbound := hbounds other
    rw [List.length_take]
    omega

theorem Foremost.exists_longest (h : Foremost token ds rest) :
    ∃ n, longest (ds ++ rest) = some (token, n) ∧ (ds ++ rest).take n = ds ∧
      (ds ++ rest).drop n = rest := by
  have hlength := h.spells.length_le_pattern rest
  have hpositive := List.length_pos_iff.2 h.spells.ne_nil
  cases hlongest : longest (ds ++ rest) with
  | none =>
      have hzero := longest_eq_none hlongest token
      omega
  | some best =>
      obtain ⟨found, n⟩ := best
      have hbound := (longest_eq_some hlongest).2.2 token
      have hfound := foremost_of_longest hlongest
      have hle := h.bounds hfound.spells (List.take_prefix _ _)
      have htake : (ds ++ rest).take n = ds := by
        have hfront : ds <+: (ds ++ rest).take n :=
          List.prefix_take_iff.2 ⟨List.prefix_append ds rest, by omega⟩
        exact (hfront.eq_of_length_le hle).symm
      have hsame : found = token := by
        rw [htake] at hfound
        exact hfound.spells.unique h.spells
      refine ⟨n, by rw [hsame], htake, ?_⟩
      have hboth := List.take_append_drop n (ds ++ rest)
      rw [htake] at hboth
      exact List.append_cancel_left hboth

theorem longest_eq_none_iff :
    longest cs = none ↔ ∀ token ds, Spells token ds → ¬ ds <+: cs := by
  constructor
  · rintro hnone token ds hspells ⟨more, rfl⟩
    have hlength := hspells.length_le_pattern more
    rw [longest_eq_none hnone token] at hlength
    exact hspells.ne_nil (List.eq_nil_of_length_eq_zero (Nat.le_zero.1 hlength))
  · intro hunspelled
    cases hlongest : longest cs with
    | none => rfl
    | some best =>
        have hfound : Foremost best.1 (cs.take best.2) (cs.drop best.2) :=
          foremost_of_longest hlongest
        exact absurd (List.take_prefix _ _) (hunspelled _ _ hfound.spells)

end ReportModel.Css
