import Mathlib.Data.Fintype.Basic
import ReportModel.Proofs.Css.Lexemes

/-!
# Cutting lexemes

Which lexeme stands at the front of a text. The first character leaves few sorts to choose from, and
a name goes on up to the first character that cannot be part of one.
-/

namespace ReportModel.Css

variable {c : Char} {cs rest : List Char} {token : Token}

instance : Fintype Token where
  elems := ⟨Token.all, by decide⟩
  complete := mem_all

def Token.mayStart : Token → Char → Bool
  | .important, c => c = '!'
  | .hexColor, c | .hash, c => c = '#'
  | .dimension, c | .number, c => c = '-' || c.isDigit
  | .pseudoClass, c | .colon, c => c = ':'
  | .doubleQuoted, c => c = '"'
  | .singleQuoted, c => c = '\''
  | .ident, c => isIdentStart c
  | .braceOpen, c => c = '{'
  | .braceClose, c => c = '}'
  | .semicolon, c => c = ';'
  | .comma, c => c = ','
  | .dot, c => c = '.'
  | .star, c => c = '*'
  | .greaterThan, c => c = '>'

namespace Pattern

theorem literal_cons_eq_zero {d : Char} (h : d ≠ c) (word cs : List Char) :
    literal (d :: word) (c :: cs) = 0 := by
  simp [literal, h]

theorem unsigned_cons_eq_zero (h : c.isDigit = false) (cs : List Char) :
    unsigned (c :: cs) = 0 := by
  simp [unsigned, run, h]

theorem number_cons_eq_zero (hminus : c ≠ '-') (hdigit : c.isDigit = false) (cs : List Char) :
    number (c :: cs) = 0 := by
  rw [number]
  · exact unsigned_cons_eq_zero hdigit cs
  · rintro _ ⟨⟩
    exact hminus rfl

end Pattern

theorem Token.pattern_cons_eq_zero (h : token.mayStart c = false) (cs : List Char) :
    token.pattern (c :: cs) = 0 := by
  cases token with
  | hexColor =>
      simp only [mayStart, decide_eq_false_iff_not] at h
      rw [pattern, Pattern.hexColor]
      rintro _ ⟨⟩
      exact h rfl
  | dimension =>
      simp only [mayStart, Bool.or_eq_false_iff, decide_eq_false_iff_not] at h
      simp [pattern, Pattern.dimension, Pattern.number_cons_eq_zero h.1 h.2]
  | number =>
      simp only [mayStart, Bool.or_eq_false_iff, decide_eq_false_iff_not] at h
      exact Pattern.number_cons_eq_zero h.1 h.2 cs
  | pseudoClass =>
      simp only [mayStart, decide_eq_false_iff_not] at h
      rw [pattern, Pattern.pseudoClass]
      rintro _ _ ⟨⟩
      exact h rfl
  | doubleQuoted | singleQuoted =>
      simp only [mayStart, decide_eq_false_iff_not] at h
      rw [pattern, Pattern.quoted, if_neg h]
  | ident =>
      simp only [mayStart] at h
      simp [pattern, Pattern.ident, h]
  | _ =>
      simp only [mayStart, decide_eq_false_iff_not] at h
      exact Pattern.literal_cons_eq_zero (Ne.symm h) _ cs

/-- Of the sorts that may start with a character, the one that admits most is cut there. -/
theorem longest_cons_eq {n : Nat} (hpattern : token.pattern (c :: cs) = n) (hpos : 0 < n)
    (hothers : ∀ other : Token, other.mayStart c = true → other ≠ token →
      other.pattern (c :: cs) < n) : longest (c :: cs) = some (token, n) := by
  cases h : longest (c :: cs) with
  | none => exact absurd ((longest_eq_none h token).symm.trans hpattern) (Nat.ne_of_lt hpos)
  | some best =>
      obtain ⟨found, m⟩ := best
      obtain ⟨hm, rfl, hbounds⟩ := longest_eq_some h
      have hstart : found.mayStart c = true := by
        by_contra hstart
        have := found.pattern_cons_eq_zero (Bool.eq_false_iff.2 hstart) cs
        omega
      obtain rfl : found = token := by
        by_contra hne
        have := hbounds token
        have := hothers found hstart hne
        omega
      rw [hpattern]

theorem longest_cons_eq_none (h : ∀ token : Token, token.mayStart c = true →
    token.pattern (c :: cs) = 0) : longest (c :: cs) = none := by
  cases hfound : longest (c :: cs) with
  | none => rfl
  | some best =>
      obtain ⟨token, n⟩ := best
      obtain ⟨hpos, hcount, -⟩ := longest_eq_some hfound
      have hzero : token.pattern (c :: cs) = 0 := by
        by_cases hstart : token.mayStart c = true
        · exact h token hstart
        · exact token.pattern_cons_eq_zero (Bool.eq_false_iff.2 hstart) cs
      exact absurd (hcount.symm.trans hzero) (Nat.ne_of_gt hpos)

theorem Token.mayStart_of_isSpace (h : isSpace c = true) : ∀ token : Token,
    token.mayStart c = false := by
  simp only [isSpace, Bool.or_eq_true, decide_eq_true_eq] at h
  rcases h with (((rfl | rfl) | rfl) | rfl) | rfl <;> decide

theorem isSpace_of_longest {n : Nat} (h : longest (c :: cs) = some (token, n)) :
    isSpace c = false := by
  by_contra hspace
  obtain ⟨hpos, rfl, -⟩ := longest_eq_some h
  rw [Bool.not_eq_false] at hspace
  exact Nat.ne_of_gt hpos (token.pattern_cons_eq_zero (Token.mayStart_of_isSpace hspace token) cs)

theorem lexFrom_skip (joined : Bool) (skip : Nat) (cs : List Char) :
    lexFrom joined skip cs = lexFrom joined 0 (cs.drop skip) := by
  induction cs generalizing skip with
  | nil => simp [lexFrom]
  | cons c cs ih =>
      cases skip with
      | zero => rfl
      | succ skip => exact ih skip

theorem lexFrom_eq_cons {n : Nat} (joined : Bool) (h : longest cs = some (token, n)) :
    lexFrom joined 0 cs = ⟨token, cs.take n, joined⟩ :: lexFrom true 0 (cs.drop n) := by
  cases cs with
  | nil => cases h
  | cons c cs =>
      obtain ⟨m, rfl⟩ := Nat.exists_eq_add_one.2 (longest_eq_some h).1
      rw [lexFrom, if_neg (Bool.eq_false_iff.1 (isSpace_of_longest h)), h]
      simp only [Nat.add_sub_cancel, List.drop_succ_cons, lexFrom_skip true m cs]

theorem lexFrom_of_longest (joined : Bool) (h : longest (cs ++ rest) = some (token, cs.length)) :
    lexFrom joined 0 (cs ++ rest) = ⟨token, cs, joined⟩ :: lexFrom true 0 rest := by
  simpa using lexFrom_eq_cons joined h

/-! ## Names -/

def isIdent : List Char → Bool
  | [] => false
  | c :: cs => isIdentStart c && cs.all isIdentPart

/-- A text is three to eight hexadecimal digits. -/
def isHex (cs : List Char) : Bool :=
  3 ≤ cs.length && cs.length ≤ 8 && cs.all isHexDigit

def isPseudoName : List Char → Bool
  | [] => false
  | c :: cs => c.isAlpha && cs.all isIdentPart

/-- A text does not go on with a name in front of it. -/
def EndsName (rest : List Char) : Prop :=
  ∀ c ∈ rest.head?, isIdentPart c = false

theorem EndsName.append {ds : List Char} (hds : EndsName ds) (hrest : EndsName rest) :
    EndsName (ds ++ rest) := by
  cases ds with
  | nil => exact hrest
  | cons d ds => exact hds

theorem isAlpha_iff (c : Char) : c.isAlpha = true ↔
    65 ≤ c.val.toNat ∧ c.val.toNat ≤ 90 ∨ 97 ≤ c.val.toNat ∧ c.val.toNat ≤ 122 := by
  have hletters : c.isAlpha = (decide (c.val ≥ 'A'.val ∧ c.val ≤ 'Z'.val) ||
      decide (c.val ≥ 'a'.val) && decide (c.val ≤ 'z'.val)) := rfl
  simp only [hletters, Bool.or_eq_true, Bool.and_eq_true, decide_eq_true_eq, ge_iff_le,
    UInt32.le_iff_toNat_le, Char.reduceVal, UInt32.reduceToNat]

theorem isIdentPart_of_isHexDigit (h : isHexDigit c = true) : isIdentPart c = true := by
  simp only [isHexDigit, isIdentPart, isAlpha_iff, Char.isDigit, Bool.or_eq_true,
    Bool.and_eq_true, decide_eq_true_eq, ge_iff_le, Char.le_def, UInt32.le_iff_toNat_le,
    Char.reduceVal, UInt32.reduceToNat] at h ⊢
  omega

theorem isIdentPart_of_isIdentStart {c : Char} (h : isIdentStart c = true) :
    isIdentPart c = true := by
  simp only [isIdentStart, isIdentPart, Bool.or_eq_true] at h ⊢
  tauto

theorem exists_isIdentStart {cs : List Char} (h : isIdent cs = true) :
    ∃ c ds, cs = c :: ds ∧ isIdentStart c = true := by
  cases cs with
  | nil => cases h
  | cons c cs => exact ⟨c, cs, rfl, (Bool.and_eq_true_iff.1 h).1⟩

theorem isIdentPart_of_isIdent {cs : List Char} (h : isIdent cs = true) :
    ∀ c ∈ cs, isIdentPart c = true := by
  cases cs with
  | nil => cases h
  | cons c cs =>
      obtain ⟨hstart, hparts⟩ := Bool.and_eq_true_iff.1 h
      exact List.forall_mem_cons.2
        ⟨isIdentPart_of_isIdentStart hstart, List.all_eq_true.1 hparts⟩

theorem isIdentPart_of_isHex {cs : List Char} (h : isHex cs = true) :
    ∀ c ∈ cs, isIdentPart c = true := fun c hc =>
  isIdentPart_of_isHexDigit (List.all_eq_true.1 (Bool.and_eq_true_iff.1 h).2 c hc)

theorem isIdentPart_of_isPseudoName {cs : List Char} (h : isPseudoName cs = true) :
    ∀ c ∈ cs, isIdentPart c = true := by
  cases cs with
  | nil => cases h
  | cons c cs =>
      obtain ⟨hstart, hparts⟩ := Bool.and_eq_true_iff.1 h
      exact List.forall_mem_cons.2
        ⟨by simp [isIdentPart, hstart], List.all_eq_true.1 hparts⟩

theorem EndsName.isHexDigit (h : EndsName rest) : ∀ c ∈ rest.head?, isHexDigit c = false := by
  intro c hc
  rw [Bool.eq_false_iff]
  intro hhex
  exact Bool.false_ne_true ((h c hc).symm.trans (isIdentPart_of_isHexDigit hhex))

theorem Pattern.run_append_of_head {p : Char → Bool} (hrest : ∀ c ∈ rest.head?, p c = false) :
    run p (cs ++ rest) = run p cs := by
  induction cs with
  | nil =>
      cases rest with
      | nil => rfl
      | cons c rest => simp [run, hrest c rfl]
  | cons c cs ih =>
      simp only [run, List.cons_append, List.takeWhile_cons] at ih ⊢
      split
      · simpa using ih
      · rfl

theorem Pattern.run_append {p : Char → Bool} (hcs : ∀ c ∈ cs, p c = true)
    (hrest : ∀ c ∈ rest.head?, p c = false) : run p (cs ++ rest) = cs.length := by
  rw [run, (takeWhile_append_of_head rest hcs hrest).1]

private theorem isDigit_of_isIdentStart (h : isIdentStart c = true) : c.isDigit = false := by
  rw [Bool.eq_false_iff]
  intro hdigit
  simp only [isIdentStart, isAlpha_iff, Char.isDigit, Bool.or_eq_true, Bool.and_eq_true,
    decide_eq_true_eq, ge_iff_le, UInt32.le_iff_toNat_le, Char.reduceVal, UInt32.reduceToNat]
    at h hdigit
  rcases h with h | rfl
  · omega
  · exact absurd hdigit (by decide)

/-- Nothing but an identifier starts as one. -/
theorem eq_ident_of_mayStart (h : isIdentStart c = true) (hstart : token.mayStart c = true) :
    token = .ident := by
  have hne {d : Char} (hd : isIdentStart d = false) : c ≠ d := by
    rintro rfl
    exact Bool.false_ne_true (hd.symm.trans h)
  cases token with
  | ident => rfl
  | dimension | number =>
      simp only [Token.mayStart, isDigit_of_isIdentStart h, Bool.or_false, decide_eq_true_eq]
        at hstart
      exact absurd hstart (hne (by decide))
  | _ =>
      simp only [Token.mayStart, decide_eq_true_eq] at hstart
      exact absurd hstart (hne (by decide))

theorem longest_ident (hcs : isIdent cs = true) (hrest : EndsName rest) :
    longest (cs ++ rest) = some (.ident, cs.length) := by
  cases cs with
  | nil => cases hcs
  | cons c cs =>
      obtain ⟨hstart, hparts⟩ := Bool.and_eq_true_iff.1 hcs
      have hrun := Pattern.run_append (List.all_eq_true.1 hparts) hrest
      refine longest_cons_eq ?_ (Nat.succ_pos _) fun other hother hne =>
        absurd (eq_ident_of_mayStart hstart hother) hne
      simp only [Token.pattern, Pattern.ident, List.append_eq, if_pos hstart, hrun,
        List.length_cons, Nat.add_comm]

theorem longest_mark (hpattern : token.pattern (c :: rest) = 1)
    (hsole : ∀ other : Token, other.mayStart c = true → other = token) :
    longest (c :: rest) = some (token, 1) :=
  longest_cons_eq hpattern Nat.one_pos fun other hother hne => absurd (hsole other hother) hne

theorem longest_dot (rest : List Char) : longest ('.' :: rest) = some (.dot, 1) :=
  longest_mark rfl (by decide)

theorem longest_star (rest : List Char) : longest ('*' :: rest) = some (.star, 1) :=
  longest_mark rfl (by decide)

theorem longest_greaterThan (rest : List Char) : longest ('>' :: rest) = some (.greaterThan, 1) :=
  longest_mark rfl (by decide)

private theorem mayStart_hash :
    ∀ token : Token, token.mayStart '#' = true → token = .hexColor ∨ token = .hash := by
  decide

private theorem mayStart_colon :
    ∀ token : Token, token.mayStart ':' = true → token = .pseudoClass ∨ token = .colon := by
  decide

theorem longest_hexColor_of_run (h : 3 ≤ Pattern.run isHexDigit cs) :
    longest ('#' :: cs) = some (.hexColor, 1 + min (Pattern.run isHexDigit cs) 8) := by
  refine longest_cons_eq (if_pos h) (by omega) fun other hother hne => ?_
  obtain rfl := (mayStart_hash other hother).resolve_left hne
  have hmark : Token.hash.pattern ('#' :: cs) = 1 := rfl
  omega

theorem longest_hexColor (hcs : isHex cs = true) (hrest : EndsName rest) :
    longest ('#' :: cs ++ rest) = some (.hexColor, cs.length + 1) := by
  simp only [isHex, Bool.and_eq_true, decide_eq_true_eq] at hcs
  obtain ⟨⟨hmin, hmax⟩, hdigits⟩ := hcs
  have hrun := Pattern.run_append (List.all_eq_true.1 hdigits) hrest.isHexDigit
  have hlongest := longest_hexColor_of_run (hrun.symm ▸ hmin)
  rwa [hrun, Nat.min_eq_left hmax, Nat.add_comm] at hlongest

theorem longest_hash (hrest : Pattern.run isHexDigit rest < 3) :
    longest ('#' :: rest) = some (.hash, 1) := by
  refine longest_cons_eq rfl Nat.one_pos fun other hother hne => ?_
  obtain rfl := (mayStart_hash other hother).resolve_right hne
  simp only [Token.pattern, Pattern.hexColor, if_neg (Nat.not_le_of_lt hrest), Nat.one_pos]

theorem longest_pseudoClass (hcs : isPseudoName cs = true) (hrest : EndsName rest) :
    longest (':' :: cs ++ rest) = some (.pseudoClass, cs.length + 1) := by
  cases cs with
  | nil => cases hcs
  | cons c cs =>
      obtain ⟨hstart, hparts⟩ := Bool.and_eq_true_iff.1 hcs
      have hrun := Pattern.run_append (List.all_eq_true.1 hparts) hrest
      refine longest_cons_eq ?_ (Nat.succ_pos _) fun other hother hne => ?_
      · simp only [Token.pattern, Pattern.pseudoClass, List.append_eq, List.cons_append,
          if_pos hstart, hrun, List.length_cons]
        omega
      · obtain rfl := (mayStart_colon other hother).resolve_left hne
        exact Nat.succ_lt_succ (Nat.succ_pos _)

/-! ## The names of lexemes -/

theorem Pattern.ident_sound (h : ident cs ≠ 0) : isIdent (cs.take (ident cs)) = true := by
  cases cs with
  | nil => exact absurd rfl h
  | cons c cs =>
      simp only [ident] at h ⊢
      split at h
      · next hstart =>
        rw [if_pos hstart, Nat.add_comm, List.take_succ_cons, take_run, isIdent, hstart]
        exact List.all_takeWhile
      · exact absurd rfl h

theorem Pattern.hexColor_sound (h : hexColor cs ≠ 0) :
    ∃ ds, cs.take (hexColor cs) = '#' :: ds ∧ isHex ds = true := by
  unfold hexColor at h ⊢
  split at h
  · next cs =>
    have hmin : 3 ≤ run isHexDigit cs := by
      by_contra hmin
      exact h (if_neg hmin)
    refine ⟨(cs.takeWhile isHexDigit).take 8, ?_, ?_⟩
    · simp only [if_pos hmin, Nat.add_comm 1, List.take_succ_cons, Nat.min_comm _ 8]
      rw [← List.take_take, take_run]
    · have hlength : ((cs.takeWhile isHexDigit).take 8).length = min 8 (run isHexDigit cs) :=
        List.length_take
      have hdigits : ((cs.takeWhile isHexDigit).take 8).all isHexDigit = true :=
        List.all_eq_true.2 fun c hc =>
          List.all_eq_true.1 List.all_takeWhile c (List.mem_of_mem_take hc)
      simp only [isHex, hlength, hdigits, Bool.and_true, Bool.and_eq_true, decide_eq_true_eq]
      omega
  · exact absurd rfl h

theorem Pattern.pseudoClass_sound (h : pseudoClass cs ≠ 0) :
    ∃ ds, cs.take (pseudoClass cs) = ':' :: ds ∧ isPseudoName ds = true := by
  unfold pseudoClass at h ⊢
  split at h
  · next c cs =>
    split at h
    · next hstart =>
      refine ⟨c :: cs.takeWhile isIdentPart, ?_, ?_⟩
      · simp only [if_pos hstart, Nat.add_comm 2, List.take_succ_cons, take_run]
      · rw [isPseudoName, hstart]
        exact List.all_takeWhile
    · exact absurd rfl h
  · exact absurd rfl h

namespace Lexeme.IsCut

variable {t : Lexeme} (h : t.IsCut)
include h

theorem isIdent (ht : t.token = .ident) : isIdent t.chars = true := by
  obtain ⟨cs, hne, hchars⟩ := h.pattern
  rw [ht] at hne hchars
  rw [hchars]
  exact Pattern.ident_sound hne

theorem isHex (ht : t.token = .hexColor) : isHex t.tailText.toList = true := by
  obtain ⟨cs, hne, hchars⟩ := h.pattern
  rw [ht] at hne hchars
  obtain ⟨ds, hds, hhex⟩ := Pattern.hexColor_sound hne
  rw [Lexeme.tailText, hchars, Token.pattern, hds, String.toList_ofList]
  exact hhex

theorem isPseudoName (ht : t.token = .pseudoClass) : isPseudoName t.tailText.toList = true := by
  obtain ⟨cs, hne, hchars⟩ := h.pattern
  rw [ht] at hne hchars
  obtain ⟨ds, hds, hname⟩ := Pattern.pseudoClass_sound hne
  rw [Lexeme.tailText, hchars, Token.pattern, hds, String.toList_ofList]
  exact hname

end Lexeme.IsCut

end ReportModel.Css
