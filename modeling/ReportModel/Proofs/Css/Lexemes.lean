import ReportModel.Proofs.Css.Grammar
import ReportModel.Proofs.Except

/-!
# The lexemes of a text

Each lexeme is the longest text that the pattern of its sort admits at its place, and it is joined
to the lexeme in front of it exactly if it starts at the byte where that one ends. A number or a
dimension has a sign, digits and perhaps a fraction, so it can always be read.
-/

namespace ReportModel.Css

/-! ## Numerals -/

inductive IsFraction : List Char → Prop
  | nil : IsFraction []
  | point {ds : List Char} (hne : ds ≠ []) (hds : ∀ c ∈ ds, c.isDigit = true) :
    IsFraction ('.' :: ds)

inductive IsUnsigned : List Char → Prop
  | mk {ds fraction : List Char} (hne : ds ≠ []) (hds : ∀ c ∈ ds, c.isDigit = true)
    (hfraction : IsFraction fraction) : IsUnsigned (ds ++ fraction)

inductive IsNumeral : List Char → Prop
  | plain {cs : List Char} (h : IsUnsigned cs) : IsNumeral cs
  | minus {cs : List Char} (h : IsUnsigned cs) : IsNumeral ('-' :: cs)

namespace Pattern

variable {cs : List Char}

theorem take_run (p : Char → Bool) (cs : List Char) : cs.take (run p cs) = cs.takeWhile p :=
  (List.prefix_iff_eq_take.1 (List.takeWhile_prefix p)).symm

private theorem take_run_add (p : Char → Bool) (cs : List Char) (n : Nat) :
    cs.take (run p cs + n) = cs.takeWhile p ++ (cs.drop (run p cs)).take n := by
  rw [List.take_add, take_run]

private theorem takeWhile_ne_nil {p : Char → Bool} (h : run p cs ≠ 0) : cs.takeWhile p ≠ [] :=
  fun hnil => h (by simp [run, hnil])

theorem unsigned_sound (h : unsigned cs ≠ 0) : IsUnsigned (cs.take (unsigned cs)) := by
  have hwhole : run Char.isDigit cs ≠ 0 := fun h0 => h (by simp [unsigned, h0])
  have hdigits : ∀ c ∈ cs.takeWhile Char.isDigit, c.isDigit = true :=
    fun c hc => List.all_eq_true.1 List.all_takeWhile c hc
  have hplain : IsUnsigned (cs.take (run Char.isDigit cs)) := by
    rw [take_run, ← List.append_nil (cs.takeWhile _)]
    exact .mk (takeWhile_ne_nil hwhole) hdigits .nil
  simp only [unsigned, if_neg hwhole]
  split
  · next rest hrest =>
    split
    · exact hplain
    · next hfraction =>
      rw [Nat.add_assoc, take_run_add, hrest, Nat.add_comm 1, List.take_succ_cons, take_run]
      exact .mk (takeWhile_ne_nil hwhole) hdigits
        (.point (takeWhile_ne_nil hfraction) fun c hc => List.all_eq_true.1 List.all_takeWhile c hc)
  · exact hplain

theorem number_sound (h : number cs ≠ 0) : IsNumeral (cs.take (number cs)) := by
  unfold number at h ⊢
  split at h
  · next cs =>
    have hcount : unsigned cs ≠ 0 := fun h0 => h (by simp [h0])
    simp only [if_neg hcount]
    rw [Nat.add_comm, List.take_succ_cons]
    exact .minus (unsigned_sound hcount)
  · exact .plain (unsigned_sound h)

theorem dimension_sound (h : dimension cs ≠ 0) :
    ∃ measure unit, IsNumeral measure ∧ unit ∈ units ∧
      cs.take (dimension cs) = measure ++ unit := by
  have hcount : number cs ≠ 0 := fun h0 => h (by simp [dimension, h0])
  simp only [dimension, if_neg hcount] at h ⊢
  cases hfound : units.find? (·.isPrefixOf (cs.drop (number cs))) with
  | none => simp [hfound] at h
  | some unit =>
      have hprefix : unit <+: cs.drop (number cs) := by
        simpa using List.find?_some hfound
      refine ⟨cs.take (number cs), unit, number_sound hcount, List.mem_of_find?_eq_some hfound, ?_⟩
      simp only
      rw [List.take_add, ← List.prefix_iff_eq_take.1 hprefix]

end Pattern

theorem IsUnsigned.head {cs : List Char} (h : IsUnsigned cs) :
    ∃ c rest, cs = c :: rest ∧ c.isDigit = true := by
  cases h with
  | @mk ds fraction hne hds _ =>
      obtain ⟨c, rest, rfl⟩ := List.exists_cons_of_ne_nil hne
      exact ⟨c, rest ++ fraction, rfl, hds c List.mem_cons_self⟩

theorem IsFraction.isPart {cs : List Char} (h : IsFraction cs) :
    ∀ c ∈ cs, c.isDigit = true ∨ c = '.' := by
  cases h with
  | nil => simp
  | point _ hds => simpa using fun c hc => Or.inl (hds c hc)

theorem IsUnsigned.isPart {cs : List Char} (h : IsUnsigned cs) :
    ∀ c ∈ cs, c.isDigit = true ∨ c = '.' := by
  cases h with
  | mk _ hds hfraction =>
      intro c hc
      exact (List.mem_append.1 hc).elim (fun hc => .inl (hds c hc)) (hfraction.isPart c)

theorem takeWhile_append_of_head {p : Char → Bool} {ds : List Char} (rest : List Char)
    (hds : ∀ c ∈ ds, p c = true) (hrest : ∀ c ∈ rest.head?, p c = false) :
    (ds ++ rest).takeWhile p = ds ∧ (ds ++ rest).dropWhile p = rest := by
  rw [List.takeWhile_append_of_pos hds, List.dropWhile_append_of_pos hds]
  cases rest with
  | nil => simp
  | cons c rest => simp [hrest c rfl]

theorem IsUnsigned.readDecimal {cs : List Char} (h : IsUnsigned cs) :
    (readDecimal cs).isSome = true := by
  cases h with
  | @mk ds _ hne hds hfraction =>
      cases hfraction with
      | nil =>
          obtain ⟨htake, hdrop⟩ := takeWhile_append_of_head [] hds (by simp)
          simp only [ReportModel.readDecimal, htake, hdrop]
          simp [hne, readExponent]
      | @point ds' hne' hds' =>
          obtain ⟨htake, hdrop⟩ := takeWhile_append_of_head ('.' :: ds') hds
            (by rintro c ⟨⟩; decide)
          obtain ⟨htake', hdrop'⟩ := takeWhile_append_of_head [] hds' (by simp)
          rw [List.append_nil] at htake' hdrop'
          simp only [ReportModel.readDecimal, htake, hdrop, htake', hdrop']
          simp [hne, readExponent]

private theorem toLower_of_isDigit {c : Char} (h : c.isDigit = true) : c.toLower = c := by
  have hdigit : c.val ≤ '9'.val := of_decide_eq_true (Bool.and_eq_true_iff.1 h).2
  have hupper : ¬ (c.val ≥ 'A'.val ∧ c.val ≤ 'Z'.val) := fun hc =>
    absurd (UInt32.le_trans hc.1 hdigit) (by decide)
  exact dif_neg hupper

theorem IsUnsigned.splitSign {cs : List Char} (h : IsUnsigned cs) : splitSign cs = (false, cs) := by
  obtain ⟨c, rest, rfl, hc⟩ := h.head
  unfold ReportModel.splitSign
  split
  · next heq => cases heq; cases hc
  · next heq => cases heq; cases hc
  · rfl

theorem IsNumeral.readChars {cs : List Char} (h : IsNumeral cs) (format : Format) :
    (format.readChars cs).isSome = true := by
  have key {body : List Char} (hbody : IsUnsigned body) (hsplit : (splitSign cs).2 = body) :
      (format.readChars cs).isSome = true := by
    obtain ⟨c, rest, rfl, hc⟩ := hbody.head
    have hne (word : List Char) (hword : word.head?.any Char.isDigit = false) :
        String.ofList ((c :: rest).map Char.toLower) ≠ String.ofList word := by
      intro heq
      rw [String.ofList_inj] at heq
      simp [← heq, toLower_of_isDigit hc, hc] at hword
    have hinf := hne ['i', 'n', 'f'] rfl
    have hinfinity := hne ['i', 'n', 'f', 'i', 'n', 'i', 't', 'y'] rfl
    have hnan := hne ['n', 'a', 'n'] rfl
    simp only [Format.readChars, hsplit]
    rw [if_neg, if_neg hnan]
    · simpa using hbody.readDecimal
    · simpa only [Bool.or_eq_true, decide_eq_true_eq, not_or] using ⟨hinf, hinfinity⟩
  cases h with
  | plain h => exact key h (by rw [h.splitSign])
  | minus h => exact key h rfl

private theorem units_head : ∀ unit ∈ Pattern.units, unit ≠ [] ∧
    (unit.head?.any fun c => c.isDigit || c = '.') = false := by
  decide

theorem IsNumeral.splitMeasure {cs unit : List Char} (h : IsNumeral cs)
    (hunit : unit ∈ Pattern.units) : Dimension.splitMeasure (cs ++ unit) = (cs, unit) := by
  have hend : ∀ c ∈ unit.head?, (c.isDigit || c = '.') = false := by
    intro c hc
    have hunits := (units_head unit hunit).2
    rwa [Option.mem_def.1 hc, Option.any_some] at hunits
  cases h with
  | plain h =>
      obtain ⟨htake, hdrop⟩ :=
        takeWhile_append_of_head (p := fun c => c.isDigit || c = '.') unit
          (by simpa using h.isPart) hend
      obtain ⟨c, rest, rfl, hc⟩ := h.head
      unfold Dimension.splitMeasure
      split
      · next heq => cases heq; cases hc
      · exact Prod.ext htake hdrop
  | minus h =>
      obtain ⟨htake, hdrop⟩ :=
        takeWhile_append_of_head (p := fun c => c.isDigit || c = '.') unit
          (by simpa using h.isPart) hend
      simp only [List.cons_append, Dimension.splitMeasure, htake, hdrop]

/-! ## The items of values -/

/-- The best of some patterns: the sort and the length of the longest text, if there is any. -/
private structure Best (cs : List Char) (seen : List Token) (best : Option (Token × Nat)) :
    Prop where
  admits : ∀ token n, best = some (token, n) → 0 < n ∧ token.pattern cs = n
  bounds : ∀ token ∈ seen, token.pattern cs ≤ (best.map (·.2)).getD 0

private theorem Best.foldl {cs : List Char} {seen : List Token} {best : Option (Token × Nat)}
    (h : Best cs seen best) (tokens : List Token) :
    Best cs (seen ++ tokens) (tokens.foldl (fun best token =>
      let count := token.pattern cs
      if (best.map (·.2)).getD 0 < count then some (token, count) else best) best) := by
  induction tokens generalizing seen best with
  | nil => simpa using h
  | cons token tokens ih =>
      rw [List.append_cons]
      refine ih ?_
      dsimp only
      split
      · next hlt =>
        refine ⟨?_, fun other hmem => ?_⟩
        · rintro _ _ ⟨⟩
          exact ⟨Nat.zero_lt_of_lt hlt, rfl⟩
        · rcases List.mem_append.1 hmem with hseen | hnew
          · exact Nat.le_trans (h.bounds other hseen) (Nat.le_of_lt hlt)
          · rw [List.mem_singleton.1 hnew]
            exact Nat.le_refl _
      · next hlt =>
        refine ⟨h.admits, fun other hmem => ?_⟩
        rcases List.mem_append.1 hmem with hseen | hnew
        · exact h.bounds other hseen
        · rw [List.mem_singleton.1 hnew]
          exact Nat.le_of_not_lt hlt

theorem mem_all (token : Token) : token ∈ Token.all := by
  cases token <;> decide

theorem longest_eq_some {cs : List Char} {token : Token} {n : Nat}
    (h : longest cs = some (token, n)) :
    0 < n ∧ token.pattern cs = n ∧ ∀ other, Token.pattern other cs ≤ n := by
  have hbest : Best cs ([] ++ Token.all) (longest cs) := Best.foldl ⟨by simp, by simp⟩ Token.all
  rw [h, List.nil_append] at hbest
  obtain ⟨hpos, hpattern⟩ := hbest.admits token n rfl
  exact ⟨hpos, hpattern, fun other => hbest.bounds other (mem_all other)⟩

theorem longest_eq_none {cs : List Char} (h : longest cs = none) (token : Token) :
    token.pattern cs = 0 := by
  have hbest : Best cs ([] ++ Token.all) (longest cs) := Best.foldl ⟨by simp, by simp⟩ Token.all
  rw [h, List.nil_append] at hbest
  exact Nat.le_zero.1 (hbest.bounds token (mem_all token))

/-- A lexeme is the longest that can be cut from the front of some text. -/
def Lexeme.IsCut (t : Lexeme) : Prop :=
  ∃ cs n, longest cs = some (t.token, n) ∧ t.chars = cs.take n

theorem readMeasure_eq_ok {fault : ReadFault} {cs : List Char} {x : Number} :
    readMeasure fault cs = .ok x ↔ Format.single.readChars cs = some x := by
  cases h : Format.single.readChars cs <;> simp [readMeasure, h]

private theorem units_unique : ∀ unit ∈ Pattern.units, ∀ unit' ∈ Pattern.units,
    unit <:+ unit' → unit = unit' := by
  decide

theorem IsNumeral.ne_nil {cs : List Char} (h : IsNumeral cs) : cs ≠ [] := by
  cases h with
  | plain h =>
      obtain ⟨c, rest, rfl, -⟩ := h.head
      exact List.cons_ne_nil c rest
  | minus h => exact List.cons_ne_nil _ _

/-- The lexemes that stand for items of values. -/
def isItem : Token → Bool
  | .number | .dimension | .ident | .hexColor | .doubleQuoted | .singleQuoted | .comma => true
  | _ => false

theorem Denotes.isItem {t : Lexeme} {term : Term} (h : Denotes t term) :
    isItem t.token = true := by
  cases h with
  | number ht _ | dimension ht _ _ _ | ident ht | color ht | comma ht => simp [Css.isItem, ht]
  | string ht => rcases ht with ht | ht <;> simp [Css.isItem, ht]

namespace Lexeme.IsCut

variable {t : Lexeme} (h : t.IsCut)
include h

theorem pattern : ∃ cs, t.token.pattern cs ≠ 0 ∧ t.chars = cs.take (t.token.pattern cs) := by
  obtain ⟨cs, n, hlongest, hchars⟩ := h
  obtain ⟨hpos, rfl, -⟩ := longest_eq_some hlongest
  exact ⟨cs, Nat.ne_of_gt hpos, hchars⟩

theorem isNumeral (ht : t.token = .number) : IsNumeral t.chars := by
  obtain ⟨cs, hne, hchars⟩ := h.pattern
  rw [ht] at hne hchars
  rw [hchars]
  exact Pattern.number_sound hne

theorem exists_measure (ht : t.token = .dimension) :
    ∃ measure unit, IsNumeral measure ∧ unit ∈ Pattern.units ∧ t.chars = measure ++ unit := by
  obtain ⟨cs, hne, hchars⟩ := h.pattern
  rw [ht] at hne hchars
  rw [hchars]
  exact Pattern.dimension_sound hne

theorem splitMeasure {measure unit : List Char} (ht : t.token = .dimension)
    (hunit : unit ∈ Pattern.units) (hchars : t.chars = measure ++ unit) :
    IsNumeral measure ∧ Dimension.splitMeasure t.chars = (measure, unit) := by
  obtain ⟨measure', unit', hmeasure', hunit', hchars'⟩ := h.exists_measure ht
  have hsame : unit = unit' := by
    rcases List.suffix_or_suffix_of_suffix ⟨measure, hchars.symm⟩ ⟨measure', hchars'.symm⟩
      with hsuffix | hsuffix
    · exact units_unique unit hunit unit' hunit' hsuffix
    · exact (units_unique unit' hunit' unit hunit hsuffix).symm
  subst hsame
  obtain rfl := List.append_cancel_right (hchars.symm.trans hchars')
  rw [hchars]
  exact ⟨hmeasure', hmeasure'.splitMeasure hunit⟩

private theorem readTerm_dimension {measure unit : List Char} (ht : t.token = .dimension)
    (hunit : unit ∈ Pattern.units) (hchars : t.chars = measure ++ unit) :
    readTerm t = (do
      let x ← readMeasure (.badMeasure (String.ofList measure)) measure
      return .dimension x (String.ofList unit)) := by
  obtain ⟨hmeasure, hsplit⟩ := h.splitMeasure ht hunit hchars
  simp only [readTerm, ht, hsplit]
  rw [if_neg (by simp [hmeasure.ne_nil, (units_head unit hunit).1])]

/-- An item of a value is read exactly as it is meant. -/
theorem readTerm_eq_ok {term : Term} : readTerm t = .ok term ↔ Denotes t term := by
  constructor
  · intro hread
    cases ht : t.token with
    | number =>
        rw [readTerm, ht] at hread
        obtain ⟨x, hx, heq⟩ := bind_eq_ok.1 hread
        obtain rfl := pure_eq_ok.1 heq
        exact .number ht (readMeasure_eq_ok.1 hx)
    | dimension =>
        obtain ⟨measure, unit, -, hunit, hchars⟩ := h.exists_measure ht
        rw [h.readTerm_dimension ht hunit hchars] at hread
        obtain ⟨x, hx, heq⟩ := bind_eq_ok.1 hread
        obtain rfl := pure_eq_ok.1 heq
        exact .dimension ht hunit hchars (readMeasure_eq_ok.1 hx)
    | ident =>
        obtain rfl := Except.ok.inj (by simpa only [readTerm, ht] using hread)
        exact .ident ht
    | hexColor =>
        obtain rfl := Except.ok.inj (by simpa only [readTerm, ht] using hread)
        exact .color ht
    | doubleQuoted =>
        obtain rfl := Except.ok.inj (by simpa only [readTerm, ht] using hread)
        exact .string (.inl ht)
    | singleQuoted =>
        obtain rfl := Except.ok.inj (by simpa only [readTerm, ht] using hread)
        exact .string (.inr ht)
    | comma =>
        obtain rfl := Except.ok.inj (by simpa only [readTerm, ht] using hread)
        exact .comma ht
    | _ => simp [readTerm, ht] at hread
  · intro hmeans
    cases hmeans with
    | number ht hx => simp [readTerm, ht, readMeasure_eq_ok.2 hx]
    | dimension ht hunit hchars hx =>
        rw [h.readTerm_dimension ht hunit hchars, readMeasure_eq_ok.2 hx]
        rfl
    | ident ht | color ht | comma ht => simp [readTerm, ht]
    | string ht => rcases ht with ht | ht <;> simp [readTerm, ht]

theorem denotes (hitem : isItem t.token = true) : ∃ term, Denotes t term := by
  cases ht : t.token with
  | number =>
      obtain ⟨x, hx⟩ := Option.isSome_iff_exists.1 ((h.isNumeral ht).readChars .single)
      exact ⟨_, .number ht hx⟩
  | dimension =>
      obtain ⟨measure, unit, hmeasure, hunit, hchars⟩ := h.exists_measure ht
      obtain ⟨x, hx⟩ := Option.isSome_iff_exists.1 (hmeasure.readChars .single)
      exact ⟨_, .dimension ht hunit hchars hx⟩
  | ident => exact ⟨_, .ident ht⟩
  | hexColor => exact ⟨_, .color ht⟩
  | doubleQuoted => exact ⟨_, .string (.inl ht)⟩
  | singleQuoted => exact ⟨_, .string (.inr ht)⟩
  | comma => exact ⟨_, .comma ht⟩
  | _ => simp [ht, Css.isItem] at hitem

end Lexeme.IsCut

/-! ## The bytes of lexemes -/

/-- A lexeme with the byte at which it starts. -/
structure Piece where
  token : Token
  chars : List Char
  start : Nat
deriving DecidableEq, Repr

def byteCount (cs : List Char) : Nat :=
  cs.foldr (fun c n => c.utf8Size + n) 0

def Piece.stop (piece : Piece) : Nat :=
  piece.start + byteCount piece.chars

/-- The pieces of a text that starts at a byte, of which the first `skip` characters belong to a
piece already cut. -/
def piecesFrom (start : Nat) : (skip : Nat) → List Char → List Piece
  | _, [] => []
  | skip + 1, c :: cs => piecesFrom (start + c.utf8Size) skip cs
  | 0, c :: cs =>
    if isSpace c then piecesFrom (start + c.utf8Size) 0 cs
    else match longest (c :: cs) with
      | some (token, count) =>
        ⟨token, (c :: cs).take count, start⟩ :: piecesFrom (start + c.utf8Size) (count - 1) cs
      | none => if c = '"' || c = '\'' then [] else piecesFrom (start + c.utf8Size) 0 cs

def pieces (cs : List Char) : List Piece :=
  piecesFrom 0 0 cs

/-- The lexemes that pieces are after one that ends at `front`: a piece is joined to the one in
front of it exactly if it starts where that one ends. -/
def marked (front : Option Nat) : List Piece → List Lexeme
  | [] => []
  | piece :: more => ⟨piece.token, piece.chars, front = some piece.start⟩ :: marked piece.stop more

/-- What is in front of a place in a text ends at the place or before it, and `joined` tells
which. -/
private def Fronts (front : Option Nat) (place : Nat) (joined : Bool) : Prop :=
  joined = decide (front = some place) ∧ ∀ stop ∈ front, stop ≤ place

private theorem Fronts.pass {front : Option Nat} {place : Nat} {joined : Bool}
    (h : Fronts front place joined) (c : Char) : Fronts front (place + c.utf8Size) false := by
  have hpos := c.utf8Size_pos
  refine ⟨?_, fun stop hstop => Nat.le_trans (h.2 stop hstop) (Nat.le_add_right _ _)⟩
  symm
  rw [decide_eq_false_iff_not]
  intro heq
  have := h.2 _ heq
  omega

private theorem lexFrom_eq {front : Option Nat} {start skip : Nat} {joined : Bool} {cs : List Char}
    (h : Fronts front (start + byteCount (cs.take skip)) joined) :
    lexFrom joined skip cs = marked front (piecesFrom start skip cs) := by
  induction joined, skip, cs using lexFrom.induct generalizing front start with
  | case1 => simp [lexFrom, piecesFrom, marked]
  | case2 joined skip c cs ih =>
      simp only [lexFrom, piecesFrom]
      apply ih
      simpa [byteCount, Nat.add_assoc] using h
  | case3 joined c cs hspace ih =>
      simp only [lexFrom, piecesFrom, if_pos hspace]
      exact ih (by simpa [byteCount] using h.pass c)
  | case4 joined c cs hspace token count hlongest ih =>
      obtain ⟨n, rfl⟩ := Nat.exists_eq_add_one.2 (longest_eq_some hlongest).1
      have hjoined : joined = decide (front = some start) := h.1
      have hstop : Fronts (some (start + byteCount (c :: cs.take n)))
          (start + c.utf8Size + byteCount (cs.take n)) true := by
        simp [Fronts, byteCount, Nat.add_assoc]
      simp only [lexFrom, piecesFrom, if_neg hspace, hlongest, marked, Piece.stop, ← hjoined,
        Nat.add_sub_cancel, List.take_succ_cons]
      exact congrArg _ (ih hstop)
  | case5 joined c cs hspace hlongest hquote =>
      simp only [lexFrom, piecesFrom, if_neg hspace, hlongest, if_pos hquote, marked]
  | case6 joined c cs hspace hlongest hquote ih =>
      simp only [lexFrom, piecesFrom, if_neg hspace, hlongest, if_neg hquote]
      exact ih (by simpa [byteCount] using h.pass c)

/-- The lexemes of a text are its pieces, marked where one starts at the byte at which the one in
front of it ends. -/
theorem lex_eq_marked (cs : List Char) : lex cs = marked none (pieces cs) :=
  lexFrom_eq ⟨rfl, by simp⟩

private theorem lexFrom_isCut {joined : Bool} {skip : Nat} {cs : List Char} :
    ∀ t ∈ lexFrom joined skip cs, t.IsCut := by
  induction joined, skip, cs using lexFrom.induct with
  | case1 => simp [lexFrom]
  | case2 joined skip c cs ih => simpa only [lexFrom] using ih
  | case3 joined c cs hspace ih => simpa only [lexFrom, if_pos hspace] using ih
  | case4 joined c cs hspace token count hlongest ih =>
      simp only [lexFrom, if_neg hspace, hlongest, List.forall_mem_cons]
      exact ⟨⟨c :: cs, count, hlongest, rfl⟩, ih⟩
  | case5 joined c cs hspace hlongest hquote =>
      simp only [lexFrom, if_neg hspace, hlongest, if_pos hquote, List.not_mem_nil,
        IsEmpty.forall_iff, implies_true]
  | case6 joined c cs hspace hlongest hquote ih =>
      simpa only [lexFrom, if_neg hspace, hlongest, if_neg hquote] using ih

theorem lex_isCut (cs : List Char) : ∀ t ∈ lex cs, t.IsCut :=
  lexFrom_isCut

end ReportModel.Css
