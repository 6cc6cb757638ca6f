import ReportModel.Proofs.Css.Spelling

/-!
# Stability of lexemes

Which lexemes a text is cut into, said without the lexer. The only texts of lexemes with a blank in
them are quoted ones, and those end at the second quote. So a blank behind a lexeme keeps it as it
is, and lexemes written down with blanks in between are cut again as they were.
-/

namespace ReportModel.Css

variable {token other : Token} {cs ds es rest : List Char} {c quote : Char}
  {ts : List (Token × List Char)}

/-- The lexemes of a text with their sorts: the longest text at each place, where any sort has one.
A quote that starts no lexeme ends the text, and any other such character is passed over. -/
inductive Lexes : List Char → List (Token × List Char) → Prop
  | nil : Lexes [] []
  | space {c : Char} {cs : List Char} {ts : List (Token × List Char)} (hc : isSpace c = true)
    (h : Lexes cs ts) : Lexes (c :: cs) ts
  | lexeme {token : Token} {ds rest : List Char} {ts : List (Token × List Char)}
    (hds : Foremost token ds rest) (h : Lexes rest ts) : Lexes (ds ++ rest) ((token, ds) :: ts)
  | unclosed {c : Char} {cs : List Char} (hc : c = '"' ∨ c = '\'')
    (hnone : ∀ token ds, Spells token ds → ¬ ds <+: c :: cs) : Lexes (c :: cs) []
  | dropped {c : Char} {cs : List Char} {ts : List (Token × List Char)} (hspace : isSpace c = false)
    (hquote : ¬ (c = '"' ∨ c = '\'')) (hnone : ∀ token ds, Spells token ds → ¬ ds <+: c :: cs)
    (h : Lexes cs ts) : Lexes (c :: cs) ts

def Lexeme.cut (t : Lexeme) : Token × List Char :=
  (t.token, t.chars)

theorem Lexes.eq_lexFrom (h : Lexes cs ts) (joined : Bool) :
    ts = (lexFrom joined 0 cs).map Lexeme.cut := by
  induction h generalizing joined with
  | nil => rfl
  | space hc _ ih => simpa [lexFrom, hc] using ih false
  | lexeme hds _ ih =>
      obtain ⟨n, hlongest, htake, hdrop⟩ := hds.exists_longest
      rw [lexFrom_eq_cons joined hlongest, htake, hdrop, List.map_cons, ← ih true, Lexeme.cut]
  | unclosed hc hnone =>
      have hlongest := longest_eq_none_iff.2 hnone
      rcases hc with rfl | rfl <;> simp [lexFrom, isSpace, hlongest]
  | dropped hspace hquote hnone _ ih =>
      have hlongest := longest_eq_none_iff.2 hnone
      obtain ⟨hdouble, hsingle⟩ := not_or.1 hquote
      simpa [lexFrom, hspace, hlongest, hdouble, hsingle] using ih false

theorem lexes_lexFrom (joined : Bool) (skip : Nat) (cs : List Char) :
    Lexes (cs.drop skip) ((lexFrom joined skip cs).map Lexeme.cut) := by
  fun_induction lexFrom joined skip cs with
  | case1 => simpa using Lexes.nil
  | case2 joined skip c cs ih => exact ih
  | case3 joined c cs hspace ih => exact .space hspace ih
  | case4 joined c cs hspace token count hlongest ih =>
      obtain ⟨n, rfl⟩ := Nat.exists_eq_add_one.2 (longest_eq_some hlongest).1
      have hlexeme := Lexes.lexeme (foremost_of_longest hlongest) ih
      rw [List.take_append_drop] at hlexeme
      exact hlexeme
  | case5 joined c cs hspace hlongest hquote =>
      exact .unclosed (by simpa using hquote) (longest_eq_none_iff.1 hlongest)
  | case6 joined c cs hspace hlongest hquote ih =>
      exact .dropped (by simpa using hspace) (by simpa using hquote)
        (longest_eq_none_iff.1 hlongest) ih

theorem lexes_iff : Lexes cs ts ↔ ts = (lex cs).map Lexeme.cut := by
  constructor
  · exact fun h => h.eq_lexFrom false
  · rintro rfl
    exact lexes_lexFrom false 0 cs

/-! ## Blanks -/

/-- The only texts with a blank in them are quoted. -/
theorem Spells.isQuote_of_blank (h : Spells token cs) (hblank : ' ' ∈ cs) :
    ∃ quote, IsQuote quote token := by
  have hpart {cs : List Char} (hcs : ∀ c ∈ cs, isIdentPart c = true) : ' ' ∉ cs := fun hmem =>
    absurd (hcs ' ' hmem) (by decide)
  have hnumeral {cs : List Char} (hcs : IsNumeral cs) : ' ' ∉ cs := by
    have hno : ¬ (' '.isDigit = true ∨ ' ' = '.') := by decide
    cases hcs with
    | plain h => exact fun hmem => hno (h.isPart ' ' hmem)
    | minus h => simpa using fun hmem => hno (h.isPart ' ' hmem)
  have hunits : ∀ unit ∈ Pattern.units, ' ' ∉ unit := by decide
  cases h with
  | word hword =>
      have hwords : ∀ token : Token, ∀ word ∈ token.word?, ' ' ∉ word := by decide
      exact absurd hblank (hwords token cs hword)
  | hexColor hhex => simp [hpart (isIdentPart_of_isHex hhex)] at hblank
  | pseudoClass hname => simp [hpart (isIdentPart_of_isPseudoName hname)] at hblank
  | quoted hquote => exact ⟨_, hquote⟩
  | dimension hmeasure hunit => simp [hnumeral hmeasure, hunits _ hunit] at hblank
  | number h => exact absurd hblank (hnumeral h)
  | ident hident => exact absurd hblank (hpart (isIdentPart_of_isIdent hident))

theorem Spells.pattern_eq_of_quote (h : Spells token cs) (hquote : IsQuote quote token)
    (rest : List Char) : token.pattern (cs ++ rest) = cs.length := by
  cases h with
  | word hword => cases hquote <;> cases hword
  | quoted hquote' hcs =>
      rw [hquote'.pattern_eq, List.cons_append, List.append_assoc, List.singleton_append,
        Pattern.quoted_closed hcs]
      simp
  | _ => cases hquote

theorem Spells.eq_of_quote (h : Spells token ds) (hother : Spells other (ds ++ rest))
    (hquote : IsQuote quote other) : token = other := by
  obtain ⟨c, ds, rfl, hstart⟩ := h.exists_head
  obtain ⟨d, es, heq, hstart'⟩ := hother.exists_head
  obtain ⟨rfl, -⟩ := List.cons.inj heq
  have hc : c = quote := by
    cases hquote <;> exact of_decide_eq_true hstart'
  exact hquote.eq_of_mayStart token (hc ▸ hstart)

theorem Spells.foremost_blank (h : Spells token ds) (rest : List Char) :
    Foremost token ds (' ' :: rest) := by
  refine ⟨h, fun {other es} hes hfront => ?_⟩
  by_contra hlonger
  obtain ⟨more, rfl⟩ : ds ++ [' '] <+: es := by
    refine List.prefix_of_prefix_length_le ⟨rest, by simp⟩ hfront ?_
    rw [List.length_append, List.length_singleton]
    omega
  -- with the blank in it the longer text is quoted, but then it ends before the blank
  obtain ⟨quote, hquote⟩ := hes.isQuote_of_blank (by simp)
  rw [List.append_assoc] at hes hlonger
  obtain rfl := h.eq_of_quote hes hquote
  have hlength := hes.length_le_pattern []
  rw [List.append_nil, h.pattern_eq_of_quote hquote] at hlength
  exact hlonger hlength

theorem Spells.foremost_nil (h : Spells token ds) : Foremost token ds [] :=
  ⟨h, fun _ hfront => by simpa using hfront.length_le⟩

/-! ## Stability -/

/-- The texts of some lexemes with one blank between each and the next. -/
def spaced (ts : List (Token × List Char)) : List Char :=
  [' '].intercalate (ts.map (·.2))

theorem Lexes.spells (h : Lexes cs ts) : ∀ t ∈ ts, Spells t.1 t.2 := by
  induction h with
  | nil | unclosed => simp
  | space _ _ ih | dropped _ _ _ _ ih => exact ih
  | lexeme hds _ ih => exact List.forall_mem_cons.2 ⟨hds.spells, ih⟩

theorem lexes_spaced (h : ∀ t ∈ ts, Spells t.1 t.2) : Lexes (spaced ts) ts := by
  induction ts with
  | nil => exact .nil
  | cons t ts ih =>
      obtain ⟨ht, hts⟩ := List.forall_mem_cons.1 h
      cases ts with
      | nil =>
          have hlexeme := Lexes.lexeme ht.foremost_nil .nil
          simpa [spaced] using hlexeme
      | cons u ts =>
          have hmore := Lexes.space (c := ' ') rfl (ih hts)
          have hlexeme := Lexes.lexeme (ht.foremost_blank _) hmore
          simpa [spaced, List.intercalate] using hlexeme

/-- A text is cut into the longest lexemes, and lexemes that are written down with blanks in between
are cut again as they were. -/
theorem lex_spaced (cs : List Char) :
    (∀ ts, Lexes cs ts ↔ ts = (lex cs).map Lexeme.cut) ∧
    (lex (spaced ((lex cs).map Lexeme.cut))).map Lexeme.cut = (lex cs).map Lexeme.cut := by
  have hlexes : Lexes cs ((lex cs).map Lexeme.cut) := lexes_iff.2 rfl
  exact ⟨fun ts => lexes_iff, (lexes_iff.1 (lexes_spaced hlexes.spells)).symm⟩

end ReportModel.Css
