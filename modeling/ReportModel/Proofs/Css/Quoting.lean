import ReportModel.Proofs.Css.Comments
import ReportModel.Proofs.Css.Cutting
import ReportModel.Proofs.Css.Reading

/-!
# Quoted texts

A quoted text goes on up to the next quote of its sort, whatever stands in between. But comments are
taken away before a stylesheet is cut, also those that seem to open between quotes. So a quoted text
is read as it is written exactly if the mark that opens a comment is not in there. A comment that is
still open at the second quote takes that quote with it, and all the rest.
-/

namespace ReportModel.Css

variable {quote : Char} {token : Token} {cs : List Char} {s : String}

/-- The quotes and the sorts of lexemes between them. -/
inductive IsQuote : Char → Token → Prop
  | double : IsQuote '"' .doubleQuoted
  | single : IsQuote '\'' .singleQuoted

namespace IsQuote

theorem pattern_eq (h : IsQuote quote token) (cs : List Char) :
    token.pattern cs = Pattern.quoted quote cs := by
  cases h <;> rfl

theorem eq_of_mayStart (h : IsQuote quote token) :
    ∀ other : Token, other.mayStart quote = true → other = token := by
  cases h <;> decide

theorem notMem_stripComments (h : IsQuote quote token) (hcs : quote ∉ cs) :
    quote ∉ stripComments cs := by
  have hspace : quote ≠ ' ' := by cases h <;> decide
  exact fun hmem => (mem_stripFrom hmem).elim hcs hspace

end IsQuote

private theorem ne_of_notMem (hcs : quote ∉ cs) : ∀ c ∈ cs, decide (c ≠ quote) = true := by
  rintro c hc
  exact decide_eq_true fun heq => hcs (heq ▸ hc)

theorem Pattern.quoted_closed (hcs : quote ∉ cs) (rest : List Char) :
    quoted quote (quote :: (cs ++ quote :: rest)) = cs.length + 2 := by
  have hbody : run (· ≠ quote) (cs ++ quote :: rest) = cs.length :=
    run_append (ne_of_notMem hcs) (by rintro c ⟨⟩; simp)
  have hlt : cs.length < (cs ++ quote :: rest).length := by
    simp
  rw [quoted, if_pos rfl]
  simp only [hbody, if_pos hlt, Nat.add_comm]

theorem Pattern.quoted_open (hcs : quote ∉ cs) : quoted quote (quote :: cs) = 0 := by
  have hbody : run (· ≠ quote) (cs ++ []) = cs.length :=
    run_append (ne_of_notMem hcs) (by rintro c ⟨⟩)
  rw [List.append_nil] at hbody
  rw [quoted, if_pos rfl]
  simp only [hbody, Nat.lt_irrefl, if_false]

theorem lexFrom_quoted (h : IsQuote quote token) (hcs : quote ∉ cs) (joined : Bool)
    (rest : List Char) : lexFrom joined 0 (quote :: (cs ++ quote :: rest)) =
      ⟨token, quote :: (cs ++ [quote]), joined⟩ :: lexFrom true 0 rest := by
  have hlongest : longest (quote :: (cs ++ [quote]) ++ rest) =
      some (token, (quote :: (cs ++ [quote])).length) := by
    have hpattern : token.pattern (quote :: (cs ++ [quote]) ++ rest) =
        (quote :: (cs ++ [quote])).length := by
      rw [h.pattern_eq]
      simpa using Pattern.quoted_closed hcs rest
    exact longest_cons_eq hpattern (Nat.succ_pos _) fun other hother hne =>
      absurd (h.eq_of_mayStart other hother) hne
  simpa using lexFrom_of_longest joined hlongest

/-- Nothing is cut from a quote on that is the last one of its sort. -/
theorem lexFrom_open (h : IsQuote quote token) (hcs : quote ∉ cs) (joined : Bool) :
    lexFrom joined 0 (quote :: cs) = [] := by
  have hlongest : longest (quote :: cs) = none := longest_cons_eq_none fun other hother => by
    rw [h.eq_of_mayStart other hother, h.pattern_eq, Pattern.quoted_open hcs]
  cases h <;> simp [lexFrom, isSpace, hlongest]

/-! ## The font of a class -/

/-- A stylesheet that gives a class a quoted text as its font. -/
def fontSheet (quote : Char) (s : String) : String :=
  ".A \x7b font-family: " ++ String.singleton quote ++ s ++ String.singleton quote ++ "; \x7d"

def fontRule (s : String) : Rule :=
  ⟨[.compound [.ofClass "A"]], [⟨"font-family", [.string s], false⟩]⟩

def fontProperty : List Char :=
  ['f', 'o', 'n', 't', '-', 'f', 'a', 'm', 'i', 'l', 'y']

/-- The stylesheet in front of the first quote. -/
def fontOpening : List Char :=
  ['.', 'A', ' ', '{', ' '] ++ fontProperty ++ [':', ' ']

def fontLexemes : List Lexeme :=
  [⟨.dot, ['.'], false⟩, ⟨.ident, ['A'], true⟩, ⟨.braceOpen, ['{'], false⟩,
    ⟨.ident, fontProperty, false⟩, ⟨.colon, [':'], true⟩]

theorem lex_fontOpening (rest : List Char) :
    lex (fontOpening ++ rest) = fontLexemes ++ lexFrom false 0 rest := by
  rfl

theorem toList_fontSheet : (fontSheet quote s).toList =
    fontOpening ++ quote :: (s.toList ++ quote :: [';', ' ', '}']) := by
  have hopening : ".A \x7b font-family: ".toList = fontOpening := by decide +kernel
  have hclosing : "; \x7d".toList = [';', ' ', '}'] := by decide
  unfold fontSheet
  simp only [String.toList_append, hopening, hclosing, String.toList_singleton, List.append_assoc,
    List.cons_append, List.nil_append]

/-- Comments are taken away between the quotes as elsewhere, and with the second quote if one is
still open there. -/
theorem stripComments_fontSheet (h : IsQuote quote token) :
    stripComments (fontSheet quote s).toList = fontOpening ++ quote :: (stripComments s.toList ++
      if endsInside false s.toList then [] else quote :: [';', ' ', '}']) := by
  have hstar : quote ≠ '*' := by cases h <;> decide
  have hslash : quote ≠ '/' := by cases h <;> decide
  have htail : stripFrom (endsInside false s.toList) (quote :: [';', ' ', '}']) =
      if endsInside false s.toList then [] else quote :: [';', ' ', '}'] := by
    cases h <;> cases endsInside false s.toList <;> rfl
  have hbody : stripFrom false (quote :: (s.toList ++ quote :: [';', ' ', '}'])) =
      quote :: (stripComments s.toList ++
        if endsInside false s.toList then [] else quote :: [';', ' ', '}']) := by
    rw [stripFrom_cons hstar hslash, stripFrom_append hstar hslash, htail]
    rfl
  rw [toList_fontSheet, stripComments, stripFrom_append hstar hslash]
  exact congrArg (fontOpening ++ ·) hbody

def fontClosing : List Lexeme :=
  [⟨.semicolon, [';'], true⟩, ⟨.braceClose, ['}'], false⟩]

theorem isSheet_font (h : IsQuote quote token) (cs : List Char) :
    IsSheet (fontLexemes ++ ⟨token, quote :: (cs ++ [quote]), false⟩ :: fontClosing)
      [fontRule (String.ofList cs)] := by
  have hclass : IsSelectors [⟨.dot, ['.'], false⟩, ⟨.ident, ['A'], true⟩]
      [.compound [.ofClass "A"]] :=
    .single (.compound (.mk (.qualifier (.ofClass rfl rfl)) .nil))
  have hquoted : Denotes ⟨token, quote :: (cs ++ [quote]), false⟩ (.string (String.ofList cs)) := by
    have hstring : Denotes ⟨token, quote :: (cs ++ [quote]), false⟩ _ :=
      .string (by cases h <;> simp)
    simpa using hstring
  have hopening : IsOpening [⟨.ident, fontProperty, false⟩, ⟨.colon, [':'], true⟩]
      "font-family" [] := .colon rfl rfl
  have hclosing : IsClosing [⟨.semicolon, [';'], true⟩] false := .semicolon rfl
  have hbraceOpen : Lexeme.token ⟨.braceOpen, ['{'], false⟩ = .braceOpen := rfl
  have hbraceClose : Lexeme.token ⟨.braceClose, ['}'], false⟩ = .braceClose := rfl
  have hblock := IsBlock.declaration hopening (.cons hquoted .nil) hclosing .nil
  have hsheet := IsSheet.cons (IsRule.mk hclass hbraceOpen hblock hbraceClose) .nil
  exact hsheet

theorem readRules_fontSheet_closed (h : IsQuote quote token) (hs : quote ∉ s.toList)
    (hends : endsInside false s.toList = false) :
    readRules (fontSheet quote s) = .ok [fontRule (String.ofList (stripComments s.toList))] := by
  have hbody := h.notMem_stripComments hs
  have hlex : lex (stripComments (fontSheet quote s).toList) = fontLexemes ++
      ⟨token, quote :: (stripComments s.toList ++ [quote]), false⟩ :: fontClosing := by
    rw [stripComments_fontSheet h, hends, lex_fontOpening]
    exact congrArg (fontLexemes ++ ·) (lexFrom_quoted h hbody false _)
  rw [readRules_eq_ok, hlex]
  exact isSheet_font h _

theorem readRules_fontSheet_open (h : IsQuote quote token) (hs : quote ∉ s.toList)
    (hends : endsInside false s.toList = true) :
    readRules (fontSheet quote s) = .error (.ended (.token .braceClose)) := by
  have hbody := h.notMem_stripComments hs
  have hlex : lex (stripComments (fontSheet quote s).toList) = fontLexemes := by
    rw [stripComments_fontSheet h, hends, if_pos rfl, List.append_nil, lex_fontOpening,
      lexFrom_open h hbody, List.append_nil]
  rw [readRules, hlex]
  decide +kernel

/-- A quoted text is read as it is written if and only if no comment seems to open in it. Otherwise
it is read without the comments, or not at all if the last one of them is still open at its end. -/
theorem readRules_fontSheet (hquote : quote = '"' ∨ quote = '\'') (hs : quote ∉ s.toList) :
    (readRules (fontSheet quote s) = .ok [fontRule s] ↔ ¬ ['/', '*'] <:+: s.toList) ∧
    readRules (fontSheet quote s) =
      if endsInside false s.toList then .error (.ended (.token .braceClose))
      else .ok [fontRule (String.ofList (stripComments s.toList))] := by
  obtain ⟨token, h⟩ : ∃ token, IsQuote quote token := by
    rcases hquote with rfl | rfl
    exacts [⟨_, .double⟩, ⟨_, .single⟩]
  have hread : readRules (fontSheet quote s) =
      if endsInside false s.toList then .error (.ended (.token .braceClose))
      else .ok [fontRule (String.ofList (stripComments s.toList))] := by
    cases hends : endsInside false s.toList with
    | true => exact readRules_fontSheet_open h hs hends
    | false => exact readRules_fontSheet_closed h hs hends
  refine ⟨⟨fun hverbatim hmark => ?_, fun hmark => ?_⟩, hread⟩
  · rw [hread] at hverbatim
    split at hverbatim
    · cases hverbatim
    · have hsame : String.ofList (stripComments s.toList) = s := by
        simpa [fontRule] using hverbatim
      have hself := congrArg String.toList hsame
      rw [String.toList_ofList] at hself
      exact stripComments_eq_self_iff.1 hself hmark
  · obtain ⟨hself, hends⟩ := stripComments_of_unopened hmark
    rw [hread, hends, hself, String.ofList_toList]
    rfl

/-- A comment that ends in a quoted text is a blank of it. One that does not end takes the block
with it. -/
theorem readRules_fontSheet_globs :
    readRules (fontSheet '"' "Arial /* or */ Sans") = .ok [fontRule "Arial   Sans"] ∧
    readRules (fontSheet '\'' "fonts/*.ttf") = .error (.ended (.token .braceClose)) ∧
    readRules (fontSheet '\'' "\x7b*/\x7d;\"") = .ok [fontRule "\x7b*/\x7d;\""] := by
  obtain ⟨-, hends⟩ := readRules_fontSheet (s := "Arial /* or */ Sans") (Or.inl rfl) (by decide)
  obtain ⟨-, hopen⟩ := readRules_fontSheet (s := "fonts/*.ttf") (Or.inr rfl) (by decide)
  obtain ⟨hiff, -⟩ := readRules_fontSheet (s := "\x7b*/\x7d;\"") (Or.inr rfl) (by decide)
  refine ⟨hends.trans (by decide +kernel), hopen.trans (by decide +kernel), hiff.2 ?_⟩
  decide +kernel

/-- A text that only looks like it had a comment in it is not read as it is written. -/
theorem readRules_fontSheet_commented : '"' ∉ "a/*b*/c".toList ∧
    readRules (fontSheet '"' "a/*b*/c") = .ok [fontRule "a c"] ∧
    fontRule "a c" ≠ fontRule "a/*b*/c" := by
  decide +kernel

end ReportModel.Css
