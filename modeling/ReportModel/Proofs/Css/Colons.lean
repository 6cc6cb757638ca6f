import ReportModel.Proofs.Css.Comments
import ReportModel.Proofs.Css.Cutting
import ReportModel.Proofs.Css.Reading

/-!
# Colons of declarations

A name right behind the colon of a declaration is cut together with the colon, as a pseudo-class,
and is still read as the first item of the value. Anything else there is cut as it would be behind a
blank, except that it is joined to the colon, which counts for nothing in a block. So a blank behind
the colon changes nothing, whatever the value and the rest of the text are.
-/

namespace ReportModel.Css

/-! ## What follows an opening brace -/

/-- What follows an opening brace: a block with its closing brace, and more rules. -/
inductive IsOpened : List Lexeme → List Declaration → List Rule → Prop
  | mk {used rest : List Lexeme} {closed : Lexeme} {ds : List Declaration} {rules : List Rule}
    (hblock : IsBlock used ds) (hclosed : closed.token = .braceClose)
    (hmore : IsSheet rest rules) : IsOpened (used ++ closed :: rest) ds rules

/-- What follows the colon of a declaration: its items, its end, and the rest of the block and of
the sheet. The closing brace may be the end. -/
inductive IsValue : List Lexeme → List Term → Bool → List Declaration → List Rule → Prop
  | ended {vs ends rest : List Lexeme} {terms : List Term} {important : Bool}
    {ds : List Declaration} {rules : List Rule} (hterms : List.Forall₂ Denotes vs terms)
    (hclosing : IsClosing ends important) (hmore : IsOpened rest ds rules) :
    IsValue (vs ++ ends ++ rest) terms important ds rules
  | last {vs rest : List Lexeme} {closed : Lexeme} {terms : List Term} {rules : List Rule}
    (hterms : List.Forall₂ Denotes vs terms) (hclosed : closed.token = .braceClose)
    (hmore : IsSheet rest rules) : IsValue (vs ++ closed :: rest) terms false [] rules

variable {α : Type} {ts rest used : List Lexeme} {name t u : Lexeme} {ss : List Selector}
  {terms : List Term} {important joined : Bool} {ds : List Declaration} {rules : List Rule}
  {cs w : List Char}

/-- What a reader takes is determined by what it is given. -/
theorem Takes.unique {reader : (ts : List Lexeme) → Except Stop (Taken α ts)} {v v' : α}
    {rest' : List Lexeme} (h : Takes reader ts v rest) (h' : Takes reader ts v' rest') :
    v = v' ∧ rest = rest' := by
  obtain ⟨_, h⟩ := h
  obtain ⟨_, h'⟩ := h'
  cases h.symm.trans h'
  exact ⟨rfl, rfl⟩

theorem IsSelectors.takes {opened : Lexeme} (h : IsSelectors used ss)
    (hopened : opened.token = .braceOpen) :
    Takes takeSelectors (used ++ opened :: rest) ss (opened :: rest) := by
  refine takes_takeSelectors.2 ⟨used, h, rfl, ?_, ?_⟩
  · rintro _ ⟨⟩
    simp [hopened, startsCompound]
  · rintro _ ⟨⟩
    simp [hopened]

theorem isSheet_opened {opened : Lexeme} (hselectors : IsSelectors used ss)
    (hopened : opened.token = .braceOpen) : IsSheet (used ++ opened :: ts) rules ↔
      ∃ ds more, IsOpened ts ds more ∧ rules = ⟨ss, ds⟩ :: more := by
  have htakes : Takes takeSelectors (used ++ opened :: ts) ss (opened :: ts) :=
    hselectors.takes hopened
  constructor
  · intro h
    generalize hsource : used ++ opened :: ts = source at h htakes
    cases h with
    | nil => simp at hsource
    | @cons first more rule rules hrule hmore =>
        obtain @⟨front, block, opened', closed, ss', ds, hss', hopened', hblock, hclosed⟩ := hrule
        have hfront : front ++ opened' :: block ++ [closed] ++ more =
            front ++ opened' :: (block ++ closed :: more) := by simp
        rw [hfront] at htakes
        obtain ⟨rfl, heq⟩ := htakes.unique (hss'.takes hopened')
        obtain ⟨-, rfl⟩ := List.cons.inj heq
        exact ⟨ds, rules, .mk hblock hclosed hmore, rfl⟩
  · rintro ⟨ds, more, @⟨block, rest, _, _, closed, hblock, hclosed, hmore⟩, rfl⟩
    have hsheet := IsSheet.cons (IsRule.mk hselectors hopened hblock hclosed) hmore
    simpa using hsheet

theorem isOpened_cons (hname : name.token = .ident) : IsOpened (name :: t :: ts) ds rules ↔
    ∃ first terms important more, IsOpening [name, t] name.text first ∧
      IsValue ts terms important more rules ∧
      ds = ⟨name.text, first ++ terms, important⟩ :: more := by
  constructor
  · intro h
    generalize hsource : name :: t :: ts = source at h
    cases h with
    | @mk block rest ds rules closed hblock hclosed hmore =>
        cases hblock with
        | nil =>
            obtain ⟨rfl, -⟩ := List.cons.inj hsource
            simp [hname] at hclosed
        | semicolon hsemicolon _ =>
            obtain ⟨rfl, -⟩ := List.cons.inj hsource
            simp [hname] at hsemicolon
        | @declaration opening vs ends us _ _ _ _ _ hopening hterms hclosing hus =>
            obtain ⟨name', t', rfl, rfl, -⟩ := hopening.names
            simp only [List.cons_append, List.nil_append, List.cons.injEq] at hsource
            obtain ⟨rfl, rfl, rfl⟩ := hsource
            rw [List.append_assoc (vs ++ ends)]
            exact ⟨_, _, _, _, hopening, .ended hterms hclosing (.mk hus hclosed hmore), rfl⟩
        | @last opening vs _ _ _ hopening hterms =>
            obtain ⟨name', t', rfl, rfl, -⟩ := hopening.names
            simp only [List.cons_append, List.nil_append, List.cons.injEq] at hsource
            obtain ⟨rfl, rfl, rfl⟩ := hsource
            exact ⟨_, _, _, _, hopening, .last hterms hclosed hmore, rfl⟩
  · rintro ⟨first, terms, important, more, hopening, hvalue, rfl⟩
    cases hvalue with
    | ended hterms hclosing hmore =>
        obtain ⟨hblock, hclosed, hmore⟩ := hmore
        have hopened :=
          IsOpened.mk (IsBlock.declaration hopening hterms hclosing hblock) hclosed hmore
        simpa using hopened
    | last hterms hclosed hmore =>
        exact IsOpened.mk (IsBlock.last hopening hterms) hclosed hmore

theorem isValue_cons_ident (ht : t.token = .ident) :
    IsValue (t :: ts) terms important ds rules ↔
      ∃ more, IsValue ts more important ds rules ∧ terms = .ident t.text :: more := by
  have hitem {term : Term} (h : Denotes t term) : term = .ident t.text := by
    cases h <;> simp_all
  constructor
  · intro h
    generalize hsource : t :: ts = source at h
    cases h with
    | @ended rest terms important ds rules vs ends hterms hclosing hmore =>
        cases hterms with
        | nil =>
            cases hclosing <;> obtain ⟨rfl, -⟩ := List.cons.inj hsource <;> simp_all
        | @cons v _ vs terms hterm hterms =>
            obtain ⟨rfl, rfl⟩ := List.cons.inj hsource
            exact ⟨terms, .ended hterms hclosing hmore, by rw [hitem hterm]⟩
    | @last rest terms rules vs closed hterms hclosed hmore =>
        cases hterms with
        | nil =>
            obtain ⟨rfl, -⟩ := List.cons.inj hsource
            simp [ht] at hclosed
        | @cons v _ vs terms hterm hterms =>
            obtain ⟨rfl, rfl⟩ := List.cons.inj hsource
            exact ⟨terms, .last hterms hclosed hmore, by rw [hitem hterm]⟩
  · rintro ⟨more, hvalue, rfl⟩
    cases hvalue with
    | ended hterms hclosing hmore => exact .ended (.cons (.ident ht) hterms) hclosing hmore
    | last hterms hclosed hmore => exact .last (.cons (.ident ht) hterms) hclosed hmore

theorem isOpened_colon (hname : name.token = .ident) (ht : t.token = .colon) :
    IsOpened (name :: t :: ts) ds rules ↔ ∃ terms important more,
      IsValue ts terms important more rules ∧ ds = ⟨name.text, terms, important⟩ :: more := by
  rw [isOpened_cons hname]
  constructor
  · rintro ⟨first, terms, important, more, hopening, hvalue, rfl⟩
    cases hopening with
    | colon => exact ⟨terms, important, more, hvalue, rfl⟩
    | pseudo _ htoken => simp [ht] at htoken
  · rintro ⟨terms, important, more, hvalue, rfl⟩
    exact ⟨[], terms, important, more, .colon hname ht, hvalue, rfl⟩

theorem isOpened_pseudo (hname : name.token = .ident) (ht : t.token = .pseudoClass) :
    IsOpened (name :: t :: ts) ds rules ↔ ∃ terms important more,
      IsValue ts terms important more rules ∧
      ds = ⟨name.text, .ident t.tailText :: terms, important⟩ :: more := by
  rw [isOpened_cons hname]
  constructor
  · rintro ⟨first, terms, important, more, hopening, hvalue, rfl⟩
    cases hopening with
    | colon _ htoken => simp [ht] at htoken
    | pseudo => exact ⟨terms, important, more, hvalue, rfl⟩
  · rintro ⟨terms, important, more, hvalue, rfl⟩
    exact ⟨_, terms, important, more, .pseudo hname ht, hvalue, rfl⟩

/-- A pseudo-class in the place of the colon stands for a colon and the name. -/
theorem isOpened_pseudo_iff {colon : Lexeme} (hname : name.token = .ident)
    (ht : t.token = .pseudoClass) (hcolon : colon.token = .colon) (hu : u.token = .ident)
    (htext : u.text = t.tailText) :
    IsOpened (name :: t :: ts) ds rules ↔ IsOpened (name :: colon :: u :: ts) ds rules := by
  rw [isOpened_pseudo hname ht, isOpened_colon hname hcolon, ← htext]
  constructor
  · rintro ⟨terms, important, more, hvalue, rfl⟩
    exact ⟨_, important, more, (isValue_cons_ident hu).2 ⟨terms, hvalue, rfl⟩, rfl⟩
  · rintro ⟨all, important, more, hvalue, rfl⟩
    obtain ⟨terms, hterms, rfl⟩ := (isValue_cons_ident hu).1 hvalue
    exact ⟨terms, important, more, hterms, rfl⟩

theorem Denotes.of_same {term : Term} (h : Denotes t term) (htoken : u.token = t.token)
    (hchars : u.chars = t.chars) : Denotes u term := by
  obtain ⟨token, chars, joined⟩ := t
  obtain ⟨token', chars', joined'⟩ := u
  obtain rfl : token' = token := htoken
  obtain rfl : chars' = chars := hchars
  cases h with
  | number ht hx => exact .number ht hx
  | dimension ht hunits htext hx => exact .dimension ht hunits htext hx
  | ident ht => exact .ident ht
  | color ht => exact .color ht
  | string ht => exact .string ht
  | comma ht => exact .comma ht

theorem IsClosing.of_same (h : IsClosing (t :: ts) important) (htoken : u.token = t.token) :
    IsClosing (u :: ts) important := by
  cases h with
  | important ht => exact .important (htoken.trans ht)
  | importantSemicolon ht hsemicolon => exact .importantSemicolon (htoken.trans ht) hsemicolon
  | semicolon ht => exact .semicolon (htoken.trans ht)

/-- Whether the first lexeme of a value is joined to the colon counts for nothing. -/
theorem IsValue.of_same (h : IsValue (t :: ts) terms important ds rules)
    (htoken : u.token = t.token) (hchars : u.chars = t.chars) :
    IsValue (u :: ts) terms important ds rules := by
  generalize hsource : t :: ts = source at h
  cases h with
  | @ended vs ends rest terms important ds rules hterms hclosing hmore =>
      cases hterms with
      | nil =>
          obtain ⟨e, es, rfl⟩ : ∃ e es, ends = e :: es := by
            cases hclosing <;> exact ⟨_, _, rfl⟩
          obtain ⟨rfl, rfl⟩ := List.cons.inj hsource
          have hvalue : IsValue ([] ++ (u :: es) ++ rest) [] important ds rules :=
            .ended .nil (hclosing.of_same htoken) hmore
          exact hvalue
      | @cons v term vs terms hterm hterms =>
          obtain ⟨rfl, rfl⟩ := List.cons.inj hsource
          exact .ended (.cons (hterm.of_same htoken hchars) hterms) hclosing hmore
  | @last vs rest closed terms rules hterms hclosed hmore =>
      cases hterms with
      | nil =>
          obtain ⟨rfl, rfl⟩ := List.cons.inj hsource
          have hvalue : IsValue ([] ++ u :: ts) [] false [] rules :=
            .last .nil (htoken.trans hclosed) hmore
          exact hvalue
      | @cons v term vs terms hterm hterms =>
          obtain ⟨rfl, rfl⟩ := List.cons.inj hsource
          exact .last (.cons (hterm.of_same htoken hchars) hterms) hclosed hmore

theorem isOpened_joined {colon : Lexeme} (hname : name.token = .ident)
    (hcolon : colon.token = .colon) (htoken : u.token = t.token) (hchars : u.chars = t.chars) :
    IsOpened (name :: colon :: t :: ts) ds rules ↔
      IsOpened (name :: colon :: u :: ts) ds rules := by
  rw [isOpened_colon hname hcolon, isOpened_colon hname hcolon]
  constructor
  · rintro ⟨terms, important, more, hvalue, rfl⟩
    exact ⟨terms, important, more, hvalue.of_same htoken hchars, rfl⟩
  · rintro ⟨terms, important, more, hvalue, rfl⟩
    exact ⟨terms, important, more, hvalue.of_same htoken.symm hchars.symm, rfl⟩

/-! ## Cutting a colon -/

theorem lexFrom_blank (joined : Bool) (w : List Char) :
    lexFrom joined 0 (' ' :: w) = lexFrom false 0 w := by
  rw [lexFrom, if_pos (by decide)]

/-- Whether a text is joined to what is in front of it shows in its first lexeme only. -/
theorem lexFrom_joined (w : List Char) :
    (∃ token chars ts, ∀ joined, lexFrom joined 0 w = ⟨token, chars, joined⟩ :: ts) ∨
      ∃ ts, ∀ joined, lexFrom joined 0 w = ts := by
  cases w with
  | nil => exact Or.inr ⟨[], fun joined => by rw [lexFrom]⟩
  | cons c w =>
      cases hspace : isSpace c with
      | true => exact Or.inr ⟨_, fun joined => by rw [lexFrom, if_pos hspace]⟩
      | false =>
          cases hlongest : longest (c :: w) with
          | some best =>
              exact Or.inl ⟨_, _, _, fun joined => by
                rw [lexFrom, if_neg (by simp [hspace]), hlongest]⟩
          | none =>
              exact Or.inr ⟨_, fun joined => by
                rw [lexFrom, if_neg (by simp [hspace]), hlongest]⟩

theorem longest_colon (hw : ∀ c ∈ w.head?, c.isAlpha = false) :
    longest (':' :: w) = some (.colon, 1) := by
  have hpseudo : Pattern.pseudoClass (':' :: w) = 0 := by
    cases w with
    | nil => rfl
    | cons c w => simp [Pattern.pseudoClass, hw c rfl]
  refine longest_cons_eq rfl Nat.one_pos fun other hother hne => ?_
  have hcases : ∀ token : Token, token.mayStart ':' = true → token ≠ .colon →
      token = .pseudoClass := by decide
  rw [hcases other hother hne]
  exact Nat.lt_one_iff.2 hpseudo

theorem lexFrom_colon (hw : ∀ c ∈ w.head?, c.isAlpha = false) (joined : Bool) :
    lexFrom joined 0 (':' :: w) = ⟨.colon, [':'], joined⟩ :: lexFrom true 0 w := by
  have hcolon : longest ([':'] ++ w) = some (.colon, [':'].length) := longest_colon hw
  exact lexFrom_of_longest joined hcolon

theorem exists_isPseudoName (hw : ∃ c ∈ w.head?, c.isAlpha = true) :
    ∃ cs rest, w = cs ++ rest ∧ isPseudoName cs = true ∧ isIdent cs = true ∧ EndsName rest := by
  obtain ⟨c, hc, halpha⟩ := hw
  obtain ⟨w, rfl⟩ : ∃ more, w = c :: more := ⟨w.tail, List.eq_cons_of_mem_head? hc⟩
  have hparts : (w.takeWhile isIdentPart).all isIdentPart = true := List.all_takeWhile
  refine ⟨c :: w.takeWhile isIdentPart, w.dropWhile isIdentPart, ?_, ?_, ?_, ?_⟩
  · rw [List.cons_append, List.takeWhile_append_dropWhile]
  · simp [isPseudoName, halpha, hparts]
  · simp [isIdent, isIdentStart, halpha, hparts]
  · intro d hd
    have hstop := List.head?_dropWhile_not isIdentPart w
    rw [Option.mem_def.1 hd] at hstop
    exact hstop

/-- A blank behind the colon of a declaration changes nothing in the block. -/
theorem isOpened_blank (hname : name.token = .ident) (w : List Char) :
    IsOpened (name :: lexFrom true 0 (':' :: w)) ds rules ↔
      IsOpened (name :: lexFrom true 0 (':' :: ' ' :: w)) ds rules := by
  have hspaced : lexFrom true 0 (':' :: ' ' :: w) = ⟨.colon, [':'], true⟩ :: lexFrom false 0 w := by
    rw [lexFrom_colon (by rintro c ⟨⟩; decide), lexFrom_blank]
  rw [hspaced]
  by_cases hletter : ∃ c ∈ w.head?, c.isAlpha = true
  · -- the colon and the name are cut as a pseudo-class
    obtain ⟨cs, rest, rfl, hpseudo, hident, hrest⟩ := exists_isPseudoName hletter
    have hjoined : lexFrom true 0 (':' :: (cs ++ rest)) =
        ⟨.pseudoClass, ':' :: cs, true⟩ :: lexFrom true 0 rest :=
      lexFrom_of_longest true (longest_pseudoClass hpseudo hrest)
    rw [hjoined, lexFrom_of_longest false (longest_ident hident hrest)]
    exact isOpened_pseudo_iff hname rfl rfl rfl rfl
  · have hw : ∀ c ∈ w.head?, c.isAlpha = false := fun c hc =>
      Bool.eq_false_iff.2 fun halpha => hletter ⟨c, hc, halpha⟩
    rw [lexFrom_colon hw]
    rcases lexFrom_joined w with ⟨token, chars, ts, hfirst⟩ | ⟨ts, hsame⟩
    · rw [hfirst true, hfirst false]
      exact isOpened_joined hname rfl rfl rfl
    · rw [hsame true, hsame false]

/-! ## The block of a class -/

/-- The text in front of the first property of the block of a class. -/
def blockOpening : List Char :=
  ['.', 'A', ' ', '{', ' ']

theorem isSheet_block (hcs : isIdent cs = true) (w : List Char) :
    IsSheet (lex (blockOpening ++ (cs ++ ':' :: w))) rules ↔
      ∃ ds more, IsOpened (⟨.ident, cs, false⟩ :: lexFrom true 0 (':' :: w)) ds more ∧
        rules = ⟨[.compound [.ofClass "A"]], ds⟩ :: more := by
  have hclass : IsSelectors [⟨.dot, ['.'], false⟩, ⟨.ident, ['A'], true⟩]
      [.compound [.ofClass "A"]] :=
    .single (.compound (.mk (.qualifier (.ofClass rfl rfl)) .nil))
  have hname : lexFrom false 0 (cs ++ ':' :: w) =
      ⟨.ident, cs, false⟩ :: lexFrom true 0 (':' :: w) :=
    lexFrom_of_longest false (longest_ident hcs (by rintro c ⟨⟩; decide))
  have hlex : lex (blockOpening ++ (cs ++ ':' :: w)) =
      [⟨.dot, ['.'], false⟩, ⟨.ident, ['A'], true⟩] ++
        ⟨.braceOpen, ['{'], false⟩ :: lexFrom false 0 (cs ++ ':' :: w) := rfl
  rw [hlex, hname]
  exact isSheet_opened hclass rfl

/-- Comments behind the colon are taken away as if the text started there. -/
theorem stripComments_block (hcs : isIdent cs = true) (w : List Char) :
    stripComments (blockOpening ++ (cs ++ ':' :: w)) =
      blockOpening ++ (cs ++ ':' :: stripComments w) := by
  have hslash : '/' ∉ blockOpening ++ cs := by
    rw [List.mem_append, not_or]
    refine ⟨by decide, fun hmem => ?_⟩
    exact absurd (isIdentPart_of_isIdent hcs _ hmem) (by decide)
  have hmark : ¬ ['/', '*'] <:+: blockOpening ++ cs := fun hmark =>
    hslash (hmark.subset List.mem_cons_self)
  obtain ⟨hself, hends⟩ := stripComments_of_unopened hmark
  rw [← List.append_assoc, stripComments, stripFrom_append (by decide) (by decide), hends,
    stripFrom_cons (by decide) (by decide)]
  rw [stripComments] at hself
  simp [hself, stripComments]

/-- A blank behind the colon of a declaration changes nothing: with it and without it a text is read
as the same rules, or cannot be read. -/
theorem readRules_colon {p : String} (hp : isIdent p.toList = true) (v : String) :
    (readRules (".A \x7b " ++ p ++ ":" ++ v)).toOption =
      (readRules (".A \x7b " ++ p ++ ": " ++ v)).toOption := by
  have hopening : ".A \x7b ".toList = blockOpening := rfl
  have hplain : (".A \x7b " ++ p ++ ":" ++ v).toList =
      blockOpening ++ (p.toList ++ ':' :: v.toList) := by
    simp [hopening]
  have hspaced : (".A \x7b " ++ p ++ ": " ++ v).toList =
      blockOpening ++ (p.toList ++ ':' :: ' ' :: v.toList) := by
    simp [hopening]
  have hblank : stripComments (' ' :: v.toList) = ' ' :: stripComments v.toList :=
    stripFrom_cons (by decide) (by decide) false v.toList
  refine Option.ext fun rules => ?_
  rw [toOption_eq_some, toOption_eq_some, readRules_eq_ok, readRules_eq_ok, hplain, hspaced,
    stripComments_block hp, stripComments_block hp, hblank, isSheet_block hp, isSheet_block hp]
  exact exists_congr fun ds => exists_congr fun more =>
    and_congr_left fun _ => isOpened_blank rfl (stripComments v.toList)

/-- A comment goes on with the value, and the pseudo-class in the next rule stays one. -/
theorem readRules_colon_fade :
    isIdent "color".toList = true ∧
    (readRules (".A \x7b " ++ "color" ++ ":" ++
      "fade/**/-in!important width:in\x7d.B:hover\x7b\x7d")).toOption =
    (readRules (".A \x7b " ++ "color" ++ ": " ++
      "fade/**/-in!important width:in\x7d.B:hover\x7b\x7d")).toOption ∧
    (readRules (".A \x7b " ++ "color" ++ ": " ++
      "fade/**/-in!important width:in\x7d.B:hover\x7b\x7d")).toOption =
      some [⟨[.compound [.ofClass "A"]],
          [⟨"color", [.ident "fade", .ident "in"], true⟩, ⟨"width", [.ident "in"], false⟩]⟩,
        ⟨[.compound [.ofClass "B", .ofPseudo "hover"]], []⟩] := by
  have hident : isIdent "color".toList = true := by decide +kernel
  exact ⟨hident, readRules_colon hident _, by decide +kernel⟩

end ReportModel.Css
