import ReportModel.Proofs.Css.Comments
import ReportModel.Proofs.Css.SelectorText

/-!
# Reading what is written

A selector is read back from its text. No two neighbouring conditions run into each other, since a
name ends where the mark of the next condition stands; a mark that is joined to what is in front of
it goes on with the compound, and a blank starts the next one.
-/

namespace ReportModel.Css

variable {c : Component} {cs qs : Compound} {s : Selector}

/-- The name of a condition is read back where the condition is written. An id is three to eight
hexadecimal digits, or an identifier that does not start with three of them. -/
def Component.isLegible : Component → Bool
  | .ofType name | .ofClass name => isIdent name.toList
  | .universal => true
  | .ofId name =>
    isHex name.toList || isIdent name.toList && Pattern.run isHexDigit name.toList < 3
  | .ofPseudo name => isPseudoName name.toList

theorem Component.isNamed_of_isLegible (hc : c.isLegible = true) : c.isNamed = true := by
  cases c with
  | ofId name =>
      simp only [isLegible, isNamed, Bool.or_eq_true, Bool.and_eq_true] at hc ⊢
      tauto
  | _ => exact hc

/-! ## Cutting a selector -/

/-- A text is cut into some lexemes, whatever follows that does not go on with its last name. -/
def Cuts (joined : Bool) (cs : List Char) (ts : List Lexeme) : Prop :=
  ∀ rest, EndsName rest → lexFrom joined 0 (cs ++ rest) = ts ++ lexFrom true 0 rest

section Cuts

variable {joined : Bool} {cs ds : List Char} {ts us : List Lexeme} {token : Token}

theorem Cuts.append (h : Cuts joined cs ts) (hds : EndsName ds) (h' : Cuts true ds us) :
    Cuts joined (cs ++ ds) (ts ++ us) := by
  intro rest hrest
  rw [List.append_assoc, List.append_assoc, h _ (hds.append hrest), h' rest hrest]

theorem Cuts.blank (h : Cuts false cs ts) : Cuts joined (' ' :: cs) ts := by
  intro rest hrest
  rw [← h rest hrest]
  simp [lexFrom, isSpace]

theorem cuts_lexeme
    (h : ∀ rest, EndsName rest → longest (cs ++ rest) = some (token, cs.length)) :
    Cuts joined cs [⟨token, cs, joined⟩] :=
  fun rest hrest => lexFrom_of_longest joined (h rest hrest)

theorem cuts_mark {c : Char}
    (h : ∀ rest, EndsName rest → longest (c :: (ds ++ rest)) = some (token, 1))
    (h' : Cuts true ds us) : Cuts joined (c :: ds) (⟨token, [c], joined⟩ :: us) := by
  intro rest hrest
  have hmark : longest ([c] ++ (ds ++ rest)) = some (token, [c].length) := h rest hrest
  rw [List.cons_append, List.cons_append, ← h' rest hrest]
  exact lexFrom_of_longest joined hmark

end Cuts

theorem Component.exists_cuts_qualifier (hc : c.isLegible = true) (hq : c.isQualifier = true)
    (joined : Bool) :
    ∃ t ts, Cuts joined c.chars (t :: ts) ∧ IsQualifier (t :: ts) c ∧ t.joined = joined := by
  have hident {name : String} (h : isIdent name.toList = true) :
      Cuts true name.toList [⟨.ident, name.toList, true⟩] :=
    cuts_lexeme fun rest hrest => longest_ident h hrest
  cases c with
  | ofType | universal => cases hq
  | ofClass name =>
      have hname : IsQualifier [⟨.dot, ['.'], joined⟩, ⟨.ident, name.toList, true⟩]
          (.ofClass (String.ofList name.toList)) := .ofClass rfl rfl
      rw [String.ofList_toList] at hname
      rw [chars_ofClass]
      exact ⟨_, _, cuts_mark (fun rest _ => longest_dot _) (hident hc), hname, rfl⟩
  | ofId name =>
      rw [chars_ofId]
      rcases Bool.or_eq_true_iff.1 hc with hhex | hplain
      · have hcolor : IsQualifier [⟨.hexColor, '#' :: name.toList, joined⟩]
            (.ofId (String.ofList name.toList)) := .ofColor rfl
        rw [String.ofList_toList] at hcolor
        exact ⟨_, _, cuts_lexeme fun rest hrest => longest_hexColor hhex hrest, hcolor, rfl⟩
      · obtain ⟨hname, hfew⟩ := Bool.and_eq_true_iff.1 hplain
        have hid : IsQualifier [⟨.hash, ['#'], joined⟩, ⟨.ident, name.toList, true⟩]
            (.ofId (String.ofList name.toList)) := .ofId rfl rfl
        rw [String.ofList_toList] at hid
        refine ⟨_, _, cuts_mark (fun rest hrest => longest_hash ?_) (hident hname), hid, rfl⟩
        rw [Pattern.run_append_of_head hrest.isHexDigit]
        exact of_decide_eq_true hfew
  | ofPseudo name =>
      have hpseudo : IsQualifier [⟨.pseudoClass, ':' :: name.toList, joined⟩]
          (.ofPseudo (String.ofList name.toList)) := .ofPseudo rfl
      rw [String.ofList_toList] at hpseudo
      rw [chars_ofPseudo]
      exact ⟨_, _, cuts_lexeme fun rest hrest => longest_pseudoClass hc hrest, hpseudo, rfl⟩

theorem Component.exists_cuts (hc : c.isLegible = true) (joined : Bool) :
    ∃ t ts, Cuts joined c.chars (t :: ts) ∧ IsHead (t :: ts) c ∧ t.joined = joined := by
  cases c with
  | ofType name =>
      have hname : IsHead [⟨.ident, name.toList, joined⟩] (.ofType (String.ofList name.toList)) :=
        .ofType rfl
      rw [String.ofList_toList] at hname
      exact ⟨_, _, cuts_lexeme fun rest hrest => longest_ident hc hrest, hname, rfl⟩
  | universal =>
      exact ⟨_, _, cuts_lexeme fun rest _ => longest_star rest, .universal rfl, rfl⟩
  | ofClass | ofId | ofPseudo =>
      obtain ⟨t, ts, hcuts, hts, hjoined⟩ := exists_cuts_qualifier hc rfl joined
      exact ⟨t, ts, hcuts, .qualifier hts, hjoined⟩

theorem exists_cuts_qualifiers (hqs : ∀ q ∈ qs, q.isQualifier = true)
    (hlegible : ∀ q ∈ qs, q.isLegible = true) :
    ∃ ts, Cuts true (compoundChars qs) ts ∧ IsQualifiers ts qs := by
  induction qs with
  | nil => exact ⟨[], fun rest _ => rfl, .nil⟩
  | cons q qs ih =>
      rw [List.forall_mem_cons] at hqs hlegible
      obtain ⟨t, ts, hq, hts, hjoined⟩ :=
        Component.exists_cuts_qualifier hlegible.1 hqs.1 true
      obtain ⟨us, hmore, hus⟩ := ih hqs.2 hlegible.2
      have hopen : ((t :: ts) ++ us).head?.any (·.joined) = true := hjoined
      rw [compoundChars_cons]
      exact ⟨t :: ts ++ us, hq.append (endsName_compoundChars hqs.2) hmore,
        .cons hts (hts.startsJoined hopen) hus⟩

/-- A first condition, and after that only qualifiers, all of them legible. -/
structure IsLegible (cs : Compound) : Prop where
  ne_nil : cs ≠ []
  qualified : ∀ q ∈ cs.tail, q.isQualifier = true
  legible : ∀ c ∈ cs, c.isLegible = true

theorem IsLegible.exists_cuts (h : IsLegible cs) (joined : Bool) :
    ∃ t ts, Cuts joined (compoundChars cs) (t :: ts) ∧ IsCompound (t :: ts) cs ∧
      t.joined = joined := by
  obtain ⟨c, qs, rfl⟩ := List.exists_cons_of_ne_nil h.ne_nil
  have hlegible := List.forall_mem_cons.1 h.legible
  obtain ⟨t, ts, hcuts, hhead, hjoined⟩ := Component.exists_cuts hlegible.1 joined
  obtain ⟨us, hmore, hus⟩ := exists_cuts_qualifiers h.qualified hlegible.2
  rw [compoundChars_cons]
  exact ⟨t, ts ++ us, hcuts.append (endsName_compoundChars h.qualified) hmore, .mk hhead hus,
    hjoined⟩

theorem Selector.exists_cuts (hs : ∀ cs ∈ s.compounds, IsLegible cs) :
    ∃ ts, Cuts false s.chars ts ∧ IsSelector ts s := by
  induction s with
  | compound cs =>
      obtain ⟨t, ts, hcuts, hcs, -⟩ := (hs cs List.mem_cons_self).exists_cuts false
      exact ⟨t :: ts, hcuts, .compound hcs⟩
  | within outer combinator cs ih =>
      obtain ⟨houter, hcs⟩ := forall_compounds_within.1 hs
      obtain ⟨ts, hts, htsOuter⟩ := ih houter
      obtain ⟨u, us, hus, husCs, hjoined⟩ := hcs.exists_cuts false
      have hends (ds : List Char) : EndsName (' ' :: ds) := by
        rintro x ⟨⟩
        decide
      rw [chars, List.append_assoc]
      cases combinator with
      | descendant =>
          refine ⟨ts ++ u :: us, hts.append (hends _) hus.blank, .descendant htsOuter husCs ?_⟩
          rintro ⟨t, ⟨⟩, htrue, -⟩
          exact Bool.false_ne_true (hjoined.symm.trans htrue)
      | child =>
          have hgt : Cuts true (' ' :: '>' :: ' ' :: compoundChars cs)
              (⟨.greaterThan, ['>'], false⟩ :: u :: us) :=
            (cuts_mark (fun rest _ => longest_greaterThan _) hus.blank).blank
          exact ⟨_, hts.append (hends _) hgt, .child htsOuter rfl husCs⟩

/-! ## Reading a selector -/

theorem Selector.IsFormed.notMem_chars {x : Char} (hs : s.IsFormed) (hpart : isIdentPart x = false)
    (hmark : x ∉ ['*', '.', '#', ':', ' ', '>']) : x ∉ s.chars := by
  have hcompound {cs : Compound} (hcs : Css.IsFormed cs) : x ∉ compoundChars cs :=
    hcs.notMem_compoundChars hpart (by simp_all)
  induction s with
  | compound cs => exact hcompound (hs cs List.mem_cons_self)
  | within outer combinator cs ih =>
      obtain ⟨houter, hcs⟩ := isFormed_within.1 hs
      have hlead : x ∉ combinator.lead := by
        cases combinator <;> simp_all [Combinator.lead]
      rw [chars, List.mem_append, List.mem_append, List.mem_cons]
      simp_all

theorem Alternates.exists_cons {parts : List (Compound ⊕ Combinator)} (h : Alternates parts) :
    ∀ cs, .inl cs ∈ parts → ∃ c qs, cs = c :: qs ∧ ∀ q ∈ qs, q.isQualifier = true := by
  induction h with
  | last c h =>
      intro cs hmem
      obtain rfl := Sum.inl.inj (List.mem_singleton.1 hmem)
      exact ⟨c, _, rfl, h⟩
  | step c h combinator _ ih =>
      intro cs hmem
      rcases List.mem_cons.1 hmem with heq | hmem
      · obtain rfl := Sum.inl.inj heq
        exact ⟨c, _, rfl, h⟩
      · exact ih cs ((List.mem_cons.1 hmem).resolve_left Sum.inl_ne_inr)

theorem Selector.inl_mem_parts (h : cs ∈ s.compounds) : .inl cs ∈ s.parts := by
  induction s with
  | compound ds => simpa [parts, compounds] using h
  | within outer combinator ds ih =>
      rw [parts, List.mem_append]
      rw [compounds, List.mem_append] at h
      rcases h with h | h
      · exact Or.inl (ih h)
      · simp_all

/-- A selector is read back from its text: with an empty block behind it, it is the only selector
of the only rule. -/
theorem Selector.readRules_text (hparts : Alternates s.parts)
    (hlegible : ∀ c ∈ s.components, c.isLegible = true) :
    readRules (s.text ++ " \x7b\x7d") = .ok [⟨[s], []⟩] := by
  have hs : ∀ cs ∈ s.compounds, IsLegible cs := by
    intro cs hcs
    obtain ⟨c, qs, rfl, hqs⟩ := hparts.exists_cons cs (inl_mem_parts hcs)
    exact ⟨List.cons_ne_nil c qs, hqs, fun d hd => hlegible d (List.mem_flatten.2 ⟨_, hcs, hd⟩)⟩
  have hformed : s.IsFormed := fun cs hcs => ⟨(hs cs hcs).qualified, fun c hc =>
    Component.isNamed_of_isLegible ((hs cs hcs).legible c hc)⟩
  obtain ⟨ts, hcuts, hselector⟩ := exists_cuts hs
  have htext : (s.text ++ " \x7b\x7d").toList = s.chars ++ [' ', '{', '}'] := by
    rw [String.toList_append, toList_text]
    rfl
  have hslash : '/' ∉ s.chars ++ [' ', '{', '}'] := by
    rw [List.mem_append, not_or]
    exact ⟨hformed.notMem_chars (by decide) (by decide), by decide⟩
  have hlex : lex (s.chars ++ [' ', '{', '}']) =
      ts ++ [⟨.braceOpen, ['{'], false⟩, ⟨.braceClose, ['}'], true⟩] := by
    have hbraces : lexFrom true 0 [' ', '{', '}'] =
        [⟨.braceOpen, ['{'], false⟩, ⟨.braceClose, ['}'], true⟩] := by
      decide
    have hends : EndsName [' ', '{', '}'] := by
      rintro x ⟨⟩
      decide
    rw [lex, hcuts _ hends, hbraces]
  have hrule : IsRule (ts ++ ⟨.braceOpen, ['{'], false⟩ :: [] ++ [⟨.braceClose, ['}'], true⟩])
      ⟨[s], []⟩ := .mk (.single hselector) rfl .nil rfl
  have hsheet : IsSheet (lex (s.chars ++ [' ', '{', '}'])) [⟨[s], []⟩] := by
    rw [hlex]
    simpa using IsSheet.cons hrule .nil
  rw [readRules, htext, stripComments_eq_self hslash]
  exact mapError_eq_ok.2 ((takeRules_eq_ok (lex_isCut _)).2 hsheet)

/-- A selector in which conditions of all sorts stand next to each other. -/
def crowded : Selector :=
  .within (.within (.within (.compound [.ofType "Table", .ofPseudo "hover"])
    .child [.universal, .ofClass "total", .ofId "fade12", .ofClass "x"])
    .descendant [.ofType "_a-b", .ofId "ab-c", .ofPseudo "first-child"])
    .descendant [.ofId "title", .ofId "2024"]

theorem Selector.readRules_text_crowded :
    Alternates crowded.parts ∧ (∀ c ∈ crowded.components, c.isLegible = true) ∧
    crowded.text = "Table:hover > *.total#fade12.x _a-b#ab-c:first-child #title#2024" ∧
    readRules ("Table:hover > *.total#fade12.x _a-b#ab-c:first-child #title#2024" ++ " \x7b\x7d") =
      .ok [⟨[crowded], []⟩] := by
  have hparts : Alternates crowded.parts :=
    .step _ (by decide) _ (.step _ (by decide) _ (.step _ (by decide) _ (.last _ (by decide))))
  have hlegible : ∀ c ∈ crowded.components, c.isLegible = true := by
    decide +kernel
  have htext : crowded.text =
      "Table:hover > *.total#fade12.x _a-b#ab-c:first-child #title#2024" := by
    decide +kernel
  exact ⟨hparts, hlegible, htext, htext ▸ readRules_text hparts hlegible⟩

/-- An id that goes on after three digits of a colour is not read back. -/
example : readRules ((Selector.compound [.ofId "fading"]).text ++ " \x7b\x7d") ≠
    .ok [⟨[.compound [.ofId "fading"]], []⟩] := by
  decide +kernel

end ReportModel.Css
