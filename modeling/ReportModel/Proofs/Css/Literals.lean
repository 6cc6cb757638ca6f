import ReportModel.Proofs.Css.Cutting
import ReportModel.Proofs.Css.Reading

/-!
# Literals

The patterns of lexemes and the readers of their texts agree. A number or a dimension that is cut
can always be read, so no error is about one; and what is taken from a colour, a pseudo-class or a
quoted text lies inside it, between two characters.
-/

namespace ReportModel.Css

variable {α β : Type} {ts : List Lexeme}

/-! ## Slices -/

/-- The bytes of a text from one place up to another are a text: no character stands across either
of the places. -/
def IsSlice (s : String) (start stop : Nat) (part : String) : Prop :=
  ∃ front back, s = front ++ part ++ back ∧ front.utf8ByteSize = start ∧
    start + part.utf8ByteSize = stop

theorem isSlice_tail {c : Char} (hc : c.utf8Size = 1) (part : List Char) :
    IsSlice (String.ofList (c :: part)) 1 (String.ofList (c :: part)).utf8ByteSize
      (String.ofList part) := by
  refine ⟨String.singleton c, "", ?_, ?_, ?_⟩
  · rw [String.ofList_cons, String.append_empty]
  · rw [String.utf8ByteSize_singleton, hc]
  · rw [String.ofList_cons, String.utf8ByteSize_append, String.utf8ByteSize_singleton, hc]

theorem isSlice_body {c d : Char} (hc : c.utf8Size = 1) (hd : d.utf8Size = 1) (part : List Char) :
    IsSlice (String.ofList (c :: (part ++ [d]))) 1
      ((String.ofList (c :: (part ++ [d]))).utf8ByteSize - 1) (String.ofList part) := by
  have htext : String.ofList (c :: (part ++ [d])) =
      String.singleton c ++ String.ofList part ++ String.singleton d := by
    rw [String.ofList_cons, String.ofList_append, String.append_assoc]
    rfl
  refine ⟨String.singleton c, String.singleton d, htext, ?_, ?_⟩
  · rw [String.utf8ByteSize_singleton, hc]
  · rw [htext, String.utf8ByteSize_append, String.utf8ByteSize_append,
      String.utf8ByteSize_singleton, String.utf8ByteSize_singleton, hc, hd]
    omega

/-! ## What is taken from a lexeme -/

theorem Pattern.take_run_succ {p : Char → Bool} {cs : List Char} (h : run p cs < cs.length) :
    ∃ d, p d = false ∧ cs.take (run p cs + 1) = cs.takeWhile p ++ [d] := by
  induction cs with
  | nil => cases h
  | cons c cs ih =>
      cases hc : p c with
      | false => exact ⟨c, hc, by simp [run, hc]⟩
      | true =>
          have hrun : run p (c :: cs) = run p cs + 1 := by simp [run, hc]
          rw [hrun, List.length_cons, Nat.add_lt_add_iff_right] at h
          obtain ⟨d, hd, htake⟩ := ih h
          refine ⟨d, hd, ?_⟩
          rw [hrun, List.take_succ_cons, htake, List.takeWhile_cons_of_pos hc, List.cons_append]

theorem Pattern.quoted_sound {quote : Char} {cs : List Char} (h : quoted quote cs ≠ 0) :
    ∃ body, quote ∉ body ∧ cs.take (quoted quote cs) = quote :: (body ++ [quote]) := by
  cases cs with
  | nil => exact absurd rfl h
  | cons c cs =>
      simp only [quoted] at h ⊢
      split at h
      · next hc =>
        split at h
        · next hlt =>
          obtain ⟨d, hd, htake⟩ := take_run_succ hlt
          obtain rfl : d = quote := by simpa using hd
          refine ⟨cs.takeWhile (· ≠ d), fun hmem => ?_, ?_⟩
          · simpa using List.all_eq_true.1 List.all_takeWhile d hmem
          · rw [if_pos hc, if_pos hlt, Nat.add_comm, List.take_succ_cons, htake, hc]
        · exact absurd rfl h
      · exact absurd rfl h

/-- What is read from a lexeme is in it: a number is one, a dimension is a number with a unit, and
the slices are inside. -/
structure Lexeme.IsReadable (t : Lexeme) : Prop where
  number : t.token = .number →
    IsNumeral t.chars ∧ (Format.single.readChars t.chars).isSome = true
  dimension : t.token = .dimension →
    ∃ measure unit, Dimension.splitMeasure t.chars = (measure, unit) ∧
      t.chars = measure ++ unit ∧ IsNumeral measure ∧ unit ∈ Pattern.units ∧
      (Format.single.readChars measure).isSome = true
  /-- The slice of a colour or a pseudo-class is all but the first byte. -/
  tail : t.token = .hexColor ∨ t.token = .pseudoClass →
    IsSlice t.text 1 t.text.utf8ByteSize t.tailText
  /-- The slice of a quoted text is all but the first and the last byte. -/
  body : t.token = .doubleQuoted ∨ t.token = .singleQuoted →
    IsSlice t.text 1 (t.text.utf8ByteSize - 1) (String.ofList (t.chars.drop 1).dropLast)
  item : isItem t.token = true → ∃ term, readTerm t = .ok term

namespace Lexeme.IsCut

variable {t : Lexeme} (h : t.IsCut)
include h

theorem isSlice_tailText (ht : t.token = .hexColor ∨ t.token = .pseudoClass) :
    IsSlice t.text 1 t.text.utf8ByteSize t.tailText := by
  obtain ⟨cs, hne, hchars⟩ := h.pattern
  have hmark : ∃ c ds, t.chars = c :: ds ∧ c.utf8Size = 1 := by
    rcases ht with ht | ht
    · rw [ht] at hne hchars
      obtain ⟨ds, hds, -⟩ := Pattern.hexColor_sound hne
      exact ⟨'#', ds, hchars.trans hds, rfl⟩
    · rw [ht] at hne hchars
      obtain ⟨ds, hds, -⟩ := Pattern.pseudoClass_sound hne
      exact ⟨':', ds, hchars.trans hds, rfl⟩
  obtain ⟨c, ds, hds, hsize⟩ := hmark
  rw [Lexeme.tailText, Lexeme.text, hds]
  exact isSlice_tail hsize ds

theorem isSlice_quoted (ht : t.token = .doubleQuoted ∨ t.token = .singleQuoted) :
    IsSlice t.text 1 (t.text.utf8ByteSize - 1) (String.ofList (t.chars.drop 1).dropLast) := by
  obtain ⟨cs, hne, hchars⟩ := h.pattern
  have hmarks : ∃ c body, t.chars = c :: (body ++ [c]) ∧ c.utf8Size = 1 := by
    rcases ht with ht | ht
    · rw [ht] at hne hchars
      obtain ⟨body, -, hbody⟩ := Pattern.quoted_sound hne
      exact ⟨'"', body, hchars.trans hbody, rfl⟩
    · rw [ht] at hne hchars
      obtain ⟨body, -, hbody⟩ := Pattern.quoted_sound hne
      exact ⟨'\'', body, hchars.trans hbody, rfl⟩
  obtain ⟨c, body, hbody, hsize⟩ := hmarks
  rw [Lexeme.text, hbody, List.drop_one, List.tail_cons, List.dropLast_concat]
  exact isSlice_body hsize hsize body

theorem isReadable : t.IsReadable where
  number ht := ⟨h.isNumeral ht, (h.isNumeral ht).readChars .single⟩
  dimension ht := by
    obtain ⟨measure, unit, hmeasure, hunit, hchars⟩ := h.exists_measure ht
    exact ⟨measure, unit, (h.splitMeasure ht hunit hchars).2, hchars, hmeasure, hunit,
      hmeasure.readChars .single⟩
  tail := h.isSlice_tailText
  body := h.isSlice_quoted
  item hitem := by
    obtain ⟨term, hterm⟩ := h.denotes hitem
    exact ⟨term, h.readTerm_eq_ok.2 hterm⟩

end Lexeme.IsCut

/-! ## Faults -/

/-- Whether a fault is about a number. -/
def ReadFault.isNumeral : ReadFault → Bool
  | .badNumber _ | .badDimension _ | .badMeasure _ => true
  | .expected _ _ | .noSelector | .notValue _ => false

def Stop.isNumeral : Stop → Bool
  | .fault _ cause => cause.isNumeral
  | .ended _ => false

/-- A reader does not stop at a number. -/
def Spares (x : Except Stop α) : Prop :=
  ∀ stop, x = .error stop → stop.isNumeral = false

theorem spares_ok (a : α) : Spares (.ok a) :=
  fun _ h => nomatch h

theorem spares_error {stop : Stop} (h : stop.isNumeral = false) :
    Spares (.error stop : Except Stop α) := by
  rintro _ ⟨⟩
  exact h

theorem Spares.bind {x : Except Stop α} {f : α → Except Stop β} (hx : Spares x)
    (hf : ∀ a, x = .ok a → Spares (f a)) : Spares (x >>= f) := by
  cases x with
  | error stop => exact fun _ h => hx _ (Except.error.inj h ▸ rfl)
  | ok a => exact hf a rfl

theorem spares_takeAs (wanted : Wanted) (token : Token) (ts : List Lexeme) :
    Spares (takeAs wanted token ts) := by
  cases ts with
  | nil => exact spares_error rfl
  | cons t rest =>
      rw [takeAs]
      split
      · exact spares_ok _
      · exact spares_error rfl

theorem spares_takeQualifier? (ts : List Lexeme) : Spares (takeQualifier? ts) := by
  cases ts with
  | nil => exact spares_ok _
  | cons t rest =>
      rw [takeQualifier?]
      split
      · exact (spares_takeAs _ _ _).bind fun name _ => spares_ok _
      · exact (spares_takeAs _ _ _).bind fun name _ => spares_ok _
      · exact spares_ok _
      · exact spares_ok _
      · exact spares_ok _

theorem spares_takeQualifiers (ts : List Lexeme) : Spares (takeQualifiers ts) := by
  induction ts using takeQualifiers.induct with
  | case1 ts hjoined ih =>
      rw [takeQualifiers, if_pos hjoined]
      refine (spares_takeQualifier? ts).bind fun found _ => ?_
      cases found with
      | none => exact spares_ok _
      | some first => exact (ih first).bind fun more _ => spares_ok _
  | case2 ts hjoined =>
      rw [takeQualifiers, if_neg hjoined]
      exact spares_ok _

theorem spares_takeHead (ts : List Lexeme) : Spares (takeHead ts) := by
  cases ts with
  | nil => exact spares_error rfl
  | cons t rest =>
      rw [takeHead]
      split
      · exact spares_ok _
      · exact spares_ok _
      · refine (spares_takeQualifier? _).bind fun found _ => ?_
        cases found with
        | none => exact spares_error rfl
        | some first => exact spares_ok _

theorem spares_takeCompound (ts : List Lexeme) : Spares (takeCompound ts) :=
  (spares_takeHead ts).bind fun _ _ => (spares_takeQualifiers _).bind fun _ _ => spares_ok _

theorem spares_takeSteps (outer : Selector) (ts : List Lexeme) : Spares (takeSteps outer ts) := by
  induction outer, ts using takeSteps.induct with
  | case1 outer =>
      rw [takeSteps]
      exact spares_ok _
  | case2 outer t rest hgt ih =>
      rw [takeSteps, if_pos hgt]
      exact (spares_takeCompound _).bind fun inner _ => (ih inner).bind fun _ _ => spares_ok _
  | case3 outer t rest hgt hstarts ih =>
      rw [takeSteps, if_neg hgt, if_pos hstarts]
      exact (spares_takeCompound _).bind fun inner _ => (ih inner).bind fun _ _ => spares_ok _
  | case4 outer t rest hgt hstarts =>
      rw [takeSteps, if_neg hgt, if_neg hstarts]
      exact spares_ok _

theorem spares_takeSelector (ts : List Lexeme) : Spares (takeSelector ts) :=
  (spares_takeCompound ts).bind fun _ _ => (spares_takeSteps _ _).bind fun _ _ => spares_ok _

theorem spares_takeSelectors (ts : List Lexeme) : Spares (takeSelectors ts) := by
  induction ts using takeSelectors.induct with
  | case1 ts ih =>
      rw [takeSelectors]
      refine (spares_takeSelector ts).bind fun first _ => ?_
      split
      · exact spares_ok _
      · next t rest hrest =>
        split
        · exact (ih first t rest hrest).bind fun _ _ => spares_ok _
        · exact spares_ok _

/-- An item of a value is spared since all numbers that are cut can be read. -/
theorem Lexeme.IsCut.spares_readTerm {t : Lexeme} (h : t.IsCut) (left : Nat) :
    Spares ((readTerm t).mapError fun fault => .fault left fault) := by
  by_cases hitem : isItem t.token = true
  · obtain ⟨term, hterm⟩ := h.isReadable.item hitem
    rw [hterm]
    exact spares_ok term
  · have hfault : readTerm t = .error (.notValue t) := by
      cases ht : t.token <;> simp_all [isItem, readTerm]
    rw [hfault]
    exact spares_error rfl

theorem isCut_of_suffix {rest : List Lexeme} (hcut : ∀ t ∈ ts, t.IsCut) (h : rest <:+ ts) :
    ∀ t ∈ rest, t.IsCut :=
  fun t ht => hcut t (h.subset ht)

theorem spares_takeTerms (hcut : ∀ t ∈ ts, t.IsCut) : Spares (takeTerms ts) := by
  induction ts with
  | nil => exact spares_ok _
  | cons t rest ih =>
      obtain ⟨ht, hrest⟩ := List.forall_mem_cons.1 hcut
      rw [takeTerms]
      split
      · exact spares_ok _
      · exact spares_ok _
      · exact spares_ok _
      · exact (ht.spares_readTerm _).bind fun _ _ => (ih hrest).bind fun _ _ => spares_ok _

theorem spares_takeColon (ts : List Lexeme) : Spares (takeColon ts) := by
  cases ts with
  | nil => exact spares_error rfl
  | cons t rest =>
      rw [takeColon]
      split
      · exact spares_ok _
      · exact (spares_takeAs _ _ _).bind fun _ _ => spares_ok _

theorem spares_takeDeclaration (hcut : ∀ t ∈ ts, t.IsCut) : Spares (takeDeclaration ts) := by
  refine (spares_takeAs _ _ _).bind fun name hname => ?_
  obtain ⟨hident, hts⟩ := (takes_takeAs _).1 ⟨name.shorter, hname⟩
  refine (spares_takeColon _).bind fun first hfirst => ?_
  obtain ⟨colon, -, hrest⟩ := (takes_takeColon hident).1 ⟨first.shorter, hfirst⟩
  have hsuffix : first.rest <:+ ts :=
    List.IsSuffix.trans ⟨[colon], hrest.symm⟩ ⟨[name.value], hts.symm⟩
  exact (spares_takeTerms (isCut_of_suffix hcut hsuffix)).bind fun _ _ => spares_ok _

theorem suffix_of_takeDeclaration {taken : Taken Declaration ts} (hcut : ∀ t ∈ ts, t.IsCut)
    (h : takeDeclaration ts = .ok taken) : taken.rest <:+ ts := by
  obtain ⟨opening, vs, more, after, _, _, _, _, -, -, hends, hts, -, hrest⟩ :=
    (takes_takeDeclaration hcut).1 ⟨taken.shorter, h⟩
  have hsemicolon : (passSemicolon after).rest <:+ after := by
    rcases passSemicolon_cases after with ⟨semicolon, -, heq⟩ | ⟨-, heq⟩
    · exact ⟨[semicolon], heq.symm⟩
    · exact ⟨[], heq.symm⟩
  have hafter : after <:+ more := by
    cases hends with
    | mark _ => exact List.suffix_cons _ _
    | plain _ => exact List.suffix_rfl
  rw [hrest, hts]
  exact (hsemicolon.trans hafter).trans (List.suffix_append _ _)

theorem spares_takeDeclarations (hcut : ∀ t ∈ ts, t.IsCut) : Spares (takeDeclarations ts) := by
  induction ts using takeDeclarations.induct with
  | case1 =>
      rw [takeDeclarations]
      exact spares_ok _
  | case2 t rest hbrace =>
      rw [takeDeclarations, if_pos hbrace]
      exact spares_ok _
  | case3 t rest hbrace hsemicolon ih =>
      rw [takeDeclarations, if_neg hbrace, if_pos hsemicolon]
      exact (ih (List.forall_mem_cons.1 hcut).2).bind fun _ _ => spares_ok _
  | case4 t rest hbrace hsemicolon ih =>
      rw [takeDeclarations, if_neg hbrace, if_neg hsemicolon]
      refine (spares_takeDeclaration hcut).bind fun first hfirst => ?_
      have hcut' := isCut_of_suffix hcut (suffix_of_takeDeclaration hcut hfirst)
      exact (ih first hcut').bind fun _ _ => spares_ok _

theorem spares_takeRule (hcut : ∀ t ∈ ts, t.IsCut) : Spares (takeRule ts) := by
  refine (spares_takeSelectors ts).bind fun selectors hselectors => ?_
  obtain ⟨front, -, hts, -, -⟩ := takes_takeSelectors.1 ⟨selectors.shorter, hselectors⟩
  refine (spares_takeAs _ _ _).bind fun opened hopened => ?_
  obtain ⟨-, hrest⟩ := (takes_takeAs _).1 ⟨opened.shorter, hopened⟩
  have hsuffix : opened.rest <:+ ts :=
    List.IsSuffix.trans ⟨[opened.value], hrest.symm⟩ ⟨front, hts.symm⟩
  refine (spares_takeDeclarations (isCut_of_suffix hcut hsuffix)).bind fun declarations _ => ?_
  exact (spares_takeAs _ _ _).bind fun _ _ => spares_ok _

theorem spares_takeRules (hcut : ∀ t ∈ ts, t.IsCut) : Spares (takeRules ts) := by
  induction ts using takeRules.induct with
  | case1 ts hempty =>
      rw [takeRules, if_pos hempty]
      exact spares_ok _
  | case2 ts hempty ih =>
      rw [takeRules, if_neg hempty]
      refine (spares_takeRule hcut).bind fun first hfirst => ?_
      obtain ⟨used, -, hts⟩ := (takes_takeRule hcut).1 ⟨first.shorter, hfirst⟩
      have hcut' := isCut_of_suffix hcut ⟨used, hts.symm⟩
      exact (ih first hcut').bind fun _ _ => spares_ok _

/-- Reading a text never fails at a number, and what is taken from a lexeme is in it. -/
theorem literals_readable (text : String) :
    (∀ position fault, readRules text = .error (.unexpected position fault) →
      fault.isNumeral = false) ∧
    ∀ t ∈ lex (stripComments text.toList), t.IsReadable := by
  have hcut := lex_isCut (stripComments text.toList)
  refine ⟨fun position fault h => ?_, fun t ht => (hcut t ht).isReadable⟩
  simp only [readRules] at h
  cases hread : takeRules (lex (stripComments text.toList)) with
  | ok rules =>
      rw [hread] at h
      cases h
  | error stop =>
      rw [hread] at h
      have hspares := spares_takeRules hcut stop hread
      cases stop with
      | fault left cause =>
          cases h
          exact hspares
      | ended wanted => cases h

end ReportModel.Css
