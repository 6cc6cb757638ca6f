import ReportModel.Proofs.Css.Lexemes

/-!
# Readers and their grammar

Each reader takes exactly what its part of the grammar derives, as far as it goes: a repetition ends
where what follows cannot continue it.
-/

namespace ReportModel.Css

variable {α : Type} {ts us rest used : List Lexeme}

/-- A reader gives a value and leaves the rest. -/
def Takes (reader : (ts : List Lexeme) → Except Stop (Taken α ts)) (ts : List Lexeme) (v : α)
    (rest : List Lexeme) : Prop :=
  ∃ h, reader ts = .ok ⟨v, rest, h⟩

/-- A reader that may take nothing gives a value and leaves the rest. -/
def Passes (reader : (ts : List Lexeme) → Except Stop (Passed α ts)) (ts : List Lexeme) (v : α)
    (rest : List Lexeme) : Prop :=
  ∃ h, reader ts = .ok ⟨v, rest, h⟩

theorem Takes.of_eq {reader : (ts : List Lexeme) → Except Stop (Taken α ts)} {taken : Taken α ts}
    {v : α} (h : reader ts = .ok taken) (hvalue : taken.value = v) (hrest : taken.rest = rest) :
    Takes reader ts v rest := by
  subst hvalue hrest
  exact ⟨taken.shorter, h⟩

theorem Passes.of_eq {reader : (ts : List Lexeme) → Except Stop (Passed α ts)}
    {passed : Passed α ts} {v : α} (h : reader ts = .ok passed) (hvalue : passed.value = v)
    (hrest : passed.rest = rest) : Passes reader ts v rest := by
  subst hvalue hrest
  exact ⟨passed.notLonger, h⟩

private theorem eq_append_append {first second mid : List Lexeme} (h : ts = first ++ mid)
    (h' : mid = second ++ rest) : ts = (first ++ second) ++ rest := by
  rw [h, h', List.append_assoc]

theorem takes_takeAs (wanted : Wanted) {token : Token} {t : Lexeme} :
    Takes (takeAs wanted token) ts t rest ↔ t.token = token ∧ ts = t :: rest := by
  constructor
  · rintro ⟨_, h⟩
    cases ts with
    | nil => cases h
    | cons u us =>
        simp only [takeAs] at h
        split at h
        · next hu =>
          cases h
          exact ⟨hu, rfl⟩
        · cases h
  · rintro ⟨ht, rfl⟩
    exact ⟨Nat.lt_succ_self _, by simp [takeAs, ht]⟩

/-! ## Selectors -/

theorem takeQualifier?_eq_some {c : Component} :
    (∃ h, takeQualifier? ts = .ok (some ⟨c, rest, h⟩)) ↔
      ∃ used, IsQualifier used c ∧ ts = used ++ rest := by
  constructor
  · rintro ⟨_, h⟩
    cases ts with
    | nil => cases h
    | cons t us =>
        simp only [takeQualifier?] at h
        split at h
        · next ht =>
          obtain ⟨⟨name, _, hlt⟩, hname, heq⟩ := bind_eq_ok.1 h
          cases heq
          obtain ⟨hident, rfl⟩ := (takes_takeAs _).1 ⟨hlt, hname⟩
          exact ⟨[t, name], .ofClass ht hident, rfl⟩
        · next ht =>
          obtain ⟨⟨name, _, hlt⟩, hname, heq⟩ := bind_eq_ok.1 h
          cases heq
          obtain ⟨hident, rfl⟩ := (takes_takeAs _).1 ⟨hlt, hname⟩
          exact ⟨[t, name], .ofId ht hident, rfl⟩
        · next ht =>
          cases h
          exact ⟨[t], .ofColor ht, rfl⟩
        · next ht =>
          cases h
          exact ⟨[t], .ofPseudo ht, rfl⟩
        · cases h
  · rintro ⟨used, hused, rfl⟩
    cases hused with
    | ofClass hdot hname | ofId hdot hname =>
        refine ⟨by simp only [List.length_append, List.length_cons]; omega, ?_⟩
        simp [takeQualifier?, hdot, takeName, takeAs, hname, bind, Except.bind, pure, Except.pure]
    | ofColor ht | ofPseudo ht =>
        exact ⟨by simp, by simp [takeQualifier?, ht]⟩

theorem takeQualifier?_eq_none :
    takeQualifier? ts = .ok none ↔ ∀ t ∈ ts.head?, startsQualifier t.token = false := by
  cases ts with
  | nil => simp [takeQualifier?]
  | cons t us =>
      have hbind {x : Except Stop (Taken Lexeme us)}
          {f : Taken Lexeme us → Taken Component (t :: us)} :
          ¬ (fun name => some (f name)) <$> x = .ok none := by
        cases x <;> simp [Functor.map, Except.map]
      cases ht : t.token <;> simp [takeQualifier?, ht, startsQualifier, hbind]

theorem StartsJoined.append (h : StartsJoined ts) (us : List Lexeme) : StartsJoined (ts ++ us) := by
  obtain ⟨t, ht, hstarts⟩ := h
  exact ⟨t, by simp [List.head?_append, Option.mem_def.1 ht], hstarts⟩

theorem StartsJoined.joined (h : StartsJoined ts) : ts.head?.any (·.joined) = true := by
  obtain ⟨t, ht, hjoined, -⟩ := h
  rw [Option.mem_def.1 ht]
  exact hjoined

theorem IsQualifier.startsJoined {c : Component} (h : IsQualifier used c)
    (hjoined : (used ++ rest).head?.any (·.joined) = true) : StartsJoined used := by
  cases h with
  | ofClass ht _ | ofId ht _ | ofColor ht | ofPseudo ht =>
      exact ⟨_, rfl, by simpa using hjoined, by simp [ht, startsQualifier]⟩

theorem passes_takeQualifiers {cs : List Component} :
    Passes takeQualifiers ts cs rest ↔
      ∃ used, IsQualifiers used cs ∧ ts = used ++ rest ∧ ¬ StartsJoined rest := by
  constructor
  · rintro ⟨_, h⟩
    induction ts using takeQualifiers.induct generalizing cs with
    | case1 ts hjoined ih =>
        rw [takeQualifiers, if_pos hjoined] at h
        obtain ⟨found, hfound, h⟩ := bind_eq_ok.1 h
        cases found with
        | none =>
            cases h
            refine ⟨[], .nil, rfl, ?_⟩
            rintro ⟨t, ht, -, hstarts⟩
            rw [takeQualifier?_eq_none.1 hfound t ht] at hstarts
            cases hstarts
        | some first =>
            obtain ⟨more, hmore, hpure⟩ := bind_eq_ok.1 h
            cases hpure
            obtain ⟨used, hused, heq⟩ := takeQualifier?_eq_some.1 ⟨first.shorter, hfound⟩
            obtain ⟨used', hused', heq', hstop⟩ := ih first more.notLonger hmore
            rw [heq] at hjoined
            exact ⟨used ++ used', .cons hused (hused.startsJoined hjoined) hused',
              eq_append_append heq heq', hstop⟩
    | case2 ts hjoined =>
        rw [takeQualifiers, if_neg hjoined] at h
        cases h
        exact ⟨[], .nil, rfl, fun hj => hjoined hj.joined⟩
  · rintro ⟨used, hused, rfl, hstop⟩
    induction hused with
    | nil =>
        rw [List.nil_append, Passes, takeQualifiers]
        split
        · next hjoined =>
          have hnone : takeQualifier? rest = .ok none := by
            refine takeQualifier?_eq_none.2 fun t ht => ?_
            rw [Option.mem_def.1 ht] at hjoined
            exact Bool.eq_false_iff.2 fun hstarts => hstop ⟨t, ht, hjoined, hstarts⟩
          exact ⟨Nat.le_refl _, bind_eq_ok.2 ⟨_, hnone, rfl⟩⟩
        · exact ⟨Nat.le_refl _, rfl⟩
    | @cons first more c cs hfirst hjoined _ ih =>
        obtain ⟨_, hmore⟩ := ih
        obtain ⟨_, htake⟩ := takeQualifier?_eq_some.2 ⟨first, hfirst, rfl⟩
        have hopen := (hjoined.append (more ++ rest)).joined
        rw [List.append_assoc]
        exact .of_eq (by
          rw [takeQualifiers, if_pos hopen]
          exact bind_eq_ok.2 ⟨_, htake, bind_eq_ok.2 ⟨_, hmore, rfl⟩⟩) rfl rfl

theorem IsQualifier.starts {c : Component} (h : IsQualifier used c) :
    ∃ t us, used = t :: us ∧ startsQualifier t.token = true := by
  cases h with
  | ofClass ht _ | ofId ht _ | ofColor ht | ofPseudo ht =>
      exact ⟨_, _, rfl, by simp [ht, startsQualifier]⟩

theorem takes_takeHead {c : Component} :
    Takes takeHead ts c rest ↔ ∃ used, IsHead used c ∧ ts = used ++ rest := by
  constructor
  · rintro ⟨_, h⟩
    cases ts with
    | nil => cases h
    | cons t us =>
        simp only [takeHead] at h
        split at h
        · next ht =>
          cases h
          exact ⟨[t], .ofType ht, rfl⟩
        · next ht =>
          cases h
          exact ⟨[t], .universal ht, rfl⟩
        · obtain ⟨found, hfound, h⟩ := bind_eq_ok.1 h
          cases found with
          | none => cases h
          | some first =>
              cases h
              obtain ⟨used, hused, heq⟩ := takeQualifier?_eq_some.1 ⟨_, hfound⟩
              exact ⟨used, .qualifier hused, heq⟩
  · rintro ⟨used, hused, rfl⟩
    cases hused with
    | ofType ht | universal ht => exact ⟨by simp, by simp [takeHead, ht]⟩
    | qualifier h =>
        obtain ⟨t, us, rfl, hstarts⟩ := h.starts
        rw [List.cons_append]
        obtain ⟨hlt, hfound⟩ :=
          takeQualifier?_eq_some.2 ⟨t :: us, h, (rfl : _ = t :: (us ++ rest))⟩
        refine ⟨hlt, ?_⟩
        rw [takeHead]
        split
        · next ht => simp [ht, startsQualifier] at hstarts
        · next ht => simp [ht, startsQualifier] at hstarts
        · exact bind_eq_ok.2 ⟨_, hfound, rfl⟩

theorem takes_takeCompound {c : Compound} :
    Takes takeCompound ts c rest ↔
      ∃ used, IsCompound used c ∧ ts = used ++ rest ∧ ¬ StartsJoined rest := by
  constructor
  · rintro ⟨_, h⟩
    obtain ⟨first, hfirst, h⟩ := bind_eq_ok.1 h
    obtain ⟨more, hmore, h⟩ := bind_eq_ok.1 h
    cases h
    obtain ⟨used, hused, heq⟩ := takes_takeHead.1 ⟨first.shorter, hfirst⟩
    obtain ⟨used', hused', heq', hstop⟩ := passes_takeQualifiers.1 ⟨more.notLonger, hmore⟩
    exact ⟨used ++ used', .mk hused hused', eq_append_append heq heq', hstop⟩
  · rintro ⟨used, ⟨hhead, hmore⟩, rfl, hstop⟩
    obtain ⟨_, hfirst⟩ := takes_takeHead.2 ⟨_, hhead, List.append_assoc _ _ rest⟩
    obtain ⟨_, hmore⟩ := passes_takeQualifiers.2 ⟨_, hmore, rfl, hstop⟩
    exact .of_eq (bind_eq_ok.2 ⟨_, hfirst, bind_eq_ok.2 ⟨_, hmore, rfl⟩⟩) rfl rfl

theorem IsHead.starts {c : Component} (h : IsHead used c) :
    ∃ t us, used = t :: us ∧ startsCompound t.token = true := by
  cases h with
  | ofType ht | universal ht => exact ⟨_, _, rfl, by simp [ht, startsCompound]⟩
  | qualifier h =>
      obtain ⟨t, us, rfl, hstarts⟩ := h.starts
      refine ⟨t, us, rfl, ?_⟩
      cases ht : t.token <;> simp_all [startsQualifier, startsCompound]

theorem IsCompound.starts {c : Compound} (h : IsCompound used c) :
    ∃ t us, used = t :: us ∧ startsCompound t.token = true := by
  obtain ⟨hhead, _⟩ := h
  obtain ⟨t, us, rfl, hstarts⟩ := hhead.starts
  exact ⟨t, us ++ _, rfl, hstarts⟩

def EndsSelector (ts : List Lexeme) : Prop :=
  ∀ t ∈ ts.head?, t.token ≠ .greaterThan ∧ startsCompound t.token = false

theorem EndsSelector.not_startsJoined (h : EndsSelector ts) : ¬ StartsJoined ts := by
  rintro ⟨t, ht, -, hstarts⟩
  have hcompound := (h t ht).2
  cases htoken : t.token <;> simp_all [startsQualifier, startsCompound]

theorem takeSteps_sound {front : List Lexeme} {outer whole : Selector}
    (houter : IsSelector front outer) (hgap : ¬ StartsJoined ts)
    (h : Passes (takeSteps outer) ts whole rest) :
    ∃ used, IsSelector (front ++ used) whole ∧ ts = used ++ rest ∧ EndsSelector rest := by
  obtain ⟨_, h⟩ := h
  induction outer, ts using takeSteps.induct generalizing front with
  | case1 outer =>
      rw [takeSteps] at h
      cases h
      exact ⟨[], by rwa [List.append_nil], rfl, by simp [EndsSelector]⟩
  | case2 outer t more hgt ih =>
      rw [takeSteps, if_pos hgt] at h
      obtain ⟨inner, hinner, h⟩ := bind_eq_ok.1 h
      obtain ⟨whole, hwhole, h⟩ := bind_eq_ok.1 h
      cases h
      obtain ⟨used, hused, heq, hstop⟩ := takes_takeCompound.1 ⟨inner.shorter, hinner⟩
      obtain ⟨used', hused', heq', hend⟩ :=
        ih inner (houter.child hgt hused) hstop whole.notLonger hwhole
      refine ⟨t :: used ++ used', ?_, eq_append_append (congrArg (t :: ·) heq) heq', hend⟩
      rwa [← List.append_assoc]
  | case3 outer t more hgt hstarts ih =>
      rw [takeSteps, if_neg hgt, if_pos hstarts] at h
      obtain ⟨inner, hinner, h⟩ := bind_eq_ok.1 h
      obtain ⟨whole, hwhole, h⟩ := bind_eq_ok.1 h
      cases h
      obtain ⟨used, hused, heq, hstop⟩ := takes_takeCompound.1 ⟨inner.shorter, hinner⟩
      have hgap' : ¬ StartsJoined used := fun hj => hgap (heq ▸ hj.append inner.rest)
      obtain ⟨used', hused', heq', hend⟩ :=
        ih inner (houter.descendant hused hgap') hstop whole.notLonger hwhole
      refine ⟨used ++ used', ?_, eq_append_append heq heq', hend⟩
      rwa [← List.append_assoc]
  | case4 outer t more hgt hstarts =>
      rw [takeSteps, if_neg hgt, if_neg hstarts] at h
      cases h
      refine ⟨[], by rwa [List.append_nil], rfl, ?_⟩
      rintro t' ⟨⟩
      exact ⟨hgt, by simpa using hstarts⟩

theorem IsSelector.takes {s whole : Selector} (h : IsSelector used s) {more : List Lexeme}
    (hgap : ¬ StartsJoined more) (hmore : Passes (takeSteps s) more whole rest) :
    Takes takeSelector (used ++ more) whole rest := by
  induction h generalizing more with
  | compound hc =>
      obtain ⟨_, hfirst⟩ := takes_takeCompound.2 ⟨_, hc, rfl, hgap⟩
      obtain ⟨_, hmore⟩ := hmore
      exact .of_eq (bind_eq_ok.2 ⟨_, hfirst, bind_eq_ok.2 ⟨_, hmore, rfl⟩⟩) rfl rfl
  | @child ts us gt outer c houter hgt hc ih =>
      rw [List.append_assoc]
      refine ih ?_ ?_
      · rintro ⟨t, ⟨⟩, -, hstarts⟩
        simp [hgt, startsQualifier] at hstarts
      · obtain ⟨_, hinner⟩ := takes_takeCompound.2 ⟨_, hc, rfl, hgap⟩
        obtain ⟨_, hmore⟩ := hmore
        rw [List.cons_append]
        exact .of_eq (by
          rw [takeSteps, if_pos hgt]
          exact bind_eq_ok.2 ⟨_, hinner, bind_eq_ok.2 ⟨_, hmore, rfl⟩⟩) rfl rfl
  | @descendant ts us outer c houter hc hgap' ih =>
      obtain ⟨t, us, rfl, hstarts⟩ := hc.starts
      have hgt : t.token ≠ .greaterThan := by
        intro ht
        simp [ht, startsCompound] at hstarts
      obtain ⟨_, hinner⟩ :=
        takes_takeCompound.2 ⟨_, hc, (rfl : t :: (us ++ more) = t :: us ++ more), hgap⟩
      obtain ⟨_, hmore⟩ := hmore
      rw [List.append_assoc]
      refine ih ?_ ?_
      · rintro ⟨t', ⟨⟩, hjoined⟩
        exact hgap' ⟨t, rfl, hjoined⟩
      · rw [List.cons_append]
        exact .of_eq (by
          rw [takeSteps, if_neg hgt, if_pos hstarts]
          exact bind_eq_ok.2 ⟨_, hinner, bind_eq_ok.2 ⟨_, hmore, rfl⟩⟩) rfl rfl

theorem takes_takeSelector {s : Selector} :
    Takes takeSelector ts s rest ↔
      ∃ used, IsSelector used s ∧ ts = used ++ rest ∧ EndsSelector rest := by
  constructor
  · rintro ⟨_, h⟩
    obtain ⟨first, hfirst, h⟩ := bind_eq_ok.1 h
    obtain ⟨whole, hwhole, h⟩ := bind_eq_ok.1 h
    cases h
    obtain ⟨used, hused, heq, hstop⟩ := takes_takeCompound.1 ⟨first.shorter, hfirst⟩
    obtain ⟨used', hused', heq', hend⟩ :=
      takeSteps_sound (.compound hused) hstop ⟨whole.notLonger, hwhole⟩
    exact ⟨used ++ used', hused', eq_append_append heq heq', hend⟩
  · rintro ⟨used, hused, rfl, hend⟩
    refine hused.takes hend.not_startsJoined ?_
    cases rest with
    | nil => exact .of_eq (by rw [takeSteps]) rfl rfl
    | cons t rest =>
        obtain ⟨hgt, hstarts⟩ := hend t rfl
        exact .of_eq (by rw [takeSteps, if_neg hgt, if_neg (by simp [hstarts])]) rfl rfl

theorem takes_takeSelectors {ss : List Selector} :
    Takes takeSelectors ts ss rest ↔
      ∃ used, IsSelectors used ss ∧ ts = used ++ rest ∧ EndsSelector rest ∧
        ∀ t ∈ rest.head?, t.token ≠ .comma := by
  constructor
  · rintro ⟨_, h⟩
    induction ts using takeSelectors.induct generalizing ss with
    | case1 ts ih =>
        rw [takeSelectors] at h
        obtain ⟨first, hfirst, h⟩ := bind_eq_ok.1 h
        obtain ⟨used, hused, heq, hend⟩ := takes_takeSelector.1 ⟨first.shorter, hfirst⟩
        split at h
        · next hrest =>
          cases h
          rw [hrest] at heq hend
          exact ⟨used, .single hused, heq, hend, by simp⟩
        · next t more hrest =>
          rw [hrest] at heq hend
          split at h
          · next hcomma =>
            obtain ⟨others, hothers, h⟩ := bind_eq_ok.1 h
            cases h
            obtain ⟨used', hused', heq', hend'⟩ :=
              ih first t more hrest others.shorter hothers
            exact ⟨used ++ t :: used', .cons hused hcomma hused',
              eq_append_append heq (congrArg (t :: ·) heq'), hend'⟩
          · next hcomma =>
            cases h
            exact ⟨used, .single hused, heq, hend, by rintro _ ⟨⟩; exact hcomma⟩
  · rintro ⟨used, hused, rfl, hend, hcomma⟩
    induction hused with
    | single hs =>
        obtain ⟨_, hfirst⟩ := takes_takeSelector.2 ⟨_, hs, rfl, hend⟩
        cases rest with
        | nil =>
            exact .of_eq (by
              rw [takeSelectors]
              exact bind_eq_ok.2 ⟨_, hfirst, rfl⟩) rfl rfl
        | cons t rest =>
            exact .of_eq (by
              rw [takeSelectors]
              exact bind_eq_ok.2 ⟨_, hfirst, if_neg (hcomma t rfl)⟩) rfl rfl
    | @cons ts us comma s ss hs hcomma' _ ih =>
        -- a comma does not go on with the selector in front of it
        have hends : EndsSelector (comma :: (us ++ rest)) := by
          rintro _ ⟨⟩
          simp [hcomma', startsCompound]
        obtain ⟨_, hfirst⟩ := takes_takeSelector.2 ⟨_, hs, rfl, hends⟩
        obtain ⟨_, hmore⟩ := ih
        rw [List.append_assoc, List.cons_append]
        exact .of_eq (by
          rw [takeSelectors]
          exact bind_eq_ok.2 ⟨_, hfirst, (if_pos hcomma').trans
            (bind_eq_ok.2 ⟨_, hmore, rfl⟩)⟩) rfl rfl

/-! ## Declarations -/

/-- How the items of a value end, and what is left: behind a mark of importance, or in front of a
semicolon, a closing brace or the end. -/
inductive EndsTerms : Bool → List Lexeme → List Lexeme → Prop
  | mark {mark : Lexeme} {rest : List Lexeme} (hmark : mark.token = .important) :
    EndsTerms true (mark :: rest) rest
  | plain {rest : List Lexeme}
    (h : ∀ t ∈ rest.head?, t.token = .semicolon ∨ t.token = .braceClose) :
    EndsTerms false rest rest

private theorem takeTerms_item {t : Lexeme} (hitem : isItem t.token = true) :
    takeTerms (t :: us) = (do
      let first ← (readTerm t).mapError fun fault => .fault (us.length + 1) fault
      let more ← takeTerms us
      return ⟨(first :: more.value.1, more.value.2), more.rest,
        Nat.le_succ_of_le more.notLonger⟩) := by
  rw [takeTerms]
  split
  · next ht => simp [ht, isItem] at hitem
  · next ht => simp [ht, isItem] at hitem
  · next ht => simp [ht, isItem] at hitem
  · rfl

theorem passes_takeTerms {terms : List Term} {important : Bool} (hcut : ∀ t ∈ ts, t.IsCut) :
    Passes takeTerms ts (terms, important) rest ↔
      ∃ vs more, List.Forall₂ Denotes vs terms ∧ ts = vs ++ more ∧
        EndsTerms important more rest := by
  constructor
  · rintro ⟨_, h⟩
    induction ts using takeTerms.induct generalizing terms with
    | case1 =>
        cases h
        exact ⟨[], [], .nil, rfl, .plain (by simp)⟩
    | case2 t more ht =>
        cases (by simpa only [takeTerms, ht] using h : Except.ok _ = Except.ok _)
        exact ⟨[], t :: more, .nil, rfl, .plain (by rintro _ ⟨⟩; exact .inl ht)⟩
    | case3 t more ht =>
        cases (by simpa only [takeTerms, ht] using h : Except.ok _ = Except.ok _)
        exact ⟨[], t :: more, .nil, rfl, .plain (by rintro _ ⟨⟩; exact .inr ht)⟩
    | case4 t more ht =>
        cases (by simpa only [takeTerms, ht] using h : Except.ok _ = Except.ok _)
        exact ⟨[], _, .nil, rfl, .mark ht⟩
    | case5 t more hsemicolon hbrace hmark ih =>
        rw [takeTerms] at h
        split at h
        · next ht => exact absurd ht hsemicolon
        · next ht => exact absurd ht hbrace
        · next ht => exact absurd ht hmark
        · obtain ⟨first, hfirst, h⟩ := bind_eq_ok.1 h
          obtain ⟨others, hothers, h⟩ := bind_eq_ok.1 h
          cases h
          have hdenotes : Denotes t first :=
            (hcut t List.mem_cons_self).readTerm_eq_ok.1 (mapError_eq_ok.1 hfirst)
          obtain ⟨vs, tail, hvs, heq, hends⟩ :=
            ih (fun u hu => hcut u (List.mem_cons_of_mem t hu)) others.notLonger hothers
          exact ⟨t :: vs, tail, .cons hdenotes hvs, congrArg (t :: ·) heq, hends⟩
  · rintro ⟨vs, more, hvs, rfl, hends⟩
    induction hvs with
    | nil =>
        cases hends with
        | mark hmark => exact ⟨by simp, by simp [takeTerms, hmark]⟩
        | plain h =>
            cases rest with
            | nil => exact ⟨Nat.le_refl _, rfl⟩
            | cons t rest =>
                rcases h t rfl with ht | ht
                · exact ⟨Nat.le_refl _, by simp [takeTerms, ht]⟩
                · exact ⟨Nat.le_refl _, by simp [takeTerms, ht]⟩
    | @cons t first vs terms hfirst _ ih =>
        obtain ⟨_, hmore⟩ := ih fun u hu => hcut u (List.mem_cons_of_mem t hu)
        have hread := (hcut t List.mem_cons_self).readTerm_eq_ok.2 hfirst
        rw [List.cons_append]
        exact .of_eq (by
          rw [takeTerms_item hfirst.isItem]
          exact bind_eq_ok.2 ⟨_, mapError_eq_ok.2 hread, bind_eq_ok.2 ⟨_, hmore, rfl⟩⟩) rfl rfl

theorem takes_takeColon {name : Lexeme} {first : List Term} (hname : name.token = .ident) :
    Takes takeColon ts first rest ↔
      ∃ t, IsOpening [name, t] name.text first ∧ ts = t :: rest := by
  constructor
  · rintro ⟨_, h⟩
    cases ts with
    | nil => cases h
    | cons t us =>
        rw [takeColon] at h
        split at h
        · next ht =>
          cases h
          exact ⟨t, .pseudo hname ht, rfl⟩
        · obtain ⟨colon, hcolon, h⟩ := bind_eq_ok.1 h
          cases h
          obtain ⟨ht, heq⟩ := (takes_takeAs _).1 ⟨colon.shorter, hcolon⟩
          exact ⟨colon.value, .colon hname ht, heq⟩
  · rintro ⟨t, hopening, rfl⟩
    cases hopening with
    | colon _ ht =>
        obtain ⟨_, hcolon⟩ :=
          (takes_takeAs (.token .colon)).2 ⟨ht, (rfl : t :: rest = _)⟩
        exact .of_eq (by
          rw [takeColon, if_neg (by simp [ht])]
          exact bind_eq_ok.2 ⟨_, hcolon, rfl⟩) rfl rfl
    | pseudo _ ht => exact ⟨by simp, by simp [takeColon, ht]⟩

theorem IsOpening.names {property : String} {first : List Term}
    (h : IsOpening used property first) :
    ∃ name t, used = [name, t] ∧ property = name.text ∧ name.token = .ident := by
  cases h with
  | colon hname _ | pseudo hname _ => exact ⟨_, _, rfl, rfl, hname⟩

theorem takes_takeDeclaration {d : Declaration} (hcut : ∀ t ∈ ts, t.IsCut) :
    Takes takeDeclaration ts d rest ↔
      ∃ opening vs more after property first terms important,
        IsOpening opening property first ∧ List.Forall₂ Denotes vs terms ∧
        EndsTerms important more after ∧ ts = opening ++ vs ++ more ∧
        d = ⟨property, first ++ terms, important⟩ ∧ rest = (passSemicolon after).rest := by
  constructor
  · rintro ⟨_, h⟩
    obtain ⟨name, hname, h⟩ := bind_eq_ok.1 h
    obtain ⟨first, hfirst, h⟩ := bind_eq_ok.1 h
    obtain ⟨terms, hterms, h⟩ := bind_eq_ok.1 h
    cases h
    obtain ⟨hident, heq⟩ := (takes_takeAs _).1 ⟨name.shorter, hname⟩
    obtain ⟨colon, hopening, heq'⟩ := (takes_takeColon hident).1 ⟨first.shorter, hfirst⟩
    have hts : ts = [name.value, colon] ++ first.rest := heq.trans (congrArg (_ :: ·) heq')
    have hcut' : ∀ t ∈ first.rest, t.IsCut := by
      intro t ht
      apply hcut
      rw [hts]
      exact List.mem_append_right _ ht
    obtain ⟨vs, more, hvs, heq'', hends⟩ :=
      (passes_takeTerms hcut').1 ⟨terms.notLonger, hterms⟩
    exact ⟨_, vs, more, _, _, _, _, _, hopening, hvs, hends, eq_append_append hts heq'', rfl, rfl⟩
  · rintro ⟨opening, vs, more, after, property, first, terms, important, hopening, hvs, hends, rfl,
      rfl, rfl⟩
    obtain ⟨name, colon, rfl, rfl, hident⟩ := hopening.names
    have hcut' : ∀ t ∈ vs ++ more, t.IsCut := by
      intro t ht
      apply hcut
      rw [List.append_assoc]
      exact List.mem_append_right _ ht
    obtain ⟨_, hname⟩ :=
      (takes_takeAs .propertyName).2 ⟨hident, (rfl : name :: colon :: (vs ++ more) = _)⟩
    obtain ⟨_, hfirst⟩ := (takes_takeColon hident).2
      ⟨colon, hopening, (rfl : colon :: (vs ++ more) = _)⟩
    obtain ⟨_, hterms⟩ := (passes_takeTerms hcut').2 ⟨vs, more, hvs, rfl, hends⟩
    rw [List.append_assoc]
    exact .of_eq (bind_eq_ok.2 ⟨_, hname, bind_eq_ok.2 ⟨_, hfirst, bind_eq_ok.2
      ⟨_, hterms, rfl⟩⟩⟩) rfl rfl

theorem passSemicolon_cases (ts : List Lexeme) :
    (∃ semicolon : Lexeme, semicolon.token = .semicolon ∧
      ts = semicolon :: (passSemicolon ts).rest) ∨
    ((∀ t ∈ ts.head?, t.token ≠ .semicolon) ∧ ts = (passSemicolon ts).rest) := by
  cases ts with
  | nil => exact .inr ⟨by simp, rfl⟩
  | cons t ts =>
      by_cases ht : t.token = .semicolon
      · exact .inl ⟨t, ht, by simp [passSemicolon, ht]⟩
      · exact .inr ⟨by rintro _ ⟨⟩; exact ht, by simp [passSemicolon, ht]⟩

/-- A block ends in front of a closing brace or at the end. -/
def EndsBlock (ts : List Lexeme) : Prop :=
  ∀ t ∈ ts.head?, t.token = .braceClose

theorem EndsBlock.passes (h : EndsBlock ts) : Passes takeDeclarations ts [] ts := by
  cases ts with
  | nil => exact .of_eq (by rw [takeDeclarations]) rfl rfl
  | cons t ts => exact .of_eq (by rw [takeDeclarations, if_pos (h t rfl)]) rfl rfl

theorem EndsBlock.eq_nil {ds : List Declaration} (h : EndsBlock ts)
    (hpasses : Passes takeDeclarations ts ds rest) : ds = [] ∧ rest = ts := by
  obtain ⟨_, hds⟩ := hpasses
  obtain ⟨_, hnil⟩ := h.passes
  cases hds.symm.trans hnil
  exact ⟨rfl, rfl⟩

theorem EndsTerms.closing {important : Bool} {more after : List Lexeme}
    (h : EndsTerms important more after) :
    (∃ ends, IsClosing ends important ∧ more = ends ++ (passSemicolon after).rest) ∨
      (important = false ∧ more = (passSemicolon after).rest ∧ EndsBlock more) := by
  cases h with
  | mark hmark =>
      rcases passSemicolon_cases after with ⟨semicolon, hsemicolon, heq⟩ | ⟨-, heq⟩
      · exact .inl ⟨_, .importantSemicolon hmark hsemicolon, congrArg (_ :: ·) heq⟩
      · exact .inl ⟨_, .important hmark, congrArg (_ :: ·) heq⟩
  | plain h =>
      rcases passSemicolon_cases more with ⟨semicolon, hsemicolon, heq⟩ | ⟨hnone, heq⟩
      · exact .inl ⟨_, .semicolon hsemicolon, heq⟩
      · exact .inr ⟨rfl, heq, fun t ht => (h t ht).resolve_left (hnone t ht)⟩

/-- Semicolons between declarations do not matter. -/
theorem Passes.passSemicolon {ds : List Declaration} (h : Passes takeDeclarations ts ds rest) :
    Passes takeDeclarations (passSemicolon ts).rest ds rest := by
  rcases passSemicolon_cases ts with ⟨semicolon, hsemicolon, heq⟩ | ⟨-, heq⟩
  · rw [heq] at h
    obtain ⟨_, h⟩ := h
    rw [takeDeclarations, if_neg (by simp [hsemicolon]), if_pos hsemicolon] at h
    obtain ⟨more, hmore, h⟩ := bind_eq_ok.1 h
    cases h
    exact ⟨more.notLonger, hmore⟩
  · rwa [← heq]

theorem IsClosing.endsTerms {ends : List Lexeme} {important : Bool} (h : IsClosing ends important)
    {ds : List Declaration} (hmore : Passes takeDeclarations ts ds rest) :
    ∃ after, EndsTerms important (ends ++ ts) after ∧
      Passes takeDeclarations (passSemicolon after).rest ds rest := by
  cases h with
  | important hmark => exact ⟨ts, .mark hmark, hmore.passSemicolon⟩
  | @importantSemicolon _ semicolon hmark hsemicolon =>
      refine ⟨semicolon :: ts, .mark hmark, ?_⟩
      simpa [Css.passSemicolon, hsemicolon] using hmore
  | @semicolon semicolon hsemicolon =>
      refine ⟨semicolon :: ts, .plain (by rintro _ ⟨⟩; exact .inl hsemicolon), ?_⟩
      simpa [Css.passSemicolon, hsemicolon] using hmore

theorem IsOpening.passes {opening vs more after : List Lexeme} {property : String}
    {first terms : List Term} {important : Bool} {ds : List Declaration}
    (hcut : ∀ t ∈ opening ++ vs ++ more, t.IsCut) (hopening : IsOpening opening property first)
    (hvs : List.Forall₂ Denotes vs terms) (hends : EndsTerms important more after)
    (hmore : Passes takeDeclarations (passSemicolon after).rest ds rest) :
    Passes takeDeclarations (opening ++ vs ++ more)
      (⟨property, first ++ terms, important⟩ :: ds) rest := by
  have hfirst := (takes_takeDeclaration hcut).2
    ⟨opening, vs, more, after, _, _, _, _, hopening, hvs, hends, rfl, rfl, rfl⟩
  obtain ⟨name, colon, rfl, rfl, hident⟩ := hopening.names
  rw [List.append_assoc, List.cons_append] at hfirst ⊢
  obtain ⟨_, hfirst⟩ := hfirst
  obtain ⟨_, hmore⟩ := hmore
  exact .of_eq (by
    rw [takeDeclarations, if_neg (by simp [hident]), if_neg (by simp [hident])]
    exact bind_eq_ok.2 ⟨_, hfirst, bind_eq_ok.2 ⟨_, hmore, rfl⟩⟩) rfl rfl

theorem passes_takeDeclarations {ds : List Declaration} (hcut : ∀ t ∈ ts, t.IsCut) :
    Passes takeDeclarations ts ds rest ↔
      ∃ used, IsBlock used ds ∧ ts = used ++ rest ∧ EndsBlock rest := by
  constructor
  · rintro ⟨_, h⟩
    induction ts using takeDeclarations.induct generalizing ds with
    | case1 =>
        rw [takeDeclarations] at h
        cases h
        exact ⟨[], .nil, rfl, by simp [EndsBlock]⟩
    | case2 t more ht =>
        rw [takeDeclarations, if_pos ht] at h
        cases h
        exact ⟨[], .nil, rfl, by rintro _ ⟨⟩; exact ht⟩
    | case3 t more hbrace hsemicolon ih =>
        rw [takeDeclarations, if_neg hbrace, if_pos hsemicolon] at h
        obtain ⟨others, hothers, h⟩ := bind_eq_ok.1 h
        cases h
        obtain ⟨used, hused, heq, hend⟩ :=
          ih (fun u hu => hcut u (List.mem_cons_of_mem t hu)) others.notLonger hothers
        exact ⟨t :: used, .semicolon hsemicolon hused, congrArg (t :: ·) heq, hend⟩
    | case4 t more hbrace hsemicolon ih =>
        rw [takeDeclarations, if_neg hbrace, if_neg hsemicolon] at h
        obtain ⟨d, hd, h⟩ := bind_eq_ok.1 h
        obtain ⟨others, hothers, h⟩ := bind_eq_ok.1 h
        cases h
        obtain ⟨opening, vs, tail, after, property, first, terms, important, hopening, hvs, hends,
          heq, hvalue, hrest⟩ := (takes_takeDeclaration hcut).1 ⟨d.shorter, hd⟩
        have hclosing := hends.closing
        rw [← hrest] at hclosing
        rw [hvalue]
        -- the declaration has an end of its own, or the block ends with it
        rcases hclosing with ⟨ends, hclosing, htail⟩ | ⟨rfl, htail, hend⟩
        · have hsource : t :: more = (opening ++ vs ++ ends) ++ d.rest := eq_append_append heq htail
          have hcut' : ∀ u ∈ d.rest, u.IsCut := by
            intro u hu
            apply hcut
            rw [hsource]
            exact List.mem_append_right _ hu
          obtain ⟨used, hused, heq', hend⟩ := ih d hcut' others.notLonger hothers
          exact ⟨_, .declaration hopening hvs hclosing hused, eq_append_append hsource heq', hend⟩
        · rw [htail] at hend heq
          obtain ⟨hnil, hrest'⟩ := hend.eq_nil ⟨others.notLonger, hothers⟩
          rw [hnil, hrest']
          exact ⟨_, .last hopening hvs, heq, hend⟩
  · rintro ⟨used, hused, rfl, hend⟩
    induction hused with
    | nil => exact hend.passes
    | @semicolon us semicolon ds hsemicolon _ ih =>
        obtain ⟨_, hmore⟩ := ih fun t ht => hcut t (List.mem_cons_of_mem _ ht)
        rw [List.cons_append]
        exact .of_eq (by
          rw [takeDeclarations, if_neg (by simp [hsemicolon]), if_pos hsemicolon]
          exact bind_eq_ok.2 ⟨_, hmore, rfl⟩) rfl rfl
    | @declaration opening vs ends _ _ _ _ _ _ hopening hvs hclosing _ ih =>
        rw [List.append_assoc, List.append_assoc _ ends] at hcut ⊢
        have hmore := ih fun t ht => hcut t (by simp only [List.mem_append] at ht ⊢; tauto)
        obtain ⟨after, hends, hafter⟩ := hclosing.endsTerms hmore
        exact hopening.passes hcut hvs hends hafter
    | @last opening vs property first terms hopening hvs =>
        have hnone : (passSemicolon rest).rest = rest := by
          rcases passSemicolon_cases rest with ⟨semicolon, hsemicolon, heq⟩ | ⟨-, heq⟩
          · have hbrace := hend semicolon (by rw [heq]; rfl)
            rw [hsemicolon] at hbrace
            cases hbrace
          · exact heq.symm
        refine hopening.passes hcut hvs (.plain fun t ht => .inr (hend t ht)) ?_
        rw [hnone]
        exact hend.passes

theorem takes_takeRule {rule : Rule} (hcut : ∀ t ∈ ts, t.IsCut) :
    Takes takeRule ts rule rest ↔ ∃ used, IsRule used rule ∧ ts = used ++ rest := by
  constructor
  · rintro ⟨_, h⟩
    obtain ⟨selectors, hselectors, h⟩ := bind_eq_ok.1 h
    obtain ⟨opened, hopened, h⟩ := bind_eq_ok.1 h
    obtain ⟨block, hblock, h⟩ := bind_eq_ok.1 h
    obtain ⟨closed, hclosed, h⟩ := bind_eq_ok.1 h
    cases h
    obtain ⟨front, hfront, heq, -⟩ := takes_takeSelectors.1 ⟨selectors.shorter, hselectors⟩
    obtain ⟨hopen, heqOpened⟩ := (takes_takeAs _).1 ⟨opened.shorter, hopened⟩
    obtain ⟨hclose, heqClosed⟩ := (takes_takeAs _).1 ⟨closed.shorter, hclosed⟩
    have hsource : ts = (front ++ [opened.value]) ++ opened.rest := eq_append_append heq heqOpened
    have hcut' : ∀ t ∈ opened.rest, t.IsCut := by
      intro t ht
      apply hcut
      rw [hsource]
      exact List.mem_append_right _ ht
    obtain ⟨us, hus, heqBlock, -⟩ :=
      (passes_takeDeclarations hcut').1 ⟨block.notLonger, hblock⟩
    refine ⟨_, .mk hfront hopen hus hclose, ?_⟩
    rw [heqBlock, heqClosed] at hsource
    simpa using hsource
  · rintro ⟨_, @⟨front, us, opened, closed, ss, ds, hselectors, hopened, hblock, hclosed⟩, rfl⟩
    have hsource : front ++ opened :: us ++ [closed] ++ rest =
        front ++ opened :: (us ++ closed :: rest) := by simp
    rw [hsource] at hcut ⊢
    have hends : EndsSelector (opened :: (us ++ closed :: rest)) := by
      rintro _ ⟨⟩
      simp [hopened, startsCompound]
    have hcomma : ∀ t ∈ (opened :: (us ++ closed :: rest)).head?, t.token ≠ .comma := by
      rintro _ ⟨⟩
      simp [hopened]
    have hcut' : ∀ t ∈ us ++ closed :: rest, t.IsCut :=
      fun t ht => hcut t (List.mem_append_right _ (List.mem_cons_of_mem _ ht))
    have hend : EndsBlock (closed :: rest) := by
      rintro _ ⟨⟩
      exact hclosed
    obtain ⟨_, hss⟩ := takes_takeSelectors.2 ⟨front, hselectors, rfl, hends, hcomma⟩
    obtain ⟨_, hopened⟩ := (takes_takeAs (.token .braceOpen)).2
      ⟨hopened, (rfl : opened :: (us ++ closed :: rest) = _)⟩
    obtain ⟨_, hds⟩ := (passes_takeDeclarations hcut').2 ⟨us, hblock, rfl, hend⟩
    obtain ⟨_, hclosed⟩ := (takes_takeAs (.token .braceClose)).2
      ⟨hclosed, (rfl : closed :: rest = _)⟩
    exact .of_eq (bind_eq_ok.2 ⟨_, hss, bind_eq_ok.2 ⟨_, hopened, bind_eq_ok.2 ⟨_, hds,
      bind_eq_ok.2 ⟨_, hclosed, rfl⟩⟩⟩⟩) rfl rfl

theorem takeRules_eq_ok {rules : List Rule} (hcut : ∀ t ∈ ts, t.IsCut) :
    takeRules ts = .ok rules ↔ IsSheet ts rules := by
  constructor
  · intro h
    induction ts using takeRules.induct generalizing rules with
    | case1 ts hempty =>
        rw [takeRules, if_pos hempty] at h
        cases h
        rw [List.isEmpty_iff.1 hempty]
        exact .nil
    | case2 ts hempty ih =>
        rw [takeRules, if_neg hempty] at h
        obtain ⟨rule, hrule, h⟩ := bind_eq_ok.1 h
        obtain ⟨more, hmore, h⟩ := bind_eq_ok.1 h
        cases h
        obtain ⟨used, hused, heq⟩ := (takes_takeRule hcut).1 ⟨rule.shorter, hrule⟩
        have hcut' : ∀ t ∈ rule.rest, t.IsCut := by
          intro t ht
          apply hcut
          rw [heq]
          exact List.mem_append_right _ ht
        have hsheet := IsSheet.cons hused (ih rule hcut' hmore)
        rwa [← heq] at hsheet
  · intro h
    induction h with
    | nil => simp [takeRules]
    | @cons used us rule rules hused _ ih =>
        obtain ⟨hlt, hrule⟩ := (takes_takeRule hcut).2 ⟨used, hused, rfl⟩
        have hmore := ih fun t ht => hcut t (List.mem_append_right _ ht)
        have hne : ¬ (used ++ us).isEmpty = true := by
          intro hempty
          rw [List.isEmpty_iff.1 hempty] at hlt
          cases hlt
        rw [takeRules, if_neg hne]
        exact bind_eq_ok.2 ⟨_, hrule, bind_eq_ok.2 ⟨_, hmore, rfl⟩⟩

/-! ## The rules of a stylesheet -/

theorem readRules_eq_ok {text : String} {rules : List Rule} :
    readRules text = .ok rules ↔ IsSheet (lex (stripComments text.toList)) rules :=
  mapError_eq_ok.trans (takeRules_eq_ok (lex_isCut _))

/-- The compounds and combinators of a selector as they are written. -/
def Selector.parts : Selector → List (Compound ⊕ Combinator)
  | .compound c => [.inl c]
  | .within outer combinator c => outer.parts ++ [.inr combinator, .inl c]

def Component.isQualifier : Component → Bool
  | .ofType _ | .universal => false
  | .ofClass _ | .ofId _ | .ofPseudo _ => true

/-- Compounds with combinators between them. Each compound has a first condition, and after that
only qualifiers. -/
inductive Alternates : List (Compound ⊕ Combinator) → Prop
  | last (c : Component) {cs : Compound} (h : ∀ q ∈ cs, q.isQualifier = true) :
    Alternates [.inl (c :: cs)]
  | step (c : Component) {cs : Compound} (h : ∀ q ∈ cs, q.isQualifier = true)
    (combinator : Combinator) {parts : List (Compound ⊕ Combinator)} (hmore : Alternates parts) :
    Alternates (.inl (c :: cs) :: .inr combinator :: parts)

theorem Alternates.append {parts more : List (Compound ⊕ Combinator)} (h : Alternates parts)
    (combinator : Combinator) (hmore : Alternates more) :
    Alternates (parts ++ .inr combinator :: more) := by
  induction h with
  | last c h => exact .step c h combinator hmore
  | step c h k _ ih => exact .step c h k ih

theorem IsQualifiers.isQualifier {cs : List Component} (h : IsQualifiers used cs) :
    ∀ q ∈ cs, q.isQualifier = true := by
  induction h with
  | nil => simp
  | cons hq _ _ ih =>
      refine List.forall_mem_cons.2 ⟨?_, ih⟩
      cases hq <;> rfl

theorem IsCompound.alternates {c : Compound} (h : IsCompound used c) : Alternates [.inl c] := by
  obtain ⟨_, hmore⟩ := h
  exact .last _ hmore.isQualifier

theorem IsSelector.alternates {s : Selector} (h : IsSelector used s) : Alternates s.parts := by
  induction h with
  | compound hc => exact hc.alternates
  | child _ _ hc ih => exact ih.append .child hc.alternates
  | descendant _ hc _ ih => exact ih.append .descendant hc.alternates

theorem IsSelectors.alternates {ss : List Selector} (h : IsSelectors used ss) :
    ∀ s ∈ ss, Alternates s.parts := by
  induction h with
  | single hs => exact List.forall_mem_singleton.2 hs.alternates
  | cons hs _ _ ih => exact List.forall_mem_cons.2 ⟨hs.alternates, ih⟩

theorem IsSheet.alternates {rules : List Rule} (h : IsSheet used rules) :
    ∀ rule ∈ rules, ∀ s ∈ rule.selectors, Alternates s.parts := by
  induction h with
  | nil => simp
  | cons hrule _ ih =>
      obtain ⟨hselectors, -, -, -⟩ := hrule
      exact List.forall_mem_cons.2 ⟨hselectors.alternates, ih⟩

/-- A text is read exactly if the grammar derives it, into the rules that it derives. No numeral is
in the way of that, and compounds and combinators alternate in every selector. -/
theorem readRules_exact (text : String) :
    (∀ rules, readRules text = .ok rules ↔
      IsSheet (marked none (pieces (stripComments text.toList))) rules) ∧
    (∀ t ∈ marked none (pieces (stripComments text.toList)),
      isItem t.token = true ↔ ∃ term, Denotes t term) ∧
    ∀ rules, readRules text = .ok rules →
      ∀ rule ∈ rules, ∀ s ∈ rule.selectors, Alternates s.parts := by
  have hcut := lex_isCut (stripComments text.toList)
  have hread (rules : List Rule) : readRules text = .ok rules ↔
      IsSheet (lex (stripComments text.toList)) rules :=
    mapError_eq_ok.trans (takeRules_eq_ok hcut)
  rw [← lex_eq_marked]
  refine ⟨hread, fun t ht => ⟨(hcut t ht).denotes, ?_⟩, fun rules h => ?_⟩
  · rintro ⟨term, h⟩
    exact h.isItem
  · exact ((hread rules).1 h).alternates

end ReportModel.Css
