import ReportModel.Proofs.Css.Printing

/-!
# Names of ids

Three or more hexadecimal digits behind a `#` are cut as a colour of at most eight digits, which is
read as an id. So an identifier is read back as an id if fewer of the characters in front are such
digits, or if it is a colour as a whole. The id of any other identifier is cut short, and what is
left of the name is read as something else.
-/

namespace ReportModel.Css

variable {name : String} {used : List Lexeme} {cs digits rest : List Char} {s : Selector}

theorem readRules_of_cuts (hcuts : Cuts false cs used) (hs : IsSelector used s)
    (hslash : '/' ∉ cs) : readRules (String.ofList cs ++ " \x7b\x7d") = .ok [⟨[s], []⟩] := by
  have htext : (String.ofList cs ++ " \x7b\x7d").toList = cs ++ [' ', '{', '}'] := by
    simp
  have hstrip : stripComments (cs ++ [' ', '{', '}']) = cs ++ [' ', '{', '}'] :=
    stripComments_eq_self (by simpa using hslash)
  have hlex : lex (cs ++ [' ', '{', '}']) =
      used ++ [⟨.braceOpen, ['{'], false⟩, ⟨.braceClose, ['}'], true⟩] :=
    hcuts _ (by rintro x ⟨⟩; decide)
  have hrule : IsRule (used ++ ⟨.braceOpen, ['{'], false⟩ :: [] ++ [⟨.braceClose, ['}'], true⟩])
      ⟨[s], []⟩ := .mk (.single hs) rfl .nil rfl
  rw [readRules_eq_ok, htext, hstrip, hlex]
  simpa using IsSheet.cons hrule .nil

/-- A sheet that is a lone id starts with a `#`, or with the id as a colour. -/
theorem IsSheet.exists_head_of_id (h : IsSheet used [⟨[.compound [.ofId name]], []⟩]) :
    ∃ t ∈ used.head?, t.token = .hash ∨ (t.token = .hexColor ∧ t.tailText = name) := by
  cases h with
  | cons hrule _ =>
      obtain ⟨hselectors, -, -, -⟩ := hrule
      cases hselectors with
      | cons _ _ hmore => cases hmore
      | single hs =>
          cases hs with
          | compound hc =>
              obtain ⟨hhead, -⟩ := hc
              cases hhead with
              | qualifier hq =>
                  cases hq with
                  | ofId hhash => exact ⟨_, rfl, Or.inl hhash⟩
                  | ofColor ht => exact ⟨_, rfl, Or.inr ⟨ht, rfl⟩⟩

theorem notMem_of_isIdentPart {x : Char} (hcs : ∀ c ∈ cs, isIdentPart c = true)
    (hx : isIdentPart x = false) : x ∉ cs := fun hmem =>
  Bool.false_ne_true (hx.symm.trans (hcs x hmem))

theorem readRules_id_ne (h : isIdent name.toList = true)
    (hrun : 3 ≤ Pattern.run isHexDigit name.toList) (hhex : isHex name.toList = false) :
    readRules ("#" ++ name ++ " \x7b\x7d") ≠ .ok [⟨[.compound [.ofId name]], []⟩] := by
  have htext : ("#" ++ name ++ " \x7b\x7d").toList = '#' :: (name.toList ++ [' ', '{', '}']) := by
    simp
  have hslash : '/' ∉ '#' :: (name.toList ++ [' ', '{', '}']) := by
    simpa using notMem_of_isIdentPart (isIdentPart_of_isIdent h) (by decide)
  have hlongest : longest ('#' :: (name.toList ++ [' ', '{', '}'])) = _ :=
    longest_hexColor_of_run (by rwa [Pattern.run_append_of_head (by rintro c ⟨⟩; decide)])
  rw [Ne, readRules_eq_ok, htext, stripComments_eq_self hslash]
  intro hsheet
  obtain ⟨t, ht, hcase⟩ := hsheet.exists_head_of_id
  have hcut := lex_isCut _ t (List.mem_of_mem_head? ht)
  rw [lex, lexFrom, if_neg (by decide), hlongest] at ht
  obtain rfl := Option.some.inj ht
  rcases hcase with hhash | ⟨hcolor, hname⟩
  · cases hhash
  · -- the first lexeme is a colour, and the name is not one
    have hwhole := hcut.isHex hcolor
    rw [hname, hhex] at hwhole
    cases hwhole

/-- An identifier is read back as an id if the digits it starts with are too few for a colour, or
if it is a colour as a whole. -/
theorem readRules_id_of_isLegible (h : (Component.ofId name).isLegible = true) :
    readRules ("#" ++ name ++ " \x7b\x7d") = .ok [⟨[.compound [.ofId name]], []⟩] := by
  obtain ⟨t, ts, hcuts, hid, -⟩ := Component.exists_cuts h false
  have hselector : IsSelector (t :: ts ++ []) (.compound [.ofId name]) := .compound (.mk hid .nil)
  rw [List.append_nil] at hselector
  have hnamed := Component.isNamed_of_isLegible h
  have hslash : '/' ∉ (Component.ofId name).chars := fun hmem => by
    rcases Component.mem_chars hnamed _ hmem with hpart | hmark
    · exact absurd hpart (by decide)
    · exact absurd hmark (by decide)
  have hread := readRules_of_cuts hcuts hselector hslash
  rwa [Component.chars, String.ofList_toList] at hread

theorem longest_hexColor_append (hdigits : isHex digits = true)
    (hends : digits.length < 8 → ∀ c ∈ rest.head?, isHexDigit c = false) :
    longest ('#' :: digits ++ rest) = some (.hexColor, ('#' :: digits).length) := by
  simp only [isHex, Bool.and_eq_true, decide_eq_true_eq] at hdigits
  obtain ⟨⟨hmin, hmax⟩, hall⟩ := hdigits
  have hrun : Pattern.run isHexDigit (digits ++ rest) =
      digits.length + Pattern.run isHexDigit rest := by
    simp [Pattern.run, List.takeWhile_append_of_pos (List.all_eq_true.1 hall)]
  have hnone : digits.length < 8 → Pattern.run isHexDigit rest = 0 := by
    intro hlt
    have hstop : Pattern.run isHexDigit ([] ++ rest) = [].length :=
      Pattern.run_append (by simp) (hends hlt)
    exact hstop
  have hlongest : longest ('#' :: (digits ++ rest)) = _ :=
    longest_hexColor_of_run (by rw [hrun]; omega)
  have hcount : 1 + min (digits.length + Pattern.run isHexDigit rest) 8 =
      ('#' :: digits).length := by
    rw [List.length_cons]
    omega
  rwa [hrun, hcount] at hlongest

/-- The colour that an identifier starts with is read as the id, and an identifier behind it as a
type. -/
theorem readRules_id_append (hdigits : isHex digits = true) (hrest : isIdent rest = true)
    (hends : digits.length < 8 → ∀ c ∈ rest.head?, isHexDigit c = false) :
    readRules ("#" ++ String.ofList (digits ++ rest) ++ " \x7b\x7d") =
      .ok [⟨[.within (.compound [.ofId (String.ofList digits)]) .descendant
        [.ofType (String.ofList rest)]], []⟩] := by
  have hcuts : Cuts false ('#' :: (digits ++ rest))
      [⟨.hexColor, '#' :: digits, false⟩, ⟨.ident, rest, true⟩] := by
    intro after hafter
    have hhead : digits.length < 8 → ∀ c ∈ (rest ++ after).head?, isHexDigit c = false := by
      obtain ⟨c, cs, rfl, -⟩ := exists_isIdentStart hrest
      exact hends
    have hcolor := lexFrom_of_longest false (longest_hexColor_append hdigits hhead)
    have hname := lexFrom_of_longest true (longest_ident hrest hafter)
    simpa [hname] using hcolor
  have hselector : IsSelector
      ([⟨.hexColor, '#' :: digits, false⟩] ++ [] ++ ([⟨.ident, rest, true⟩] ++ []))
      (.within (.compound [.ofId (String.ofList digits)]) .descendant
        [.ofType (String.ofList rest)]) := by
    refine .descendant (.compound (.mk (.qualifier (.ofColor rfl)) .nil))
      (.mk (.ofType rfl) .nil) ?_
    rintro ⟨t, ⟨⟩, -, hstarts⟩
    cases hstarts
  have hslash : '/' ∉ '#' :: (digits ++ rest) := by
    simpa using And.intro (notMem_of_isIdentPart (isIdentPart_of_isHex hdigits) (by decide))
      (notMem_of_isIdentPart (isIdentPart_of_isIdent hrest) (by decide))
  have hread := readRules_of_cuts hcuts hselector hslash
  have htext : '#' :: (digits ++ rest) = ['#'] ++ (digits ++ rest) := rfl
  rwa [htext, String.ofList_append] at hread

/-- An identifier is read back as an id if and only if it does not go on behind a colour. Otherwise
the colour is read as the id of a container, and an identifier behind it as a type in there. -/
theorem readRules_id (h : isIdent name.toList = true) :
    (readRules ("#" ++ name ++ " \x7b\x7d") = .ok [⟨[.compound [.ofId name]], []⟩] ↔
      isHex name.toList = true ∨ Pattern.run isHexDigit name.toList < 3) ∧
    ∀ digits rest : List Char, name.toList = digits ++ rest → isHex digits = true →
      isIdent rest = true → (digits.length < 8 → ∀ c ∈ rest.head?, isHexDigit c = false) →
      readRules ("#" ++ name ++ " \x7b\x7d") =
        .ok [⟨[.within (.compound [.ofId (String.ofList digits)]) .descendant
          [.ofType (String.ofList rest)]], []⟩] := by
  refine ⟨⟨fun hread => ?_, fun hname => readRules_id_of_isLegible ?_⟩,
    fun digits rest hname hdigits hrest hends => ?_⟩
  · by_contra hneither
    obtain ⟨hhex, hrun⟩ := not_or.1 hneither
    exact readRules_id_ne h (Nat.le_of_not_lt hrun) (Bool.eq_false_of_not_eq_true hhex) hread
  · simpa [Component.isLegible, h] using hname
  · have hsplit : name = String.ofList (digits ++ rest) := by
      rw [← hname, String.ofList_toList]
    rw [hsplit]
    exact readRules_id_append hdigits hrest hends

/-- The digits of `facades` are cut off the name. -/
theorem readRules_id_facades :
    readRules ("#" ++ "facades" ++ " \x7b\x7d") ≠ .ok [⟨[.compound [.ofId "facades"]], []⟩] ∧
      readRules ("#" ++ "facades" ++ " \x7b\x7d") =
        .ok [⟨[.within (.compound [.ofId "facade"]) .descendant [.ofType "s"]], []⟩] := by
  have hident : isIdent "facades".toList = true := by decide +kernel
  obtain ⟨hiff, hsplit⟩ := readRules_id hident
  refine ⟨fun hread => absurd (hiff.1 hread) (by decide +kernel), ?_⟩
  have hread := hsplit "facade".toList "s".toList (by decide +kernel) (by decide +kernel)
    (by decide +kernel) (by simp [isHexDigit])
  rwa [String.ofList_toList, String.ofList_toList] at hread

/-- The identifier `fading` cannot be used as an id. -/
theorem readRules_fading : isIdent "fading".toList = true ∧
    readRules ("#" ++ "fading" ++ " \x7b\x7d") =
      .ok [⟨[.within (.compound [.ofId "fad"]) .descendant [.ofType "ing"]], []⟩] := by
  decide +kernel

end ReportModel.Css
