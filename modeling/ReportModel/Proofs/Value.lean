import ReportModel.Dictionary.Basic
import ReportModel.Proofs.Except

/-!
# Normal values

Each kind stores the values of a form of its own. What normalization gives has that form, and a
value that has it is left as it is.
-/

namespace ReportModel

def isColorChar (c : Char) : Bool :=
  c = '#' || isHexDigit c || c.isAlpha

private theorem lower_ofNat : ∀ n < 128, isColorChar (Char.ofNat n) = true →
    (Char.ofNat n).toLower.toLower = (Char.ofNat n).toLower ∧
    Text.isBlank (Char.ofNat n).toLower = false ∧
    ((Char.ofNat n).toLower = '#' ↔ Char.ofNat n = '#') ∧
    isHexDigit (Char.ofNat n).toLower = isHexDigit (Char.ofNat n) ∧
    (Char.ofNat n).toLower.isAlpha = (Char.ofNat n).isAlpha := by
  decide +kernel

private theorem isUpper_lower_ofNat : ∀ n < 128, (Char.ofNat n).toLower.isUpper = false := by
  decide +kernel

private theorem toNat_lt_of_isColorChar {c : Char} (h : isColorChar c = true) : c.toNat < 128 := by
  have hbound : ∀ {d : Char}, c.val ≤ d.val → d.toNat < 128 → c.toNat < 128 :=
    fun hle hlt => Nat.lt_of_le_of_lt hle hlt
  have halpha : c.isAlpha = true → c.toNat < 128 := by
    intro h
    rcases Bool.or_eq_true_iff.1 h with hupper | hlower
    · exact hbound (d := 'Z') (of_decide_eq_true hupper).2 (by decide)
    · exact hbound (d := 'z') (of_decide_eq_true (Bool.and_eq_true_iff.1 hlower).2) (by decide)
  simp only [isColorChar, isHexDigit, Bool.or_eq_true, Bool.and_eq_true, decide_eq_true_eq] at h
  rcases h with (rfl | (hdigit | ⟨-, hle⟩) | ⟨-, hle⟩) | h
  · decide
  · exact hbound (d := '9') (of_decide_eq_true (Bool.and_eq_true_iff.1 hdigit).2) (by decide)
  · exact hbound (d := 'f') hle (by decide)
  · exact hbound (d := 'F') hle (by decide)
  · exact halpha h

theorem lower_of_isColorChar {c : Char} (h : isColorChar c = true) :
    c.toLower.toLower = c.toLower ∧ Text.isBlank c.toLower = false ∧ (c.toLower = '#' ↔ c = '#') ∧
      isHexDigit c.toLower = isHexDigit c ∧ c.toLower.isAlpha = c.isAlpha := by
  have hlower := lower_ofNat c.toNat (toNat_lt_of_isColorChar h)
  rw [Char.ofNat_toNat] at hlower
  exact hlower h

theorem isUpper_lower_of_isColorChar {c : Char} (h : isColorChar c = true) :
    c.toLower.isUpper = false := by
  have hlower := isUpper_lower_ofNat c.toNat (toNat_lt_of_isColorChar h)
  rwa [Char.ofNat_toNat] at hlower

theorem Text.trimChars_eq_self {cs : List Char} (h : ∀ c ∈ cs, isBlank c = false) :
    trimChars cs = cs := by
  have hdrop : ∀ {ds : List Char}, (∀ c ∈ ds, isBlank c = false) → ds.dropWhile isBlank = ds := by
    intro ds hds
    cases ds with
    | nil => rfl
    | cons d ds => simp [hds d List.mem_cons_self]
  rw [trimChars, hdrop h, hdrop (fun c hc => h c (List.mem_reverse.1 hc)), List.reverse_reverse]

def isColor : List Char → Bool
  | '#' :: hex => (hex.length = 3 || hex.length = 6) && hex.all isHexDigit
  | cs => !cs.isEmpty && cs.all Char.isAlpha

theorem readColor_eq_ite (s : String) : readColor s =
    if isColor (Text.trimChars s.toList) = true then
      some (String.ofList ((Text.trimChars s.toList).map Char.toLower))
    else none :=
  rfl

theorem isColorChar_of_isColor {cs : List Char} (h : isColor cs = true) :
    ∀ c ∈ cs, isColorChar c = true := by
  unfold isColor at h
  split at h
  · next hex =>
    simp only [Bool.and_eq_true, List.all_eq_true] at h
    intro c hc
    rcases List.mem_cons.1 hc with rfl | hc
    · rfl
    · simp [isColorChar, h.2 c hc]
  · simp only [Bool.and_eq_true, List.all_eq_true] at h
    intro c hc
    simp [isColorChar, h.2 c hc]

theorem isColor_lower {cs : List Char} (h : isColor cs = true) :
    isColor (cs.map Char.toLower) = true := by
  have hchars := isColorChar_of_isColor h
  unfold isColor at h
  split at h
  · next hex =>
    have hhex : ∀ c ∈ hex, isHexDigit c.toLower = isHexDigit c := fun c hc =>
      (lower_of_isColorChar (hchars c (List.mem_cons_of_mem _ hc))).2.2.2.1
    change ((hex.map Char.toLower).length = 3 || (hex.map Char.toLower).length = 6) &&
      (hex.map Char.toLower).all isHexDigit
    simp only [Bool.and_eq_true, List.all_eq_true] at h
    simp only [List.length_map, h.1, Bool.true_and, List.all_map, List.all_eq_true]
    exact fun c hc => (hhex c hc).trans (h.2 c hc)
  · next hne =>
    simp only [Bool.and_eq_true, List.all_eq_true] at h
    have halpha : ∀ c ∈ cs.map Char.toLower, c.isAlpha = true := by
      rw [List.forall_mem_map]
      exact fun c hc => (lower_of_isColorChar (hchars c hc)).2.2.2.2.trans (h.2 c hc)
    unfold isColor
    split
    · next hex heq => cases halpha '#' (by rw [heq]; exact List.mem_cons_self)
    · simpa using ⟨by simpa using h.1, by simpa using halpha⟩

def IsLowerColor (s : String) : Prop :=
  isColor s.toList = true ∧ ∀ c ∈ s.toList, c.isUpper = false

theorem toLower_of_not_isUpper {c : Char} (h : c.isUpper = false) : c.toLower = c :=
  dif_neg (of_decide_eq_false h)

theorem isLowerColor_of_readColor {s c : String} (h : readColor s = some c) : IsLowerColor c := by
  rw [readColor_eq_ite] at h
  split at h
  · next hcolor =>
    obtain rfl := Option.some.inj h
    have hchars := isColorChar_of_isColor hcolor
    rw [IsLowerColor, String.toList_ofList]
    refine ⟨isColor_lower hcolor, ?_⟩
    rw [List.forall_mem_map]
    exact fun c hc => isUpper_lower_of_isColorChar (hchars c hc)
  · cases h

theorem IsLowerColor.readColor_eq {s : String} (h : IsLowerColor s) : readColor s = some s := by
  obtain ⟨hcolor, hlower⟩ := h
  have hself : ∀ c ∈ s.toList, c.toLower = c := fun c hc => toLower_of_not_isUpper (hlower c hc)
  have hmap : s.toList.map Char.toLower = s.toList := by
    rw [List.map_congr_left hself, List.map_id']
  have htrim : Text.trimChars s.toList = s.toList := by
    apply Text.trimChars_eq_self
    intro c hc
    have hblank := (lower_of_isColorChar (isColorChar_of_isColor hcolor c hc)).2.1
    rwa [hself c hc] at hblank
  rw [readColor_eq_ite, htrim, if_pos hcolor, hmap, String.ofList_toList]

theorem Dimension.knownUnits_of_read {s : String} {d : Dimension} (h : read s = some d) :
    knownUnits.contains d.units = true := by
  simp only [read] at h
  split at h
  · next hvalid =>
    obtain ⟨x, -, rfl⟩ := Option.map_eq_some_iff.1 h
    exact (Bool.and_eq_true_iff.1 hvalid).2
  · cases h

theorem orFault_eq_ok {α : Type} {fault : ValueFault} {o : Option α} {a : α} :
    orFault fault o = .ok a ↔ o = some a := by
  cases o <;> simp [orFault]

/-- The values that a kind stores: those of its own sort, a choice being among the names, a
dimension having a known unit, a colour being in lower case. -/
inductive Kind.Canonical : Kind → Value → Prop
  | string (s : String) : Canonical .string (.string s)
  | integer (n : Int) : Canonical .integer (.integer n)
  | float (x : Number) : Canonical .float (.float x)
  | boolean (b : Bool) : Canonical .boolean (.boolean b)
  | choice {names : List String} {name : String} (h : name ∈ names) :
    Canonical (.choice names) (.choice name)
  | expression (script : String) : Canonical .expression (.expression script)
  | dimension {d : Dimension} (h : d.units ∈ Dimension.knownUnits) :
    Canonical .dimension (.dimension d)
  | color {name : String} (h : IsLowerColor name) : Canonical .color (.color name)
  | structList (items : List (List (String × Value))) : Canonical .structList (.structList items)
  | bytes (data : List UInt8) : Canonical .bytes (.bytes data)

theorem Kind.canonical_of_normalize {kind : Kind} {v w : Value} (h : kind.normalize v = .ok w) :
    kind.Canonical w := by
  unfold normalize at h
  split at h
  -- a value of the kind stays what it is
  case h_1 | h_2 | h_4 | h_5 | h_7 | h_11 | h_12 | h_17 | h_18 =>
    cases h
    constructor
  -- a text becomes a value of the kind
  case h_3 | h_6 | h_8 =>
    obtain ⟨_, -, rfl⟩ := map_eq_ok.1 h
    constructor
  case h_9 | h_10 =>
    split at h
    · next hmem =>
      cases h
      exact .choice (List.contains_iff_mem.1 hmem)
    · cases h
  case h_13 =>
    split at h
    · next hknown =>
      cases h
      exact .dimension (List.contains_iff_mem.1 hknown)
    · cases h
  case h_14 =>
    obtain ⟨d, hread, rfl⟩ := map_eq_ok.1 h
    have hknown := Dimension.knownUnits_of_read (orFault_eq_ok.1 hread)
    exact .dimension (List.contains_iff_mem.1 hknown)
  case h_15 | h_16 =>
    obtain ⟨c, hread, rfl⟩ := map_eq_ok.1 h
    exact .color (isLowerColor_of_readColor (orFault_eq_ok.1 hread))
  case h_19 => cases h

theorem Kind.Canonical.normalize_eq {kind : Kind} {w : Value} (h : kind.Canonical w) :
    kind.normalize w = .ok w := by
  cases h with
  | string | integer | float | boolean | expression | structList | bytes => rfl
  | choice hmem => exact if_pos (List.contains_iff_mem.2 hmem)
  | dimension hknown => exact if_pos (List.contains_iff_mem.2 hknown)
  | color hcolor =>
      rw [normalize, hcolor.readColor_eq]
      rfl

/-- What normalization gives is a value that the kind stores, and is left as it is when it is
normalized again. -/
theorem Kind.normalize_idempotent {kind : Kind} {v w : Value} (h : kind.normalize v = .ok w) :
    kind.normalize w = .ok w ∧ kind.Canonical w := by
  have hcanonical := canonical_of_normalize h
  exact ⟨hcanonical.normalize_eq, hcanonical⟩

theorem Kind.normalize_idempotent_hexadecimal :
    Kind.color.normalize (.string "\t#AbC ") = .ok (.color "#abc") ∧
    Kind.color.normalize (.color "#abc") = .ok (.color "#abc") ∧ IsLowerColor "#abc" := by
  have hread : readColor "\t#AbC " = some "#abc" := by decide +kernel
  have hfirst : Kind.color.normalize (.string "\t#AbC ") = .ok (.color "#abc") := by
    rw [Kind.normalize, hread]
    rfl
  obtain ⟨hagain, hcanonical⟩ := Kind.normalize_idempotent hfirst
  cases hcanonical with
  | color hlower => exact ⟨hfirst, hagain, hlower⟩

theorem PropertyDef.validate_eq_ok {p : PropertyDef} {v w : Value} :
    p.validate v = .ok w ↔ p.kind.normalize v = .ok w :=
  mapError_eq_ok

theorem PropertyDef.validate_validate {p : PropertyDef} {v w : Value} (h : p.validate v = .ok w) :
    p.validate w = .ok w :=
  validate_eq_ok.2 (Kind.canonical_of_normalize (validate_eq_ok.1 h)).normalize_eq

end ReportModel
