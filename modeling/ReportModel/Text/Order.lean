/-!
# Order of texts

Texts compare by their code points, the first difference deciding; a text comes before its own
continuations. `Ordered` is the strict order of a key type in general.
-/

namespace ReportModel

/-- A strict total order on keys. -/
class Ordered (κ : Type) where
  before : κ → κ → Bool
  irrefl : ∀ a, before a a = false
  trans : ∀ a b c, before a b = true → before b c = true → before a c = true
  connected : ∀ a b, before a b = false → before b a = false → a = b

namespace Text

def charsBefore : List Char → List Char → Bool
  | _, [] => false
  | [], _ :: _ => true
  | c :: cs, d :: ds => c.toNat < d.toNat || (c = d && charsBefore cs ds)

private theorem charsBefore_irrefl (cs : List Char) : charsBefore cs cs = false := by
  induction cs with
  | nil => rfl
  | cons c cs ih => simp [charsBefore, ih]

private theorem charsBefore_trans (as bs cs : List Char) (hab : charsBefore as bs = true)
    (hbc : charsBefore bs cs = true) : charsBefore as cs = true := by
  induction as generalizing bs cs with
  | nil =>
    cases cs with
    | nil => cases bs <;> simp [charsBefore] at hbc
    | cons c cs => rfl
  | cons a as ih =>
    cases bs with
    | nil => simp [charsBefore] at hab
    | cons b bs =>
      cases cs with
      | nil => simp [charsBefore] at hbc
      | cons c cs =>
        simp only [charsBefore, Bool.or_eq_true, Bool.and_eq_true, decide_eq_true_eq] at *
        rcases hab with hab | ⟨rfl, hab⟩
        · rcases hbc with hbc | ⟨rfl, _⟩
          · exact Or.inl (by omega)
          · exact Or.inl hab
        · rcases hbc with hbc | ⟨rfl, hbc⟩
          · exact Or.inl hbc
          · exact Or.inr ⟨rfl, ih bs cs hab hbc⟩

private theorem charsBefore_connected (as bs : List Char) (hab : charsBefore as bs = false)
    (hba : charsBefore bs as = false) : as = bs := by
  induction as generalizing bs with
  | nil =>
    cases bs with
    | nil => rfl
    | cons b bs => simp [charsBefore] at hab
  | cons a as ih =>
    cases bs with
    | nil => simp [charsBefore] at hba
    | cons b bs =>
      simp only [charsBefore, Bool.or_eq_false_iff, Bool.and_eq_false_imp, decide_eq_false_iff_not,
        decide_eq_true_eq, Nat.not_lt] at hab hba
      have hcode : a.toNat = b.toNat := by omega
      have heq : a = b := Char.toNat_inj.1 hcode
      subst heq
      rw [ih bs (hab.2 rfl) (hba.2 rfl)]

instance : Ordered String where
  before s t := charsBefore s.toList t.toList
  irrefl _ := charsBefore_irrefl _
  trans _ _ _ := charsBefore_trans _ _ _
  connected _ _ hst hts := String.toList_inj.1 (charsBefore_connected _ _ hst hts)

end Text

end ReportModel
