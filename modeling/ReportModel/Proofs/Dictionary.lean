import ReportModel.Dictionary.Vocabulary
import ReportModel.Proofs.Value

/-!
# Definitions of properties

Whatever a type knows of a property comes from the definitions of the dictionary. In the dictionary
of report designs all definitions of one style property are of one kind, whichever types they are
part of, and every default is normal.
-/

namespace ReportModel

namespace Dictionary

variable {d : Dictionary} {typeName name : String} {p : PropertyDef} {definition : TypeDef}

def allProperties (d : Dictionary) : List PropertyDef :=
  d.types.flatMap (·.properties)

theorem mem_types_of_mem_lineageUpTo {fuel : Nat} (h : definition ∈ lineageUpTo fuel d typeName) :
    definition ∈ d.types := by
  induction fuel generalizing d typeName with
  | zero => cases h
  | succ fuel ih =>
      simp only [lineageUpTo] at h
      split at h
      · cases h
      · next found hfound =>
        rcases List.mem_cons.1 h with rfl | h
        · exact List.mem_of_find?_eq_some hfound
        · split at h
          · cases h
          · exact (List.mem_filter.1 (ih h)).1

theorem mem_allProperties (hdefinition : definition ∈ d.lineage typeName)
    (hp : p ∈ definition.properties) : p ∈ d.allProperties :=
  List.mem_flatMap.2 ⟨definition, mem_types_of_mem_lineageUpTo hdefinition, hp⟩

theorem mem_allProperties_of_property? (h : d.property? typeName name = some p) :
    p ∈ d.allProperties ∧ p.name = name := by
  obtain ⟨definition, hdefinition, hfound⟩ := List.exists_of_findSome?_eq_some h
  have hname := List.find?_some hfound
  exact ⟨mem_allProperties hdefinition (List.mem_of_find?_eq_some hfound), of_decide_eq_true hname⟩

end Dictionary

namespace Vocabulary

theorem kind_eq_of_style : ∀ p ∈ reports.allProperties, ∀ q ∈ reports.allProperties,
    p.style = true → q.name = p.name → q.kind = p.kind := by
  decide +kernel

private theorem default_all : ∀ p ∈ reports.allProperties,
    (p.default.all fun v => (p.kind.normalize v).toOption = some v) = true := by
  decide +kernel

/-- Every default passes its own check. -/
theorem validate_default {p : PropertyDef} (hp : p ∈ reports.allProperties) {v : Value}
    (h : p.default = some v) : p.validate v = .ok v := by
  have hall := default_all p hp
  rw [h, Option.all_some, decide_eq_true_eq] at hall
  exact PropertyDef.validate_eq_ok.2 (toOption_eq_some.1 hall)

end Vocabulary

end ReportModel
