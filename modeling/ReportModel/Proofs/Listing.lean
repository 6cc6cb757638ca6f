import Mathlib.Data.List.Nodup
import ReportModel.Element
import ReportModel.Proofs.Dictionary

/-!
# Lookups and listings

A lookup goes from a type to the definitions it derives from and takes the first answer. A listing
goes the other way. Both know the same names. A listed property is replaced by a later one of its
name, so it comes from the definition that the lookup stops at; there the lookup takes the first of
the name and the listing the last. A listed slot is not replaced: if several definitions of a
lineage have a slot of one name, all of them are listed, and a new element has a slot for each.
-/

namespace ReportModel

namespace Dictionary

variable {α : Type} {d : Dictionary} {typeName name : String} {xs : List α} {key : α → String}

/-! ## Names in lists -/

theorem mem_and_iff_find? {κ : Type} [DecidableEq κ] {key : α → κ} {name : κ}
    (h : (xs.map key).Nodup) {a : α} :
    a ∈ xs ∧ key a = name ↔ xs.find? (key · = name) = some a := by
  constructor
  · rintro ⟨hmem, rfl⟩
    have hfound : (xs.find? (key · = key a)).isSome := List.find?_isSome.2 ⟨a, hmem, by simp⟩
    obtain ⟨b, hb⟩ := Option.isSome_iff_exists.1 hfound
    have hname : key b = key a := by simpa using List.find?_some hb
    rwa [List.inj_on_of_nodup_map h (List.mem_of_find?_eq_some hb) hmem hname] at hb
  · intro hfound
    exact ⟨List.mem_of_find?_eq_some hfound, by simpa using List.find?_some hfound⟩

theorem find?_reverse_of_nodup (h : (xs.map key).Nodup) :
    xs.reverse.find? (key · = name) = xs.find? (key · = name) := by
  have hreverse : (xs.reverse.map key).Nodup := by
    rwa [List.map_reverse, List.nodup_reverse]
  refine Option.ext fun a => ?_
  rw [← mem_and_iff_find? h, ← mem_and_iff_find? hreverse, List.mem_reverse]

theorem findSome?_find? (f : TypeDef → List α) (p : α → Bool) (ds : List TypeDef) :
    (ds.findSome? fun definition => (f definition).find? p) =
      (ds.find? fun definition => (f definition).any p).bind
        fun definition => (f definition).find? p := by
  induction ds with
  | nil => rfl
  | cons definition ds ih =>
      rw [List.findSome?_cons, List.find?_cons, ← List.isSome_find?]
      cases hfound : (f definition).find? p with
      | none => exact ih
      | some a => exact hfound.symm

theorem find?_reverse_flatMap (f : TypeDef → List α) (p : α → Bool) (ds : List TypeDef) :
    (ds.reverse.flatMap f).reverse.find? p =
      (ds.find? fun definition => (f definition).any p).bind
        fun definition => (f definition).reverse.find? p := by
  have hany : (fun definition => (f definition).any p) =
      fun definition => (f definition).reverse.any p :=
    funext fun definition => List.any_reverse.symm
  rw [List.reverse_flatMap, List.reverse_reverse, List.find?_flatMap, hany, ← findSome?_find?]
  rfl

/-! ## Properties -/

theorem name_replace (p q : PropertyDef) : (if q.name = p.name then p else q).name = q.name := by
  split
  · next h => exact h.symm
  · rfl

theorem find?_addProperty (ps : List PropertyDef) (p : PropertyDef) (name : String) :
    (addProperty ps p).find? (·.name = name) =
      if p.name = name then some p else ps.find? (·.name = name) := by
  rw [addProperty]
  split
  · next hany =>
    simp only [List.find?_map, Function.comp_def, name_replace]
    cases hfound : ps.find? (·.name = name) with
    | none =>
        have hne : p.name ≠ name := by
          rintro rfl
          obtain ⟨q, hq, hname⟩ := List.any_eq_true.1 hany
          exact List.find?_eq_none.1 hfound q hq hname
        rw [if_neg hne, Option.map_none]
    | some q =>
        obtain rfl : q.name = name := by simpa using List.find?_some hfound
        rw [Option.map_some, apply_ite some]
        simp only [eq_comm]
  · next hany =>
    rw [List.find?_append, List.find?_singleton]
    by_cases hp : p.name = name
    · have hnone : ps.find? (·.name = name) = none := by
        simpa [hp] using hany
      simp [hp, hnone]
    · simp [hp]

theorem nodup_addProperty {ps : List PropertyDef} (h : (ps.map (·.name)).Nodup)
    (p : PropertyDef) : ((addProperty ps p).map (·.name)).Nodup := by
  rw [addProperty]
  split
  · simpa [List.map_map, Function.comp_def, name_replace] using h
  · next hany =>
    have hfresh : p.name ∉ ps.map (·.name) := by
      simpa using hany
    rw [List.map_append, List.map_singleton]
    exact List.nodup_append_comm.1 (List.nodup_cons.2 ⟨hfresh, h⟩)

theorem find?_foldl_addProperty (all ps : List PropertyDef) (name : String) :
    (all.foldl addProperty ps).find? (·.name = name) =
      (all.reverse.find? (·.name = name)).or (ps.find? (·.name = name)) := by
  induction all generalizing ps with
  | nil => rfl
  | cons p all ih =>
      rw [List.foldl_cons, ih, find?_addProperty, List.reverse_cons, List.find?_append,
        Option.or_assoc, List.find?_singleton]
      by_cases hp : p.name = name <;> simp [hp]

theorem nodup_properties (d : Dictionary) (typeName : String) :
    ((d.properties typeName).map (·.name)).Nodup := by
  have hall (all ps : List PropertyDef) (hps : (ps.map (·.name)).Nodup) :
      ((all.foldl addProperty ps).map (·.name)).Nodup := by
    induction all generalizing ps with
    | nil => exact hps
    | cons p all ih => exact ih _ (nodup_addProperty hps p)
  exact hall _ [] List.nodup_nil

/-- The definition that a property comes from: of those in the lineage that have a property of the
name, the first. -/
def propertySource? (d : Dictionary) (typeName name : String) : Option TypeDef :=
  (d.lineage typeName).find? fun definition => definition.properties.any (·.name = name)

theorem property?_eq (d : Dictionary) (typeName name : String) :
    d.property? typeName name = (d.propertySource? typeName name).bind
      fun definition => definition.properties.find? (·.name = name) :=
  findSome?_find? (·.properties) _ _

theorem find?_properties (d : Dictionary) (typeName name : String) :
    (d.properties typeName).find? (·.name = name) = (d.propertySource? typeName name).bind
      fun definition => definition.properties.reverse.find? (·.name = name) := by
  rw [properties, find?_foldl_addProperty, List.find?_nil, Option.or_none]
  exact find?_reverse_flatMap (·.properties) _ _

theorem exists_of_mem_properties {p : PropertyDef} (h : p ∈ d.properties typeName) :
    ∃ definition ∈ d.lineage typeName, p ∈ definition.properties := by
  have hfound := (mem_and_iff_find? (nodup_properties d typeName)).1 ⟨h, rfl⟩
  rw [find?_properties] at hfound
  obtain ⟨definition, hsource, hlast⟩ := Option.bind_eq_some_iff.1 hfound
  exact ⟨definition, List.mem_of_find?_eq_some hsource,
    List.mem_reverse.1 (List.mem_of_find?_eq_some hlast)⟩

theorem property?_eq_none : d.property? typeName name = none ↔
    ∀ p ∈ d.properties typeName, p.name ≠ name := by
  have hlisted : d.property? typeName name = none ↔
      (d.properties typeName).find? (·.name = name) = none := by
    rw [find?_properties, property?_eq]
    simp only [Option.bind_eq_none_iff, List.find?_eq_none, List.mem_reverse]
  rw [hlisted, List.find?_eq_none]
  simp only [decide_eq_true_eq, ne_eq]

/-- The lookup of a property and the listing agree exactly if they agree in the definition that the
property comes from. -/
theorem property?_agrees_iff : (∀ p, d.property? typeName name = some p ↔
      p ∈ d.properties typeName ∧ p.name = name) ↔
    ∀ definition ∈ d.propertySource? typeName name,
      definition.properties.find? (·.name = name) =
        definition.properties.reverse.find? (·.name = name) := by
  simp only [mem_and_iff_find? (nodup_properties d typeName), find?_properties, property?_eq]
  rw [← Option.ext_iff]
  cases d.propertySource? typeName name with
  | none => simp
  | some definition => simp

/-! ## Slots -/

theorem lineage_eq_nil (h : d.find? typeName = none) : d.lineage typeName = [] := by
  rw [lineage]
  cases d.types.length with
  | zero => rfl
  | succ fuel => rw [lineageUpTo, h]

theorem mem_slots {s : SlotDef} :
    s ∈ d.slots typeName ↔ ∃ definition ∈ d.lineage typeName, s ∈ definition.slots := by
  simp [slots]

theorem listed_of_slot? {s : SlotDef} (h : d.slot? typeName name = some s) :
    s ∈ d.slots typeName ∧ s.name = name := by
  obtain ⟨definition, hdefinition, hfound⟩ := List.exists_of_findSome?_eq_some h
  exact ⟨mem_slots.2 ⟨definition, hdefinition, List.mem_of_find?_eq_some hfound⟩,
    by simpa using List.find?_some hfound⟩

theorem slot?_eq_none :
    d.slot? typeName name = none ↔ ∀ s ∈ d.slots typeName, s.name ≠ name := by
  simp only [slot?, List.findSome?_eq_none_iff, List.find?_eq_none, mem_slots, decide_eq_true_eq]
  exact ⟨fun h s ⟨definition, hdefinition, hs⟩ => h definition hdefinition s hs,
    fun h definition hdefinition s hs => h s ⟨definition, hdefinition, hs⟩⟩

/-- The lookup of a slot and the listing agree exactly if no two different slots of the name are
listed. -/
theorem slot?_agrees_iff : (∀ s, d.slot? typeName name = some s ↔
      s ∈ d.slots typeName ∧ s.name = name) ↔
    ∀ s ∈ d.slots typeName, ∀ s' ∈ d.slots typeName, s.name = name → s'.name = name → s = s' := by
  constructor
  · intro h s hs s' hs' hname hname'
    exact Option.some.inj (((h s).2 ⟨hs, hname⟩).symm.trans ((h s').2 ⟨hs', hname'⟩))
  · refine fun h s => ⟨listed_of_slot?, fun ⟨hs, hname⟩ => ?_⟩
    cases hfound : d.slot? typeName name with
    | none => exact absurd hname (slot?_eq_none.1 hfound s hs)
    | some s' =>
        obtain ⟨hs', hname'⟩ := listed_of_slot? hfound
        rw [h s hs s' hs' hname hname']

theorem nodup_slots_iff : ((d.slots typeName).map (·.name)).Nodup ↔
    (∀ definition ∈ d.lineage typeName, (definition.slots.map (·.name)).Nodup) ∧
      (d.lineage typeName).Pairwise fun definition other =>
        ∀ s ∈ definition.slots, ∀ s' ∈ other.slots, s.name ≠ s'.name := by
  have hdisjoint (definition other : TypeDef) :
      (other.slots.map (·.name)).Disjoint (definition.slots.map (·.name)) ↔
        ∀ s ∈ definition.slots, ∀ s' ∈ other.slots, s.name ≠ s'.name := by
    rw [List.disjoint_comm, List.disjoint_iff_ne]
    simp only [List.forall_mem_map]
  rw [slots, List.map_flatMap, List.nodup_flatMap, List.pairwise_reverse]
  simp only [List.mem_reverse, Function.onFun, hdisjoint]

theorem slots_create (d : Dictionary) (typeName : String) (elementName : Option String) :
    (Element.create d typeName elementName).slots.map (·.name) =
      (d.slots typeName).map (·.name) := by
  simp [Element.create, Function.comp_def]

/-! ## Agreement -/

/-- Lookups and listings know the same names. Each property is listed once, and the lookup finds the
listed one exactly if in the definition that it comes from the first property of the name is also
the last. The lookup of a slot agrees with the listing exactly if no two different slots of the name
are listed. A new element has one slot for each name exactly if no slot is defined twice in the
lineage of its type. -/
theorem lookups_listings (d : Dictionary) (typeName : String) :
    ((d.properties typeName).map (·.name)).Nodup ∧
    (∀ name, d.property? typeName name = none ↔ ∀ p ∈ d.properties typeName, p.name ≠ name) ∧
    (∀ name, (∀ p, d.property? typeName name = some p ↔
        p ∈ d.properties typeName ∧ p.name = name) ↔
      ∀ definition ∈ d.propertySource? typeName name,
        definition.properties.find? (·.name = name) =
          definition.properties.reverse.find? (·.name = name)) ∧
    (∀ name, d.slot? typeName name = none ↔ ∀ s ∈ d.slots typeName, s.name ≠ name) ∧
    (∀ name, (∀ s, d.slot? typeName name = some s ↔ s ∈ d.slots typeName ∧ s.name = name) ↔
      ∀ s ∈ d.slots typeName, ∀ s' ∈ d.slots typeName,
        s.name = name → s'.name = name → s = s') ∧
    ∀ elementName, ((Element.create d typeName elementName).slots.map (·.name)).Nodup ↔
      (∀ definition ∈ d.lineage typeName, (definition.slots.map (·.name)).Nodup) ∧
        (d.lineage typeName).Pairwise fun definition other =>
          ∀ s ∈ definition.slots, ∀ s' ∈ other.slots, s.name ≠ s'.name := by
  refine ⟨nodup_properties d typeName, fun name => property?_eq_none, fun name =>
    property?_agrees_iff, fun name => slot?_eq_none, fun name => slot?_agrees_iff,
    fun elementName => ?_⟩
  rw [slots_create]
  exact nodup_slots_iff

/-- Three types that derive from each other in a circle, each with the property anew. -/
def looped : Dictionary :=
  ((empty.register
    { name := "A", parent := some "C"
      properties := [{ name := "p", kind := .string }], slots := [{ name := "s", allowed := [] }] }
    ).register
    { name := "B", parent := some "A"
      properties := [{ name := "q", kind := .bytes }, { name := "p", kind := .float }] }).register
    { name := "C", parent := some "B"
      properties := [{ name := "p", kind := .color }], slots := [{ name := "t", allowed := [] }] }

theorem lookups_listings_looped :
    (looped.properties "B").map (fun p => (p.name, p.kind)) = [("p", .float), ("q", .bytes)] ∧
    (∀ p, looped.property? "B" "p" = some p ↔ p ∈ looped.properties "B" ∧ p.name = "p") ∧
    (∀ s, looped.slot? "B" "t" = some s ↔ s ∈ looped.slots "B" ∧ s.name = "t") ∧
    ((Element.create looped "B" none).slots.map (·.name)).Nodup := by
  obtain ⟨-, -, hproperty, -, hslot, hcreate⟩ := lookups_listings looped "B"
  have hsource : looped.propertySource? "B" "p" = looped.find? "B" := by decide +kernel
  refine ⟨by decide +kernel, (hproperty "p").2 fun definition hdefinition => ?_,
    (hslot "t").2 (by decide +kernel), (hcreate none).2 (by decide +kernel)⟩
  obtain rfl := Option.some.inj (hsource.symm.trans hdefinition)
  decide +kernel

/-- A type that defines a property twice, and a type derived from it that defines its slot again. -/
def twofold : Dictionary :=
  (empty.register
    { name := "A"
      properties := [{ name := "p", kind := .string }, { name := "p", kind := .bytes }]
      slots := [{ name := "s", allowed := ["X"] }] }).register
    { name := "B", parent := some "A", slots := [{ name := "s", allowed := ["Y"] }] }

/-- The property is found as a string and listed as bytes. Both slots are listed, and a new element
has two of them. -/
theorem lookups_listings_twofold :
    (twofold.property? "B" "p").map (·.kind) = some .string ∧
    (twofold.properties "B").map (fun p => (p.name, p.kind)) = [("p", .bytes)] ∧
    (twofold.slot? "B" "s").map (·.allowed) = some ["Y"] ∧
    (twofold.slots "B").map (fun s => (s.name, s.allowed)) = [("s", ["X"]), ("s", ["Y"])] ∧
    (Element.create twofold "B" none).slots = [⟨"s", []⟩, ⟨"s", []⟩] ∧
    ¬ (∀ p, twofold.property? "B" "p" = some p ↔ p ∈ twofold.properties "B" ∧ p.name = "p") ∧
    ¬ (∀ s, twofold.slot? "B" "s" = some s ↔ s ∈ twofold.slots "B" ∧ s.name = "s") := by
  refine ⟨by decide +kernel, by decide +kernel, by decide +kernel, by decide +kernel,
    by decide +kernel, fun h => ?_, fun h => absurd (slot?_agrees_iff.1 h) (by decide +kernel)⟩
  have hfound : twofold.property? "B" "p" = some { name := "p", kind := .string } := by
    decide +kernel
  exact absurd ((h _).1 hfound).1 (by decide +kernel)

end Dictionary

namespace Vocabulary

private theorem names_nodup : ∀ definition ∈ reports.types,
    (definition.properties.map (·.name)).Nodup ∧
      ((reports.slots definition.name).map (·.name)).Nodup := by
  decide +kernel

theorem nodup_slots (typeName : String) : ((reports.slots typeName).map (·.name)).Nodup := by
  cases hfound : reports.find? typeName with
  | none =>
      rw [Dictionary.slots, Dictionary.lineage_eq_nil hfound]
      exact List.nodup_nil
  | some definition =>
      obtain rfl : definition.name = typeName := by simpa using List.find?_some hfound
      exact (names_nodup definition (List.mem_of_find?_eq_some hfound)).2

theorem reports_agrees (typeName : String) :
    (∀ name p, reports.property? typeName name = some p ↔
      p ∈ reports.properties typeName ∧ p.name = name) ∧
    (∀ name s, reports.slot? typeName name = some s ↔
      s ∈ reports.slots typeName ∧ s.name = name) ∧
    ∀ elementName, ((Element.create reports typeName elementName).slots.map (·.name)).Nodup := by
  refine ⟨fun name => Dictionary.property?_agrees_iff.2 fun definition hsource => ?_,
    fun name => Dictionary.slot?_agrees_iff.2 fun s hs s' hs' hname hname' => ?_,
    fun elementName => ?_⟩
  · have hmem : definition ∈ reports.types :=
      Dictionary.mem_types_of_mem_lineageUpTo (List.mem_of_find?_eq_some hsource)
    exact (Dictionary.find?_reverse_of_nodup (names_nodup definition hmem).1).symm
  · exact List.inj_on_of_nodup_map (nodup_slots typeName) hs hs' (hname.trans hname'.symm)
  · rw [Dictionary.slots_create]
    exact nodup_slots typeName

end Vocabulary

end ReportModel
