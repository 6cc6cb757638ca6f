import Mathlib.Data.List.Chain
import Mathlib.Logic.Relation
import ReportModel.Proofs.Dictionary

/-!
# Lineages

Parents may be unknown, and definitions may derive from each other in a circle. A lineage goes from
a definition to its parent until there is none or one that is listed already, so it lists everything
that can be reached from the type, each once. Being of a kind is therefore transitive, and a type
has whatever a type it derives from has.
-/

namespace ReportModel

open Relation

namespace Dictionary

variable {d d' : Dictionary} {typeName base name : String} {fuel : Nat}
  {definition own next : TypeDef}

theorem name_of_find? (h : d.find? name = some definition) : definition.name = name := by
  simpa using List.find?_some h

theorem find?_without (d : Dictionary) (removed name : String) :
    (d.without removed).find? name = if removed = name then none else d.find? name := by
  rw [find?, without, List.find?_filter]
  split
  · next heq =>
    subst heq
    simp
  · next hne =>
    rw [find?]
    congr 1
    funext definition
    by_cases heq : definition.name = name
    · simp [heq, Ne.symm hne]
    · simp [heq]

theorem find?_without_of_ne (h : d.find? name = some next) (hne : next.name ≠ definition.name) :
    (d.without definition.name).find? name = some next := by
  have hname : definition.name ≠ name := fun heq => hne ((name_of_find? h).trans heq.symm)
  rw [find?_without, if_neg hname, h]

theorem length_without_lt (h : d.find? name = some definition) :
    (d.without definition.name).types.length < d.types.length :=
  List.length_filter_lt_length_iff_exists.2 ⟨definition, List.mem_of_find?_eq_some h, by simp⟩

/-! ## Steps to parents -/

def Derives (d : Dictionary) (definition parent : TypeDef) : Prop :=
  definition.parent.bind d.find? = some parent

/-- The definitions of one dictionary are those that another has under their names. -/
private def Part (d' d : Dictionary) : Prop :=
  ∀ name definition, d'.find? name = some definition → d.find? name = some definition

private theorem Part.without (h : Part d' d) (removed : String) : Part (d'.without removed) d := by
  intro name definition hfound
  rw [find?_without] at hfound
  split at hfound
  · cases hfound
  · exact h name definition hfound

theorem head?_lineageUpTo (hfuel : d.types.length ≤ fuel) (typeName : String) :
    (lineageUpTo fuel d typeName).head? = d.find? typeName := by
  fun_cases lineageUpTo fuel d typeName with
  | case1 =>
      cases hfound : d.find? typeName with
      | none => rfl
      | some definition => exact absurd (length_without_lt hfound) (by omega)
  | case2 _ _ _ hfound => exact hfound.symm
  | case3 _ _ _ definition hfound => exact hfound.symm

private theorem isChain_lineageUpTo (hpart : Part d' d) (fuel : Nat) (typeName : String) :
    (lineageUpTo fuel d' typeName).IsChain d.Derives ∧
      ∀ first ∈ (lineageUpTo fuel d' typeName).head?, d.find? typeName = some first := by
  fun_induction lineageUpTo fuel d' typeName with
  | case1 | case2 => simp
  | case3 fuel d' typeName definition hfound ih =>
      refine ⟨?_, by simpa using hpart _ _ hfound⟩
      cases hparent : definition.parent with
      | none => simp
      | some parent =>
          obtain ⟨hchain, hfirst⟩ := ih parent (hpart.without definition.name)
          refine List.isChain_cons.2 ⟨fun first hmem => ?_, hchain⟩
          rw [Derives, hparent]
          exact hfirst first hmem

theorem nodup_lineageUpTo (fuel : Nat) (d : Dictionary) (typeName : String) :
    ((lineageUpTo fuel d typeName).map (·.name)).Nodup := by
  fun_induction lineageUpTo fuel d typeName with
  | case1 | case2 => simp
  | case3 fuel d typeName definition hfound ih =>
      cases hparent : definition.parent with
      | none => simp
      | some parent =>
          refine List.nodup_cons.2 ⟨fun hmem => ?_, ih parent⟩
          obtain ⟨other, hother, hname⟩ := List.mem_map.1 hmem
          have hfresh := (List.mem_filter.1 (mem_types_of_mem_lineageUpTo hother)).2
          exact of_decide_eq_true hfresh hname

theorem length_lineageUpTo_le (fuel : Nat) (d : Dictionary) (typeName : String) :
    (lineageUpTo fuel d typeName).length ≤ fuel := by
  fun_induction lineageUpTo fuel d typeName with
  | case1 | case2 => simp
  | case3 fuel d typeName definition hfound ih =>
      cases hparent : definition.parent with
      | none => simp
      | some parent => exact Nat.succ_le_succ (ih parent)

theorem mem_lineageUpTo_of_parent (hfuel : d.types.length ≤ fuel)
    (hmem : definition ∈ lineageUpTo fuel d typeName) (hnext : d.Derives definition next) :
    next ∈ lineageUpTo fuel d typeName := by
  fun_induction lineageUpTo fuel d typeName with
  | case1 | case2 => cases hmem
  | case3 fuel d typeName first hfound ih =>
      have hless := length_without_lt hfound
      obtain ⟨parent, hparent, hnext⟩ := Option.bind_eq_some_iff.1 hnext
      by_cases hsame : next.name = first.name
      · -- the definition that comes next is the one that the lineage starts with
        have hname : parent = typeName :=
          (name_of_find? hnext).symm.trans (hsame.trans (name_of_find? hfound))
        obtain rfl := Option.some.inj ((hname ▸ hnext).symm.trans hfound)
        exact List.mem_cons_self
      · have hleft := find?_without_of_ne hnext hsame
        refine List.mem_cons_of_mem _ ?_
        rcases List.mem_cons.1 hmem with rfl | hmem
        · rw [hparent]
          exact List.mem_of_head? ((head?_lineageUpTo (by omega) parent).trans hleft)
        · cases hstart : first.parent with
          | none => simp [hstart] at hmem
          | some start =>
              rw [hstart] at hmem
              exact ih start (by omega) hmem (Option.bind_eq_some_iff.2 ⟨parent, hparent, hleft⟩)

/-! ## Lineages -/

theorem isChain_lineage (d : Dictionary) (typeName : String) :
    (d.lineage typeName).IsChain d.Derives :=
  (isChain_lineageUpTo (fun _ _ h => h) d.types.length typeName).1

theorem head?_lineage (d : Dictionary) (typeName : String) :
    (d.lineage typeName).head? = d.find? typeName :=
  head?_lineageUpTo (Nat.le_refl _) typeName

theorem mem_lineage_iff : definition ∈ d.lineage typeName ↔
    ∃ own, d.find? typeName = some own ∧ ReflTransGen d.Derives own definition := by
  constructor
  · intro hmem
    obtain ⟨own, rest, hlist⟩ := List.exists_cons_of_ne_nil (List.ne_nil_of_mem hmem)
    have hchain := hlist ▸ isChain_lineage d typeName
    refine ⟨own, by rw [← head?_lineage, hlist, List.head?_cons], ?_⟩
    exact List.IsChain.induction (ReflTransGen d.Derives own) _ hchain
      (fun _ _ hstep hfront => hfront.tail hstep) (fun _ => .refl) definition (hlist ▸ hmem)
  · rintro ⟨own, hown, hsteps⟩
    induction hsteps with
    | refl => exact List.mem_of_head? ((head?_lineage d typeName).trans hown)
    | tail _ hstep ih => exact mem_lineageUpTo_of_parent (Nat.le_refl _) ih hstep

theorem find?_of_mem_lineage (h : definition ∈ d.lineage typeName) :
    d.find? definition.name = some definition := by
  obtain ⟨own, hown, hsteps⟩ := mem_lineage_iff.1 h
  induction hsteps with
  | refl => rw [name_of_find? hown, hown]
  | tail hsteps hstep ih =>
      obtain ⟨parent, -, hfound⟩ := Option.bind_eq_some_iff.1 hstep
      rw [name_of_find? hfound, hfound]

theorem isKindOf_iff : d.isKindOf typeName base = true ↔
    ∃ definition ∈ d.lineage typeName, d.find? base = some definition := by
  rw [isKindOf, List.any_eq_true]
  refine exists_congr fun definition => and_congr_right fun hmem => ?_
  rw [decide_eq_true_eq]
  constructor
  · rintro rfl
    exact find?_of_mem_lineage hmem
  · exact name_of_find?

theorem lineage_subset (h : d.isKindOf typeName base = true) :
    d.lineage base ⊆ d.lineage typeName := by
  obtain ⟨definition, hmem, hfound⟩ := isKindOf_iff.1 h
  obtain ⟨own, hown, hsteps⟩ := mem_lineage_iff.1 hmem
  intro other hother
  obtain ⟨first, hfirst, hmore⟩ := mem_lineage_iff.1 hother
  obtain rfl := Option.some.inj (hfound.symm.trans hfirst)
  exact mem_lineage_iff.2 ⟨own, hown, hsteps.trans hmore⟩

theorem isKindOf_trans {top : String} (h : d.isKindOf typeName base = true)
    (hbase : d.isKindOf base top = true) : d.isKindOf typeName top = true := by
  obtain ⟨definition, hmem, hfound⟩ := isKindOf_iff.1 hbase
  exact isKindOf_iff.2 ⟨definition, lineage_subset h hmem, hfound⟩

private theorem isSome_findSome?_of_subset {α : Type} {f : TypeDef → Option α}
    {xs ys : List TypeDef} (h : xs ⊆ ys) (hsome : (xs.findSome? f).isSome = true) :
    (ys.findSome? f).isSome = true := by
  rw [List.findSome?_isSome_iff] at hsome ⊢
  obtain ⟨definition, hmem, hf⟩ := hsome
  exact ⟨definition, h hmem, hf⟩

private theorem any_of_subset {p : TypeDef → Bool} {xs ys : List TypeDef} (h : xs ⊆ ys)
    (hany : xs.any p = true) : ys.any p = true := by
  rw [List.any_eq_true] at hany ⊢
  obtain ⟨definition, hmem, hp⟩ := hany
  exact ⟨definition, h hmem, hp⟩

/-- A lineage lists each definition once, begins with that of the type, goes on to parents, and
lists all that are reached in this way. So being of a kind is transitive, and whatever is defined
for a type is defined for all types of its kind. -/
theorem lineage_exact (d : Dictionary) (typeName : String) :
    ((d.lineage typeName).map (·.name)).Nodup ∧
    (d.lineage typeName).length ≤ d.types.length ∧
    (d.lineage typeName).head? = d.find? typeName ∧
    (d.lineage typeName).IsChain d.Derives ∧
    (∀ definition, definition ∈ d.lineage typeName ↔
      ∃ own, d.find? typeName = some own ∧ ReflTransGen d.Derives own definition) ∧
    (∀ base top, d.isKindOf typeName base = true → d.isKindOf base top = true →
      d.isKindOf typeName top = true) ∧
    ∀ base, d.isKindOf typeName base = true →
      ((d.nameSpace base).isSome = true → (d.nameSpace typeName).isSome = true) ∧
      (d.nameRequired base = true → d.nameRequired typeName = true) ∧
      (d.hostsSheets base = true → d.hostsSheets typeName = true) ∧
      (∀ name, (d.property? base name).isSome = true →
        (d.property? typeName name).isSome = true) ∧
      ∀ name, (d.slot? base name).isSome = true → (d.slot? typeName name).isSome = true := by
  refine ⟨nodup_lineageUpTo .., length_lineageUpTo_le .., head?_lineage d typeName,
    isChain_lineage d typeName, fun definition => mem_lineage_iff,
    fun base top => isKindOf_trans, fun base hkind => ?_⟩
  have hsub := lineage_subset hkind
  refine ⟨isSome_findSome?_of_subset hsub, any_of_subset hsub, any_of_subset hsub,
    fun name => ?_, fun name => ?_⟩
  · exact isSome_findSome?_of_subset hsub
  · exact isSome_findSome?_of_subset hsub

/-- A type outside of a circle of three that derives from one of them, and a type whose parent is
not defined. -/
def entered : Dictionary :=
  ((((empty.register
    { name := "A", parent := some "C", nameSpace := some "element", hostsSheets := true }).register
    { name := "B", parent := some "A", nameRequired := true
      slots := [{ name := "s", allowed := [] }] }).register
    { name := "C", parent := some "B", properties := [{ name := "p", kind := .string }] }).register
    { name := "D", parent := some "B" }).register { name := "E", parent := some "F" }

/-- The circle is gone round once, and all that is defined on it is found from outside. -/
theorem lineage_exact_entered :
    (entered.lineage "D").map (·.name) = ["D", "B", "A", "C"] ∧
    (entered.lineage "C").map (·.name) = ["C", "B", "A"] ∧
    (entered.lineage "E").map (·.name) = ["E"] ∧
    (entered.isKindOf "D" "A" = true ∧ entered.isKindOf "A" "C" = true ∧
      entered.isKindOf "D" "C" = true) ∧
    ((entered.nameSpace "A").isSome = true ∧ (entered.nameSpace "D").isSome = true) ∧
    (entered.nameRequired "A" = true ∧ entered.nameRequired "D" = true) ∧
    (entered.hostsSheets "A" = true ∧ entered.hostsSheets "D" = true) ∧
    ((entered.property? "A" "p").isSome = true ∧ (entered.property? "D" "p").isSome = true) ∧
    (entered.slot? "A" "s").isSome = true ∧ (entered.slot? "D" "s").isSome = true := by
  have hkind : entered.isKindOf "D" "A" = true := by decide +kernel
  have htop : entered.isKindOf "A" "C" = true := by decide +kernel
  have hspace : (entered.nameSpace "A").isSome = true := by decide +kernel
  have hrequired : entered.nameRequired "A" = true := by decide +kernel
  have hhosts : entered.hostsSheets "A" = true := by decide +kernel
  have hproperty : (entered.property? "A" "p").isSome = true := by decide +kernel
  have hslot : (entered.slot? "A" "s").isSome = true := by decide +kernel
  obtain ⟨-, -, -, -, -, htrans, hinherits⟩ := lineage_exact entered "D"
  obtain ⟨hspaces, hrequires, hhosting, hproperties, hslots⟩ := hinherits "A" hkind
  exact ⟨by decide +kernel, by decide +kernel, by decide +kernel,
    ⟨hkind, htop, htrans "A" "C" hkind htop⟩, ⟨hspace, hspaces hspace⟩,
    ⟨hrequired, hrequires hrequired⟩, ⟨hhosts, hhosting hhosts⟩,
    ⟨hproperty, hproperties "p" hproperty⟩, hslot, hslots "s" hslot⟩

end Dictionary

end ReportModel
