import Mathlib.Logic.Relation
import ReportModel.Document.Bases
import ReportModel.Proofs.Tree.WellFormed

/-!
# Bases within a tree

A tree is grounded if no chain of bases comes back to where it began without leaving the tree. A
tree whose chains all pass the check is grounded, and a grounded tree stays so if it loses bases or
names, or if an element gets a base whose own chain does not come to it.
-/

namespace ReportModel

open Relation

/-- With one more pair in a relation, what is new goes through that pair. -/
private theorem transGen_one_more {α : Type} {r r' : α → α → Prop} {a b x y : α}
    (hr : ∀ {x y}, r' x y → r x y ∨ x = a ∧ y = b) (h : TransGen r' x y) :
    TransGen r x y ∨ ReflTransGen r x a ∧ ReflTransGen r b y := by
  induction h with
  | single hxy =>
      rcases hr hxy with h | ⟨rfl, rfl⟩
      · exact Or.inl (.single h)
      · exact Or.inr ⟨.refl, .refl⟩
  | tail _ hyz ih =>
      rcases hr hyz with h | ⟨rfl, rfl⟩
      · exact ih.imp (fun ih => ih.tail h) fun ih => ⟨ih.1, ih.2.tail h⟩
      · rcases ih with ih | ih
        · exact Or.inr ⟨ih.to_reflTransGen, .refl⟩
        · exact Or.inr ⟨ih.1, .refl⟩

namespace Tree

variable {t t' : Tree} {id x y : ElementId}

/-- The base of an element is another one of the tree, found without a library. -/
def Leans (t : Tree) (x y : ElementId) : Prop :=
  ∃ e name space f, t.get? x = some e ∧ e.base = some ⟨none, name⟩ ∧
    t.dictionary.nameSpace e.typeName = some space ∧ t.find space name = some y ∧
    t.get? y = some f ∧ f.typeName = e.typeName

/-- No chain of bases within the tree comes back. -/
def Grounded (t : Tree) : Prop :=
  ∀ x, ¬ TransGen t.Leans x x

theorem Leans.isAttached (h : t.Leans x y) (hwf : t.WellFormed) : t.isAttached y = true := by
  obtain ⟨e, name, space, f, -, -, -, hfind, -⟩ := h
  exact ((hwf.indexed _ _).1 hfind).1

theorem Leans.of_le (h : t'.Leans x y) (hdictionary : t'.dictionary = t.dictionary)
    (hfrom : ∀ e', t'.get? x = some e' → e'.base ≠ none →
      ∃ e, t.get? x = some e ∧ e.typeName = e'.typeName ∧ e.base = e'.base)
    (hto : ∀ space name f', t'.find space name = some y → t'.get? y = some f' →
      t.find space name = some y ∧ ∃ f, t.get? y = some f ∧ f.typeName = f'.typeName) :
    t.Leans x y := by
  obtain ⟨e', name, space, f', he', hbase', hspace, hfind', hf', htype'⟩ := h
  obtain ⟨e, he, htype, hbase⟩ := hfrom e' he' (by simp [hbase'])
  obtain ⟨hfind, f, hf, hftype⟩ := hto space name f' hfind' hf'
  refine ⟨e, name, space, f, he, hbase.trans hbase', ?_, hfind, hf, ?_⟩
  · rw [← hdictionary, htype, hspace]
  · rw [hftype, htype', htype]

theorem Grounded.mono (h : t.Grounded) (hle : ∀ {x y}, t'.Leans x y → t.Leans x y) :
    t'.Grounded :=
  fun x hx => h x (TransGen.mono (fun _ _ => hle) x x hx)

section modify

variable {f : Element → Element}

private theorem get?_modify_typeName (htype : ∀ e, (f e).typeName = e.typeName) {f' : Element}
    (h : (t.modify id f).get? y = some f') :
    ∃ g, t.get? y = some g ∧ g.typeName = f'.typeName := by
  rw [get?_modify] at h
  split at h
  · next hy =>
    obtain ⟨g, hg, rfl⟩ := Option.map_eq_some_iff.1 h
    exact ⟨g, hy ▸ hg, (htype g).symm⟩
  · exact ⟨f', h, rfl⟩

theorem Leans.of_modify_ne (h : (t.modify id f).Leans x y)
    (htype : ∀ e, (f e).typeName = e.typeName) (hx : x ≠ id) : t.Leans x y := by
  refine h.of_le rfl ?_ fun space name f' hfind hf' => ⟨hfind, get?_modify_typeName htype hf'⟩
  intro e' he' _
  rw [get?_modify, if_neg hx] at he'
  exact ⟨e', he', rfl, rfl⟩

theorem Leans.of_modify (h : (t.modify id f).Leans x y)
    (htype : ∀ e, (f e).typeName = e.typeName)
    (hbase : ∀ e, (f e).base = e.base ∨ (f e).base = none) : t.Leans x y := by
  refine h.of_le rfl ?_ fun space name f' hfind hf' => ⟨hfind, get?_modify_typeName htype hf'⟩
  intro e' he' hsome
  rw [get?_modify] at he'
  split at he'
  · next hx =>
    obtain ⟨e, he, rfl⟩ := Option.map_eq_some_iff.1 he'
    exact ⟨e, hx ▸ he, (htype e).symm, ((hbase e).resolve_right hsome).symm⟩
  · exact ⟨e', he', rfl, rfl⟩

theorem Grounded.modify (h : t.Grounded) (id : ElementId)
    (htype : ∀ e, (f e).typeName = e.typeName)
    (hbase : ∀ e, (f e).base = e.base ∨ (f e).base = none) : (t.modify id f).Grounded :=
  h.mono fun hleans => hleans.of_modify htype hbase

end modify

theorem Grounded.create (h : t.Grounded) (hwf : t.WellFormed) (typeName : String)
    (name : Option String) : (t.create typeName name).Grounded := by
  refine h.mono fun {x y} hleans => hleans.of_le rfl ?_ ?_
  · intro e' he' hsome
    rw [get?_create] at he'
    split at he'
    · obtain rfl := Option.some.inj he'
      exact absurd rfl hsome
    · exact ⟨e', he', rfl, rfl⟩
  · intro space name' f' hfind hf'
    have hold : t.find space name' = some y := hfind
    have hattached := ((hwf.indexed _ _).1 hold).1
    obtain ⟨f, hf⟩ := contains_iff.1 (Forest.contained_of_isAttached hattached)
    rw [get?_create_of_get? hf] at hf'
    exact ⟨hold, f, hf, congrArg _ (Option.some.inj hf')⟩

theorem Grounded.eraseAll (h : t.Grounded) (id : ElementId) : (t.eraseAll id).Grounded := by
  have hget : ∀ {x e'}, (t.eraseAll id).get? x = some e' → t.get? x = some e' := by
    intro x e' he'
    rw [get?_eraseAll] at he'
    split at he'
    · cases he'
    · exact he'
  refine h.mono fun hleans => hleans.of_le rfl ?_ ?_
  · exact fun e' he' _ => ⟨e', hget he', rfl, rfl⟩
  · exact fun space name f' hfind hf' => ⟨hfind, f', hget hf', rfl⟩

theorem Grounded.detach {place : Place} {index : Nat} (h : t.Grounded) (hwf : t.WellFormed)
    (hc : t.CanUnlink id place index) : (t.detach id).Grounded := by
  obtain ⟨names, hdetach, hwf'⟩ := hwf.detach hc
  rw [hdetach]
  have hget : ∀ {x e'}, ((t.unlink id place).withNames names).get? x = some e' →
      ∃ e, t.get? x = some e ∧ e.typeName = e'.typeName ∧ e.base = e'.base := by
    intro x e' he'
    have hrelink : (t.unlink id place).get? x = some e' := he'
    rw [unlink, get?_relink] at hrelink
    obtain ⟨e, he, rfl⟩ := Option.map_eq_some_iff.1 hrelink
    exact ⟨e, he, rfl, rfl⟩
  refine h.mono fun {x y} hleans => hleans.of_le rfl ?_ ?_
  · exact fun e' he' _ => hget he'
  · intro space name f' hfind hf'
    obtain ⟨f, hf, htype, -⟩ := hget hf'
    refine ⟨?_, f, hf, htype⟩
    -- a name that is left belongs to an element outside of what is taken out
    obtain ⟨hattached', hclaim'⟩ := (hwf'.indexed ⟨space, name⟩ y).1 hfind
    rw [isAttached_withNames] at hattached'
    rw [claim_withNames] at hclaim'
    obtain ⟨hattached, hout⟩ := (hc.isAttached_unlink hwf.forest).1 hattached'
    have hne : y ≠ id := by
      rintro rfl
      exact hout (hwf.forest.mem_walk_self hc.contained)
    rw [unlink, claim_relink t place _ _ hne] at hclaim'
    exact (hwf.indexed ⟨space, name⟩ y).2 ⟨hattached, hclaim'⟩

end Tree

namespace Document

variable {d : Document} {x y : ElementId} {b : OwnedElement}

theorem base?_eq_some_iff : d.base? x = some b ↔ ∃ e reference space f, d.get? x = some e ∧
    e.base = some reference ∧ d.owner? reference.library = some b.document ∧
    d.tree.dictionary.nameSpace e.typeName = some space ∧
    b.document.tree.find space reference.name = some b.id ∧
    b.document.get? b.id = some f ∧ f.typeName = e.typeName := by
  simp only [base?, lookup, OwnedElement.get?, Option.bind_eq_some_iff,
    Option.filter_eq_some_iff, Option.map_eq_some_iff, Option.any_eq_true, decide_eq_true_eq]
  constructor
  · intro h
    obtain ⟨e, he, ⟨reference, hbase, owner, howner, space, hspace, y, hfind, rfl⟩, f, hf,
      htype⟩ := h
    exact ⟨e, reference, space, f, he, hbase, howner, hspace, hfind, hf, htype⟩
  · intro h
    obtain ⟨e, reference, space, f, he, hbase, howner, hspace, hfind, hf, htype⟩ := h
    exact ⟨e, he, ⟨reference, hbase, b.document, howner, space, hspace, b.id, hfind, rfl⟩, f, hf,
      htype⟩

theorem base?_eq_of_leans (h : d.tree.Leans x y) : d.base? x = some ⟨d, y⟩ := by
  obtain ⟨e, name, space, f, he, hbase, hspace, hfind, hf, htype⟩ := h
  exact base?_eq_some_iff.2 ⟨e, ⟨none, name⟩, space, f, he, hbase, rfl, hspace, hfind, hf, htype⟩

theorem leans_or_library_of_base? (h : d.base? x = some b) :
    b.document = d ∧ d.tree.Leans x b.id ∨
      ∃ library ∈ d.libraries, library.content = b.document := by
  obtain ⟨e, ⟨library, name⟩, space, f, he, hbase, howner, hspace, hfind, hf, htype⟩ :=
    base?_eq_some_iff.1 h
  cases library with
  | none =>
      have hself : b.document = d := (Option.some.inj howner).symm
      rw [hself] at hfind hf
      exact Or.inl ⟨hself, e, name, space, f, he, hbase, hspace, hfind, hf, htype⟩
  | some nameSpace =>
      obtain ⟨found, hfound, hcontent⟩ := Option.map_eq_some_iff.1 howner
      exact Or.inr ⟨found, List.mem_of_find?_eq_some hfound, hcontent⟩

end Document

namespace OwnedElement

variable {d : Document} {x y : ElementId} {fuel : Nat} {seen : List OwnedElement}

private theorem isSame_self (r : OwnedElement) : r.isSame r = true := by
  simp [isSame]

/-- A chain that is not refused does not come to what was seen. -/
theorem not_transGen_of_runsOn (h : runsOn fuel seen (d.base? y) = false)
    (hseen : (⟨d, x⟩ : OwnedElement) ∈ seen) : ¬ TransGen d.tree.Leans y x := by
  induction fuel generalizing seen y with
  | zero =>
      intro hyx
      obtain ⟨z, hyz, -⟩ := TransGen.head'_iff.1 hyx
      rw [Document.base?_eq_of_leans hyz] at h
      cases h
  | succ fuel ih =>
      intro hyx
      obtain ⟨z, hyz, hzx⟩ := TransGen.head'_iff.1 hyx
      rw [Document.base?_eq_of_leans hyz] at h
      simp only [runsOn, Bool.or_eq_false_iff] at h
      -- the next base is `x`, which was seen, or the chain still has to come to `x`
      rcases (reflTransGen_iff_eq_or_transGen.1 hzx) with rfl | hzx
      · have hany := List.any_eq_true.2 ⟨_, hseen, isSame_self ⟨d, x⟩⟩
        exact absurd (h.1.symm.trans hany) (by simp)
      · exact ih h.2 (List.mem_cons_of_mem _ hseen) hzx

theorem not_reflTransGen_of_comesTo (h : comesTo ⟨d, x⟩ fuel (some ⟨d, y⟩) = false) :
    ¬ ReflTransGen d.tree.Leans y x := by
  induction fuel generalizing y with
  | zero => cases h
  | succ fuel ih =>
      simp only [comesTo, Bool.or_eq_false_iff] at h
      intro hyx
      rcases hyx.cases_head with rfl | ⟨z, hyz, hzx⟩
      · rw [isSame_self] at h
        cases h.1
      · have hbase : (⟨d, y⟩ : OwnedElement).base? = some ⟨d, z⟩ := Document.base?_eq_of_leans hyz
        rw [hbase] at h
        exact ih h.2 hzx

end OwnedElement

namespace Document

variable {d : Document} {id x : ElementId}

theorem runsOn_of_runawayReference? (h : d.runawayReference? = none)
    (hx : x ∈ d.tree.attached) : OwnedElement.runsOn d.depthLimit [⟨d, x⟩] (d.base? x) = false := by
  have hall := List.findSome?_eq_none_iff.1 h x hx
  cases hbase : d.base? x with
  | none => cases d.depthLimit <;> rfl
  | some b =>
      obtain ⟨e, reference, -, -, he, hreference, -⟩ := base?_eq_some_iff.1 hbase
      simp only [he, hreference, hbase, Option.bind_some, Option.filter_some] at hall
      simpa using hall

theorem grounded_of_runawayReference? (hwf : d.tree.WellFormed)
    (h : d.runawayReference? = none) : d.tree.Grounded := by
  intro x hx
  obtain ⟨y, -, hyx⟩ := TransGen.tail'_iff.1 hx
  have hattached := hwf.forest.mem_attached.2 (hyx.isAttached hwf)
  exact OwnedElement.not_transGen_of_runsOn (runsOn_of_runawayReference? h hattached)
    List.mem_cons_self hx

theorem grounded_base {e : Element} {reference : Reference} {b : OwnedElement}
    (h : d.tree.Grounded) (he : d.get? id = some e)
    (hlookup : d.lookup e.typeName reference = some b) (hfree : d.wouldRunOn id b = false) :
    (d.tree.modify id fun e => { e with base := some reference }).Grounded := by
  simp only [lookup, Option.bind_eq_some_iff, Option.map_eq_some_iff] at hlookup
  obtain ⟨owner, howner, space, hspace, y, hfind, rfl⟩ := hlookup
  by_cases hlibrary : reference.library = none
  · -- the base is in the same tree
    rw [hlibrary] at howner
    obtain rfl := Option.some.inj howner
    have hout := OwnedElement.not_reflTransGen_of_comesTo hfree
    intro x hx
    have hone : ∀ {x z}, (d.tree.modify id fun e => { e with base := some reference }).Leans x z →
        d.tree.Leans x z ∨ x = id ∧ z = y := by
      intro x z hxz
      by_cases hx : x = id
      · subst hx
        obtain ⟨e', name, space', f, he', hbase, hspace', hfind', -, -⟩ := hxz
        rw [Tree.get?_modify, if_pos rfl] at he'
        obtain ⟨e'', he'', rfl⟩ := Option.map_eq_some_iff.1 he'
        obtain rfl := Option.some.inj (he.symm.trans he'')
        obtain rfl := Option.some.inj hbase
        obtain rfl := Option.some.inj (hspace.symm.trans hspace')
        exact Or.inr ⟨rfl, Option.some.inj (hfind'.symm.trans hfind)⟩
      · exact Or.inl (hxz.of_modify_ne (fun _ => rfl) hx)
    rcases transGen_one_more hone hx with hx | ⟨hxid, hyx⟩
    · exact h x hx
    · exact hout (hyx.trans hxid)
  · -- the base is in a library, and the element leans on nothing in its own tree
    refine h.mono fun {x z} hxz => hxz.of_modify_ne (fun _ => rfl) ?_
    rintro rfl
    obtain ⟨e', name, -, -, he', hbase, -⟩ := hxz
    rw [Tree.get?_modify, if_pos rfl] at he'
    obtain ⟨e'', -, rfl⟩ := Option.map_eq_some_iff.1 he'
    exact hlibrary (congrArg Reference.library (Option.some.inj hbase))

end Document

end ReportModel
