import ReportModel.Proofs.Document.Walks
import ReportModel.Proofs.Editor.Content

/-!
# How long chains of bases are

In an orderly document the check of a chain of bases passes exactly if the chain has no more bases
than the limit. Giving an element a base keeps its own chain within the limit, but not the chains of
those that have this element as a base.
-/

namespace ReportModel

open Relation

namespace Tree

variable {t : Tree} {id x : ElementId} {place : Place} {index : Nat}

/-- An element that has no base and cannot be one: it has no name and needs none, and nothing is
inside it. -/
structure Plain (t : Tree) (id : ElementId) : Prop where
  element : ∃ e, t.get? id = some e ∧ e.name = none ∧ e.base = none ∧
    t.dictionary.nameRequired e.typeName = false
  empty : t.children id = []

theorem Plain.walk_eq (h : t.Plain id) : t.walk id = [id] := by
  obtain ⟨e, he, -⟩ := h.element
  exact walk_of_children_eq_nil (contains_of_get? he) h.empty

theorem Plain.planNames_eq (h : t.Plain id) (place : Place) : t.planNames id place = [] := by
  obtain ⟨e, he, hname, -, hrequired⟩ := h.element
  simp only [planNames, h.walk_eq, planMembers, he, if_true, neededName, hname, hrequired]
  simp

theorem Plain.claim_link (h : t.Plain id) (place : Place) (index : Nat) :
    (t.link id place index).claim id = none := by
  obtain ⟨e, he, hname, -⟩ := h.element
  have hget : (t.link id place index).get? id = _ := (get?_relink ..).trans (congrArg _ he)
  simp only [claim, hget, Option.map_some, Option.bind_some, relinked, hname,
    Option.bind_none]

end Tree

namespace Document

variable {d d' : Document} {id x : ElementId} {b b' r r' s' : OwnedElement}

/-- Whether the chains of all attached elements keep to the limit. -/
def Bounded (d : Document) : Prop :=
  ∀ x, d.tree.isAttached x = true → (⟨d, x⟩ : OwnedElement).EndsWithin d.depthLimit

theorem Orderly.runawayReference?_eq_none_iff (h : d.Orderly) (hwf : d.tree.WellFormed) :
    d.runawayReference? = none ↔ d.Bounded := by
  have hfresh : ∀ x, ¬ (⟨d, x⟩ : OwnedElement).Revisits := fun x => OwnedElement.not_revisits h
  simp only [Document.runawayReference?_eq_none_iff hwf, hfresh, not_false_eq_true, true_and,
    Bounded]

/-- An element in one document is the same as in another one, or in its place there. -/
def Tracks (d' d : Document) (r' r : OwnedElement) : Prop :=
  r' = r ∨ r.document = d ∧ r' = ⟨d', r.id⟩

theorem Tracks.isSame_eq (h : Tracks d' d r' r) (hserial : d'.serial = d.serial) :
    r'.isSame ⟨d', id⟩ = r.isSame ⟨d, id⟩ := by
  rcases h with rfl | ⟨hdocument, rfl⟩
  · simp only [OwnedElement.isSame, hserial]
  · simp only [OwnedElement.isSame, hdocument, decide_true]

/-- A base in one document is one in another that has the same bases and the same names for them. -/
theorem exists_base?_of_le (h : d'.base? x = some b') (hlibraries : d'.libraries = d.libraries)
    (hdictionary : d'.tree.dictionary = d.tree.dictionary)
    (hfrom : ∀ e', d'.get? x = some e' → e'.base ≠ none →
      ∃ e, d.get? x = some e ∧ e.typeName = e'.typeName ∧ e.base = e'.base)
    (hto : ∀ space name y f', d'.tree.find space name = some y → d'.get? y = some f' →
      d.tree.find space name = some y ∧ ∃ f, d.get? y = some f ∧ f.typeName = f'.typeName) :
    ∃ b, d.base? x = some b ∧ Tracks d' d b' b := by
  obtain ⟨e', ⟨library, name⟩, space, f', he', hbase', howner', hspace, hfind', hf', htype'⟩ :=
    base?_eq_some_iff.1 h
  obtain ⟨e, he, htype, hbase⟩ := hfrom e' he' (by simp [hbase'])
  rw [hdictionary, ← htype] at hspace
  rw [← htype] at htype'
  rw [← hbase] at hbase'
  cases library with
  | none =>
      have hself : b'.document = d' := (Option.some.inj howner').symm
      rw [hself] at hfind' hf'
      obtain ⟨hfind, f, hf, hftype⟩ := hto space name b'.id f' hfind' hf'
      refine ⟨⟨d, b'.id⟩, ?_, Or.inr ⟨rfl, by rw [← hself]⟩⟩
      exact base?_eq_some_iff.2
        ⟨e, _, space, f, he, hbase', rfl, hspace, hfind, hf, hftype.trans htype'⟩
  | some nameSpace =>
      have howner : d.owner? (some nameSpace) = some b'.document := by
        rwa [owner?, library?, hlibraries] at howner'
      exact ⟨b', base?_eq_some_iff.2
        ⟨e, _, space, f', he, hbase', howner, hspace, hfind', hf', htype'⟩, Or.inl rfl⟩

theorem exists_nthBase?_of_tracks {n : Nat} (hr : Tracks d' d r' r)
    (hbase : ∀ k s, k < n → r.nthBase? k = some s → s.document = d → ∀ b',
      d'.base? s.id = some b' → ∃ b, d.base? s.id = some b ∧ Tracks d' d b' b)
    (hs' : r'.nthBase? n = some s') : ∃ s, r.nthBase? n = some s ∧ Tracks d' d s' s := by
  induction n generalizing s' with
  | zero =>
      obtain rfl := Option.some.inj hs'
      exact ⟨r, rfl, hr⟩
  | succ n ih =>
      obtain ⟨t', ht', hstep⟩ := Option.bind_eq_some_iff.1 hs'
      obtain ⟨t, ht, htracks⟩ := ih (fun k s hk => hbase k s (by omega)) ht'
      rcases htracks with rfl | ⟨hdocument, rfl⟩
      · exact ⟨s', Option.bind_eq_some_iff.2 ⟨t', ht, hstep⟩, Or.inl rfl⟩
      · obtain ⟨s, hs, hs'⟩ := hbase n t (by omega) ht hdocument s' hstep
        refine ⟨s, Option.bind_eq_some_iff.2 ⟨t, ht, ?_⟩, hs'⟩
        rwa [OwnedElement.base?, hdocument]

section setBase

variable {e : Element} {reference : Reference}

def withBase (d : Document) (id : ElementId) (reference : Reference) : Document :=
  Edit.onTree d (·.modify id fun e => { e with base := some reference })

theorem get?_withBase (d : Document) (id y : ElementId) (reference : Reference) :
    (d.withBase id reference).get? y =
      if y = id then (d.get? id).map fun e => { e with base := some reference } else d.get? y :=
  Tree.get?_modify d.tree id y _

theorem get?_withBase_typeName {y : ElementId} {f' : Element}
    (h : (d.withBase id reference).get? y = some f') :
    ∃ f, d.get? y = some f ∧ f.typeName = f'.typeName := by
  rw [get?_withBase] at h
  split at h
  · next hy =>
    obtain ⟨f, hf, rfl⟩ := Option.map_eq_some_iff.1 h
    exact ⟨f, hy ▸ hf, rfl⟩
  · exact ⟨f', h, rfl⟩

private theorem tracks_base?_withBase (he : d.get? id = some e)
    (hlookup : d.lookup e.typeName reference = some b)
    (h : (d.withBase id reference).base? id = some b') :
    Tracks (d.withBase id reference) d b' b := by
  obtain ⟨e', reference', space, f', he', hbase', howner', hspace', hfind', -, -⟩ :=
    base?_eq_some_iff.1 h
  simp only [lookup, Option.bind_eq_some_iff, Option.map_eq_some_iff] at hlookup
  obtain ⟨owner, howner, space', hspace, y, hfind, rfl⟩ := hlookup
  rw [get?_withBase, if_pos rfl] at he'
  obtain ⟨e'', he'', rfl⟩ := Option.map_eq_some_iff.1 he'
  obtain rfl := Option.some.inj (he.symm.trans he'')
  obtain rfl := Option.some.inj hbase'
  obtain rfl := Option.some.inj (hspace.symm.trans hspace')
  cases hlibrary : reference.library with
  | none =>
      rw [hlibrary] at howner howner'
      obtain rfl := Option.some.inj howner
      have hdocument : b'.document = d.withBase id reference := (Option.some.inj howner').symm
      rw [hdocument] at hfind'
      obtain rfl := Option.some.inj (hfind.symm.trans hfind')
      exact Or.inr ⟨rfl, by rw [← hdocument]⟩
  | some nameSpace =>
      rw [hlibrary] at howner howner'
      obtain rfl := Option.some.inj (howner.symm.trans howner')
      obtain rfl := Option.some.inj (hfind.symm.trans hfind')
      exact Or.inl rfl

theorem exists_nthBase?_of_withBase (he : d.get? id = some e)
    (hlookup : d.lookup e.typeName reference = some b)
    (hout : ∀ k s, b.nthBase? k = some s → s.isSame ⟨d, id⟩ = false) {n : Nat}
    (hs' : (⟨d.withBase id reference, id⟩ : OwnedElement).nthBase? (n + 1) = some s') :
    ∃ s, b.nthBase? n = some s ∧ Tracks (d.withBase id reference) d s' s := by
  rw [OwnedElement.nthBase?_succ] at hs'
  obtain ⟨b', hb', hrest⟩ := Option.bind_eq_some_iff.1 hs'
  have htracks := tracks_base?_withBase he hlookup hb'
  refine exists_nthBase?_of_tracks htracks (fun k s _ hs hdocument b'' hb'' => ?_) hrest
  have hne : s.id ≠ id := by
    have hapart := hout k s hs
    rw [OwnedElement.isSame, hdocument] at hapart
    simpa using hapart
  refine exists_base?_of_le hb'' rfl rfl ?_ ?_
  · intro e' he' _
    rw [get?_withBase, if_neg hne] at he'
    exact ⟨e', he', rfl, rfl⟩
  · exact fun space name y f' hfind hf' => ⟨hfind, get?_withBase_typeName hf'⟩

theorem endsWithin_withBase (he : d.get? id = some e)
    (hlookup : d.lookup e.typeName reference = some b) (hfree : d.wouldRunOn id b = false) :
    (⟨d.withBase id reference, id⟩ : OwnedElement).EndsWithin d.depthLimit := by
  obtain ⟨hend, hout⟩ := OwnedElement.nthBase?_of_comesTo hfree
  apply Option.eq_none_iff_forall_ne_some.2
  intro s' hs'
  obtain ⟨s, hs, -⟩ := exists_nthBase?_of_withBase he hlookup hout hs'
  exact absurd (hend.symm.trans hs) (by simp)

theorem exists_base?_withBase (he : d.get? id = some e)
    (hlookup : d.lookup e.typeName reference = some b)
    (htype : b.get?.map (·.typeName) = some e.typeName) :
    ∃ b', (d.withBase id reference).base? id = some b' ∧
      Tracks d (d.withBase id reference) b b' := by
  obtain ⟨f, hf, hftype⟩ := Option.map_eq_some_iff.1 htype
  simp only [lookup, Option.bind_eq_some_iff, Option.map_eq_some_iff] at hlookup
  obtain ⟨owner, howner, space, hspace, y, hfind, rfl⟩ := hlookup
  have hself : (d.withBase id reference).get? id = some { e with base := some reference } := by
    rw [get?_withBase, if_pos rfl, he]
    rfl
  cases hlibrary : reference.library with
  | none =>
      rw [hlibrary] at howner
      obtain rfl := Option.some.inj howner
      -- the base may be the element itself, which has the same type with its base
      obtain ⟨f', hf', hftype'⟩ : ∃ f', (d.withBase id reference).get? y = some f' ∧
          f'.typeName = e.typeName := by
        rw [get?_withBase]
        split
        · exact ⟨{ e with base := some reference }, by rw [he]; rfl, rfl⟩
        · exact ⟨f, hf, hftype⟩
      refine ⟨⟨d.withBase id reference, y⟩, ?_, Or.inr ⟨rfl, rfl⟩⟩
      refine base?_eq_some_iff.2
        ⟨_, reference, space, f', hself, rfl, ?_, hspace, hfind, hf', hftype'⟩
      rw [hlibrary]
      rfl
  | some nameSpace =>
      refine ⟨⟨owner, y⟩, ?_, Or.inl rfl⟩
      refine base?_eq_some_iff.2 ⟨_, reference, space, f, hself, rfl, ?_, hspace, hfind, hf, hftype⟩
      rw [hlibrary] at howner ⊢
      exact howner

/-- As long as the chain with the new base does not come back, it goes on as the chain of that base
does. -/
theorem exists_nthBase?_withBase (he : d.get? id = some e)
    (hlookup : d.lookup e.typeName reference = some b)
    (htype : b.get?.map (·.typeName) = some e.typeName)
    (hout : ¬ (⟨d.withBase id reference, id⟩ : OwnedElement).Returns) {n : Nat}
    (hs : b.nthBase? n = some s) :
    ∃ s', (⟨d.withBase id reference, id⟩ : OwnedElement).nthBase? (n + 1) = some s' ∧
      Tracks d (d.withBase id reference) s s' := by
  obtain ⟨b', hb', htracks⟩ := exists_base?_withBase he hlookup htype
  have hchain : ∀ k, (⟨d.withBase id reference, id⟩ : OwnedElement).nthBase? (k + 1) =
    b'.nthBase? k := OwnedElement.nthBase?_succ_of_base? hb'
  simp only [hchain]
  refine exists_nthBase?_of_tracks htracks (fun k s _ hs hdocument b'' hb'' => ?_) hs
  have hne : s.id ≠ id := by
    intro hid
    apply hout
    refine ⟨k, s, (hchain k).trans hs, ?_⟩
    simp only [OwnedElement.isSame, hdocument, hid, decide_true, Bool.and_self]
  refine exists_base?_of_le hb'' rfl rfl ?_ ?_
  · intro e' he' _
    refine ⟨e', ?_, rfl, rfl⟩
    rw [get?_withBase, if_neg hne]
    exact he'
  · intro space name y f' hfind hf'
    refine ⟨hfind, ?_⟩
    rw [get?_withBase]
    split
    · next hy =>
      rw [hy] at hf'
      exact ⟨{ f' with base := some reference }, by rw [hf']; rfl, rfl⟩
    · exact ⟨f', hf', rfl⟩

/-- The check of a new base stops exactly if the chain with that base comes back or has too many
bases. -/
theorem wouldRunOn_iff (he : d.get? id = some e)
    (hlookup : d.lookup e.typeName reference = some b)
    (htype : b.get?.map (·.typeName) = some e.typeName) :
    d.wouldRunOn id b = true ↔ (⟨d.withBase id reference, id⟩ : OwnedElement).Returns ∨
      ¬ (⟨d.withBase id reference, id⟩ : OwnedElement).EndsWithin d.depthLimit := by
  constructor
  · intro hstop
    by_contra hgood
    obtain ⟨hout, hend⟩ := not_or.1 hgood
    rw [not_not] at hend
    rcases OwnedElement.exists_of_comesTo hstop with ⟨k, s, hs, hsame⟩ | ⟨s, hs⟩
    · obtain ⟨s', hs', htracks⟩ := exists_nthBase?_withBase he hlookup htype hout hs
      exact hout ⟨k, s', hs', (htracks.isSame_eq rfl).symm.trans hsame⟩
    · obtain ⟨s', hs', -⟩ := exists_nthBase?_withBase he hlookup htype hout hs
      exact absurd (hend.symm.trans hs') (by simp)
  · intro hbad
    by_contra hpass
    have hfree : d.wouldRunOn id b = false := Bool.eq_false_iff.2 hpass
    obtain ⟨-, hout⟩ := OwnedElement.nthBase?_of_comesTo hfree
    rcases hbad with ⟨k, s', hs', hsame⟩ | hlong
    · obtain ⟨s, hs, htracks⟩ := exists_nthBase?_of_withBase he hlookup hout hs'
      have hself := (htracks.isSame_eq rfl).symm.trans hsame
      exact absurd (hself.symm.trans (hout k s hs)) (by simp)
    · exact hlong (endsWithin_withBase he hlookup hfree)

end setBase

section attach

variable {place : Place} {index : Nat}

theorem exists_attach_plain (hwf : d.tree.WellFormed) (hc : d.tree.CanLink id place index)
    (hat : d.tree.isAttached place.container = true) (hplain : d.tree.Plain id) :
    ∃ names, Edit.apply d (.attach id place index) =
        Edit.onTree d (fun t => (t.link id place index).withNames names) ∧
      ((d.tree.link id place index).withNames names).WellFormed ∧
      ∀ key x, names.get? key = some x → d.tree.names.get? key = some x := by
  obtain ⟨d', hrev⟩ := Edit.reversible_add hwf hc hat
  rw [hplain.planNames_eq, List.map_nil, List.nil_append] at hrev
  obtain ⟨mid, hlead, rfl⟩ := hrev.forth
  -- the index after the edit is the one there was with what the plain element claims: nothing
  obtain ⟨names, hdraft⟩ := hlead.draft
  have hafter : ((d.tree.link id place index).withNames names).WellFormed := by
    have hwf' := hlead.after
    rw [hdraft] at hwf'
    exact hwf'
  refine ⟨names, hlead.apply_eq.trans hdraft, hafter, fun key x hx => ?_⟩
  obtain ⟨hattached, hclaim⟩ := (hafter.indexed key x).1 hx
  rw [Tree.isAttached_withNames] at hattached
  rw [Tree.claim_withNames] at hclaim
  have hne : x ≠ id := by
    rintro rfl
    rw [hplain.claim_link] at hclaim
    cases hclaim
  have hold : d.tree.isAttached x = true := by
    refine ((hc.isAttached_link hwf.forest).1 hattached).resolve_right fun hmem => hne ?_
    rw [hplain.walk_eq] at hmem
    exact List.mem_singleton.1 hmem.1
  rw [Tree.link, Tree.claim_relink d.tree place _ _ hne] at hclaim
  exact (hwf.indexed key x).2 ⟨hold, hclaim⟩

theorem runawayReference?_attach_plain (hd : d.Orderly) (hwf : d.tree.WellFormed)
    (hc : d.tree.CanLink id place index) (hat : d.tree.isAttached place.container = true)
    (hplain : d.tree.Plain id) (hpassed : d.runawayReference? = none) :
    (Edit.apply d (.attach id place index)).runawayReference? = none := by
  obtain ⟨names, happly, hwf', hnames⟩ := exists_attach_plain hwf hc hat hplain
  rw [happly]
  have hget : ∀ {x e'}, ((d.tree.link id place index).withNames names).get? x = some e' →
      ∃ e, d.tree.get? x = some e ∧ e.typeName = e'.typeName ∧ e.base = e'.base := by
    intro x e' he'
    have hlink : (d.tree.link id place index).get? x = some e' := he'
    rw [Tree.link, Tree.get?_relink] at hlink
    obtain ⟨e, he, rfl⟩ := Option.map_eq_some_iff.1 hlink
    exact ⟨e, he, rfl, rfl⟩
  have hto : ∀ space name y f', ((d.tree.link id place index).withNames names).find space name =
      some y → ((d.tree.link id place index).withNames names).get? y = some f' →
      d.tree.find space name = some y ∧ ∃ f, d.tree.get? y = some f ∧ f.typeName = f'.typeName := by
    intro space name y f' hfind hf'
    obtain ⟨f, hf, htype, -⟩ := hget hf'
    exact ⟨hnames _ _ hfind, f, hf, htype⟩
  have hgrounded : d.tree.Grounded → ((d.tree.link id place index).withNames names).Grounded :=
    fun h => h.mono fun hleans => hleans.of_le rfl (fun _ he' _ => hget he')
      fun space name f' hfind hf' => hto space name _ f' hfind hf'
  have hd' := (Follows.of_tree hgrounded none).orderly hd (by simp)
  refine (hd'.runawayReference?_eq_none_iff hwf').2 fun x hx => ?_
  rw [Tree.isAttached_withNames] at hx
  have hbase : ∀ y b', (Edit.onTree d fun t => (t.link id place index).withNames names).base? y =
      some b' → ∃ b, d.base? y = some b ∧ Tracks _ d b' b := fun y b' hb' =>
    exists_base?_of_le hb' rfl rfl (fun _ he' _ => hget he') hto
  rcases (hc.isAttached_link hwf.forest).1 hx with hold | ⟨hmem, -⟩
  · -- a chain after the edit is one of before, with as many bases
    have hbound := (hd.runawayReference?_eq_none_iff hwf).1 hpassed x hold
    apply Option.eq_none_iff_forall_ne_some.2
    intro s' hs'
    obtain ⟨s, hs, -⟩ := exists_nthBase?_of_tracks (r := ⟨d, x⟩) (Or.inr ⟨rfl, rfl⟩)
      (fun _ s _ _ _ => hbase s.id) hs'
    exact absurd (hbound.symm.trans hs) (by simp)
  · -- the new element has no base
    rw [hplain.walk_eq] at hmem
    obtain rfl := List.mem_singleton.1 hmem
    rw [OwnedElement.EndsWithin, OwnedElement.nthBase?_succ, Option.bind_eq_none_iff]
    intro b' hb'
    obtain ⟨b, hb, -⟩ := hbase x b' hb'
    obtain ⟨e, reference, -, -, he, hreference, -⟩ := base?_eq_some_iff.1 hb
    obtain ⟨e', he', -, hnone, -⟩ := hplain.element
    obtain rfl := Option.some.inj (he.symm.trans he')
    exact absurd (hnone.symm.trans hreference) (by simp)

end attach

end Document

end ReportModel
