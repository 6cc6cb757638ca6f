import ReportModel.Editor.Edit
import ReportModel.Proofs.Tree.WellFormed

/-!
# Replaying edits

An edit leads from one well-formed document to another if it can be made there. If what it says
about the state before is right, its inverse leads back. Chains of edits that lead somewhere and
back are what histories are made of.
-/

namespace ReportModel

namespace Tree

variable {t : Tree} {id : ElementId} {place : Place} {index : Nat}

theorem modify_modify (t : Tree) (id : ElementId) (f g : Element → Element) :
    (t.modify id f).modify id g = t.modify id (g ∘ f) := by
  have helements : (t.elements.modify id f).modify id g = t.elements.modify id (g ∘ f) := by
    apply Arena.eq_of_get? (by simp)
    intro x
    simp only [Arena.get?_modify, if_true, Option.map_map]
    split <;> rfl
  simp only [modify, helements]

theorem modify_eq_self {f : Element → Element} (h : ∀ e, t.get? id = some e → f e = e) :
    t.modify id f = t := by
  have helements : t.elements.modify id f = t.elements := by
    apply Arena.eq_of_get? (by simp)
    intro x
    rw [Arena.get?_modify]
    split
    · next hx =>
      subst hx
      cases he : t.elements.get? x with
      | none => rfl
      | some e => exact congrArg some (h e he)
    · rfl
  cases t
  simp only [modify] at helements ⊢
  rw [helements]

theorem CanLink.withNames (h : t.CanLink id place index) (names : SortedMap NameKey ElementId) :
    (t.withNames names).CanLink id place index :=
  ⟨h.accepts, h.not_root, by rw [isWithin_withNames]; exact h.outside, h.index_le⟩

theorem CanUnlink.withNames (h : t.CanUnlink id place index)
    (names : SortedMap NameKey ElementId) : (t.withNames names).CanUnlink id place index :=
  ⟨h.placed, h.getElem?_contents⟩

end Tree

theorem Document.eq_of_tree {d d' : Document} (hserial : d'.serial = d.serial)
    (hlimit : d'.depthLimit = d.depthLimit) (htree : d'.tree = d.tree)
    (hlibraries : d'.libraries = d.libraries) : d' = d := by
  cases d
  cases d'
  simp_all

def Document.withNames (d : Document) (names : SortedMap NameKey ElementId) : Document :=
  Edit.onTree d (·.withNames names)

namespace Edit

variable {d d' d'' : Document} {edit : Edit}

/-- The document after an edit, its name index left as it was. -/
def draft (d : Document) : Edit → Document
  | .name element _ new => onTree d (·.renamed element new)
  | .attach element place index => onTree d (·.link element place index)
  | .detach element place _ => onTree d (·.unlink element place)
  | edit => edit.apply d

/-- An edit can be made: what it speaks of is there and stands where it should. -/
def Fits (d : Document) : Edit → Prop
  | .value element .. | .mask element .. | .name element .. | .base element .. =>
    d.tree.contains element = true
  | .attach element place index => d.tree.CanLink element place index
  | .detach element place index => d.tree.CanUnlink element place index
  | .sheets host _ => d.tree.contains host = true
  | .libraries _ => True

/-- What an edit says about the state before it is right. -/
def Records (d : Document) : Edit → Prop
  | .value element property old _ =>
    ∀ e, d.tree.get? element = some e → e.value? property = old
  | .mask element property old _ => ∀ e, d.tree.get? element = some e → e.mask? property = old
  | .name element old _ => ∀ e, d.tree.get? element = some e → e.name = old
  | .base element old _ => ∀ e, d.tree.get? element = some e → e.base = old
  | .sheets host edit => edit.Fits (d.sheets host)
  | .libraries edit => edit.Fits d.libraries
  | .attach .. | .detach .. => True

/-- An edit leaves the names different that have to be. -/
def KeepsNames (d : Document) : Edit → Prop
  | .name element _ new => (d.tree.renamed element new).Named
  | .attach element place index => (d.tree.link element place index).Named
  | _ => True

/-- An edit can be made in one well-formed document and makes it another. -/
structure Leads (edit : Edit) (d d' : Document) : Prop where
  before : d.tree.WellFormed
  fits : edit.Fits d
  after : d'.tree.WellFormed
  draft : ∃ names, d' = (edit.draft d).withNames names

theorem draft_withNames (edit : Edit) (d : Document) (names : SortedMap NameKey ElementId) :
    edit.draft (d.withNames names) = (edit.draft d).withNames names := by
  cases edit <;> rfl

theorem Fits.withNames (h : edit.Fits d) (names : SortedMap NameKey ElementId) :
    edit.Fits (d.withNames names) := by
  cases edit with
  | attach => exact Tree.CanLink.withNames h names
  | detach => exact Tree.CanUnlink.withNames h names
  | _ => exact h

theorem leads_apply (hwf : d.tree.WellFormed) (hfits : edit.Fits d) (hnames : edit.KeepsNames d) :
    edit.Leads d (edit.apply d) := by
  cases edit with
  | name element old new =>
      obtain ⟨names, heq, hwf'⟩ := hwf.rename hnames
      exact ⟨hwf, hfits, by rwa [← heq] at hwf', names, Document.eq_of_tree rfl rfl heq rfl⟩
  | attach element place index =>
      obtain ⟨names, heq, hwf'⟩ := hwf.attach hfits hnames
      exact ⟨hwf, hfits, by rwa [← heq] at hwf', names, Document.eq_of_tree rfl rfl heq rfl⟩
  | detach element place index =>
      obtain ⟨names, heq, hwf'⟩ := hwf.detach hfits
      exact ⟨hwf, hfits, by rwa [← heq] at hwf', names, Document.eq_of_tree rfl rfl heq rfl⟩
  | libraries edit => exact ⟨hwf, hfits, hwf, d.tree.names, rfl⟩
  | value | mask | base | sheets =>
      exact ⟨hwf, hfits, hwf.modify _ (fun _ => ⟨rfl, rfl, rfl⟩) fun _ => rfl, d.tree.names, rfl⟩

theorem Leads.apply_eq (h : edit.Leads d d') : edit.apply d = d' := by
  obtain ⟨names, rfl⟩ := h.draft
  have hafter : ((edit.draft d).tree.withNames names).WellFormed := h.after
  have hnamed : (edit.draft d).tree.Named := hafter.named.withNames (edit.draft d).tree.names
  have hnames : edit.KeepsNames d := by
    cases edit with
    | name => exact hnamed
    | attach => exact hnamed
    | _ => trivial
  have happly := leads_apply h.before h.fits hnames
  obtain ⟨names', heq⟩ := happly.draft
  have hwf' := happly.after
  rw [heq] at hwf'
  exact heq.trans (Document.eq_of_tree rfl rfl (hafter.eq_withNames hwf') rfl)

theorem draft_inverse_draft (hf : d.tree.Forest) (hfits : edit.Fits d) (hold : edit.Records d) :
    edit.inverse.draft (edit.draft d) = d := by
  have hmodify : ∀ {id : ElementId} {f g : Element → Element},
      (∀ e, d.tree.get? id = some e → g (f e) = e) →
      onTree (onTree d (·.modify id f)) (·.modify id g) = d := fun h =>
    Document.eq_of_tree rfl rfl ((Tree.modify_modify ..).trans (Tree.modify_eq_self h)) rfl
  cases edit with
  | value element property old new =>
      apply hmodify
      intro e he
      have hput : (e.values.put property new).put property old = e.values := by
        apply SortedMap.eq_of_get?
        intro k
        rw [SortedMap.get?_put, SortedMap.get?_put]
        split
        · next hk =>
          rw [← hk]
          exact (hold e he).symm
        · rfl
      simp [hput]
  | mask element property old new =>
      apply hmodify
      intro e he
      have hput : (e.masks.put property new).put property old = e.masks := by
        apply SortedMap.eq_of_get?
        intro k
        rw [SortedMap.get?_put, SortedMap.get?_put]
        split
        · next hk =>
          rw [← hk]
          exact (hold e he).symm
        · rfl
      simp [hput]
  | name element old new =>
      apply hmodify
      intro e he
      simp [← hold e he]
  | base element old new =>
      apply hmodify
      intro e he
      simp [← hold e he]
  | attach element place index =>
      exact Document.eq_of_tree rfl rfl (Tree.CanLink.unlink_link hf hfits) rfl
  | detach element place index =>
      exact Document.eq_of_tree rfl rfl (Tree.CanUnlink.link_unlink hf hfits) rfl
  | sheets host edit =>
      apply hmodify
      intro e he
      have hsheets : edit.Fits e.sheets := by
        have hfit : edit.Fits (d.sheets host) := hold
        rwa [Document.sheets, Document.get?, he] at hfit
      simp [ListEdit.apply_inverse_apply hsheets]
  | libraries edit =>
      exact Document.eq_of_tree rfl rfl rfl (ListEdit.apply_inverse_apply hold)

theorem fits_inverse_draft (hf : d.tree.Forest) (hfits : edit.Fits d) :
    edit.inverse.Fits (edit.draft d) := by
  cases edit with
  | attach element place index => exact Tree.CanLink.canUnlink_link hf hfits
  | detach element place index => exact Tree.CanUnlink.canLink_unlink hf hfits
  | libraries => trivial
  | value | mask | name | base | sheets => exact (Tree.contains_modify ..).trans hfits

theorem Leads.inverse (h : edit.Leads d d') (hold : edit.Records d) :
    edit.inverse.Leads d' d := by
  obtain ⟨names, rfl⟩ := h.draft
  refine ⟨h.after, ?_, h.before, d.tree.names, ?_⟩
  · exact (fits_inverse_draft h.before.forest h.fits).withNames names
  · rw [draft_withNames, draft_inverse_draft h.before.forest h.fits hold]
    exact Document.eq_of_tree rfl rfl rfl rfl

theorem Leads.contains_eq (h : edit.Leads d d') (x : ElementId) :
    d'.tree.contains x = d.tree.contains x := by
  obtain ⟨names, rfl⟩ := h.draft
  cases edit with
  | attach | detach => exact Tree.contains_relink ..
  | libraries => rfl
  | value | mask | name | base | sheets => exact Tree.contains_modify ..

theorem Leads.size_eq (h : edit.Leads d d') : d'.tree.size = d.tree.size := by
  obtain ⟨names, rfl⟩ := h.draft
  cases edit with
  | attach | detach => exact (Arena.size_modify ..).trans (Arena.size_modify ..)
  | libraries => rfl
  | value | mask | name | base | sheets => exact Arena.size_modify ..

theorem Leads.shape_eq (h : edit.Leads d d') :
    d'.tree.elements.shape = d.tree.elements.shape := by
  obtain ⟨names, rfl⟩ := h.draft
  cases edit with
  | attach | detach => exact (Arena.shape_modify ..).trans (Arena.shape_modify ..)
  | libraries => rfl
  | value | mask | name | base | sheets => exact Arena.shape_modify ..

theorem touches_inverse (ids : List ElementId) : edit.inverse.touches ids = edit.touches ids := by
  cases edit <;> rfl

theorem Fits.contains_of_touches (h : edit.Fits d) {x : ElementId}
    (hx : edit.touches [x] = true) : d.tree.contains x = true := by
  cases edit with
  | attach element place index =>
      simp only [touches, Bool.or_eq_true, List.contains_iff_mem, List.mem_singleton] at hx
      rcases hx with rfl | rfl
      · exact Tree.CanLink.contained h
      · exact Tree.CanLink.container_contained h
  | detach element place index =>
      simp only [touches, Bool.or_eq_true, List.contains_iff_mem, List.mem_singleton] at hx
      rcases hx with rfl | rfl
      · exact Tree.CanUnlink.contained h
      · obtain ⟨host, -, hhost, -⟩ := Tree.CanUnlink.exists_slot h
        exact Tree.contains_of_get? hhost
  | libraries => simp [touches] at hx
  | value | mask | name | base | sheets =>
      simp only [touches, List.contains_iff_mem, List.mem_singleton] at hx
      exact hx ▸ h

/-- A chain of edits leads from one document to another. -/
def Replays : List Edit → Document → Document → Prop
  | [], d, d' => d = d'
  | edit :: rest, d, d' => ∃ mid, edit.Leads d mid ∧ Replays rest mid d'

namespace Replays

variable {edits rest : List Edit}

theorem append (h : Replays edits d d') (h' : Replays rest d' d'') :
    Replays (edits ++ rest) d d'' := by
  induction edits generalizing d with
  | nil =>
      obtain rfl := h
      exact h'
  | cons edit edits ih =>
      obtain ⟨mid, hlead, h⟩ := h
      exact ⟨mid, hlead, ih h⟩

theorem applyAll_eq (h : Replays edits d d') : applyAll edits d = d' := by
  induction edits generalizing d with
  | nil => exact h
  | cons edit edits ih =>
      obtain ⟨mid, hlead, h⟩ := h
      rw [applyAll, List.foldl_cons, hlead.apply_eq]
      exact ih h

theorem wellFormed (h : Replays edits d d') (hwf : d.tree.WellFormed) : d'.tree.WellFormed := by
  induction edits generalizing d with
  | nil =>
      obtain rfl := h
      exact hwf
  | cons edit edits ih =>
      obtain ⟨mid, hlead, h⟩ := h
      exact ih h hlead.after

theorem contains_eq (h : Replays edits d d') (x : ElementId) :
    d'.tree.contains x = d.tree.contains x := by
  induction edits generalizing d with
  | nil =>
      obtain rfl := h
      rfl
  | cons edit edits ih =>
      obtain ⟨mid, hlead, h⟩ := h
      rw [ih h, hlead.contains_eq]

theorem size_eq (h : Replays edits d d') : d'.tree.size = d.tree.size := by
  induction edits generalizing d with
  | nil =>
      obtain rfl := h
      rfl
  | cons edit edits ih =>
      obtain ⟨mid, hlead, h⟩ := h
      rw [ih h, hlead.size_eq]

theorem shape_eq (h : Replays edits d d') :
    d'.tree.elements.shape = d.tree.elements.shape := by
  induction edits generalizing d with
  | nil =>
      obtain rfl := h
      rfl
  | cons edit edits ih =>
      obtain ⟨mid, hlead, h⟩ := h
      rw [ih h, hlead.shape_eq]

theorem contains_of_touches (h : Replays edits d d') {x : ElementId} (hmem : edit ∈ edits)
    (hx : edit.touches [x] = true) : d.tree.contains x = true := by
  induction edits generalizing d with
  | nil => simp at hmem
  | cons first edits ih =>
      obtain ⟨mid, hlead, h⟩ := h
      rcases List.mem_cons.1 hmem with rfl | hmem
      · exact hlead.fits.contains_of_touches hx
      · rw [← hlead.contains_eq]
        exact ih h hmem

end Replays

def inverses (edits : List Edit) : List Edit :=
  edits.reverse.map inverse

theorem inverses_append (edits rest : List Edit) :
    inverses (edits ++ rest) = inverses rest ++ inverses edits := by
  simp [inverses]

@[simp]
theorem inverses_inverses (edits : List Edit) : inverses (inverses edits) = edits := by
  simp [inverses, Function.comp_def]

theorem revertAll_eq_applyAll (edits : List Edit) (d : Document) :
    revertAll edits d = applyAll (inverses edits) d := by
  simp [revertAll, applyAll, inverses, List.foldr_map]

/-- A chain of edits leads from one document to another, and their inverses lead back. -/
structure Reversible (edits : List Edit) (d d' : Document) : Prop where
  forth : Replays edits d d'
  back : Replays (inverses edits) d' d

namespace Reversible

variable {edits rest : List Edit}

theorem nil (d : Document) : Reversible [] d d := ⟨rfl, rfl⟩

theorem append (h : Reversible edits d d') (h' : Reversible rest d' d'') :
    Reversible (edits ++ rest) d d'' :=
  ⟨h.forth.append h'.forth, inverses_append edits rest ▸ h'.back.append h.back⟩

theorem symm (h : Reversible edits d d') : Reversible (inverses edits) d' d :=
  ⟨h.back, (inverses_inverses edits).symm ▸ h.forth⟩

theorem applyAll_eq (h : Reversible edits d d') : applyAll edits d = d' :=
  h.forth.applyAll_eq

theorem revertAll_eq (h : Reversible edits d d') : revertAll edits d' = d := by
  rw [revertAll_eq_applyAll, h.back.applyAll_eq]

theorem wellFormed (h : Reversible edits d d') (hwf : d.tree.WellFormed) : d'.tree.WellFormed :=
  h.forth.wellFormed hwf

end Reversible

theorem reversible_single (hwf : d.tree.WellFormed) (hfits : edit.Fits d)
    (hnames : edit.KeepsNames d) (hold : edit.Records d) :
    Reversible [edit] d (edit.apply d) :=
  have hlead := leads_apply hwf hfits hnames
  ⟨⟨_, hlead, rfl⟩, ⟨_, hlead.inverse hold, rfl⟩⟩

end Edit

end ReportModel
