import ReportModel.Proofs.Editor.History

/-!
# Mirrors

A mirror is an observer's copy of what the elements of a document hold. It is kept up to date by the
changes that events report: those of a commit and of a redo lead the mirror of the document before
to that of the document after, and those of an undo lead it back.
-/

namespace ReportModel

open Edit

/-- What an observer keeps of an element. -/
structure Copy where
  values : SortedMap String Value
  masks : SortedMap String Mask
  name : Option String
  base : Option Reference
  place : Option Place
deriving DecidableEq

/-- The copies of the elements that an observer knows. -/
abbrev Mirror := ElementId → Option Copy

def Element.copy (e : Element) : Copy :=
  ⟨e.values, e.masks, e.name, e.base, e.place⟩

def Document.mirror (d : Document) : Mirror :=
  fun id => (d.get? id).map Element.copy

namespace Mirror

variable (mirror : Mirror)

def update (id : ElementId) (f : Copy → Copy) : Mirror :=
  fun x => if x = id then (mirror x).map f else mirror x

def change : Change → Mirror
  | .value id property _ new =>
    mirror.update id fun c => { c with values := c.values.put property new }
  | .mask id property _ new =>
    mirror.update id fun c => { c with masks := c.masks.put property new }
  | .name id _ new => mirror.update id fun c => { c with name := new }
  | .base id _ new => mirror.update id fun c => { c with base := new }
  | .content id place added =>
    mirror.update id fun c => { c with place := if added then some place else none }
  | .sheet _ _ | .library _ => mirror

def hear (event : Event) : Mirror :=
  event.changes.foldl change mirror

/-- The mirror with one more element, in the state in which elements are created. -/
def create (id : ElementId) (name : Option String) : Mirror :=
  fun x => if x = id then some ⟨.empty, .empty, name, none, none⟩ else mirror x

def createAll (mirror : Mirror) : Document → List Creation → Mirror
  | _, [] => mirror
  | d, c :: cs => (mirror.create d.tree.elements.nextId c.name).createAll (d.create c) cs

/-- The mirror without the elements that a document does not have. -/
def keep (d : Document) : Mirror :=
  fun x => if d.tree.contains x then mirror x else none

end Mirror

namespace Document

variable {d d' base : Document} {edit : Edit} {edits : List Edit} {r : Revision}

theorem mirror_withNames (d : Document) (names : SortedMap NameKey ElementId) :
    (d.withNames names).mirror = d.mirror := rfl

theorem mirror_modify (d : Document) (id : ElementId) {f : Element → Element} {g : Copy → Copy}
    (h : ∀ e, (f e).copy = g e.copy) :
    (onTree d (·.modify id f)).mirror = d.mirror.update id g := by
  funext x
  change ((d.tree.modify id f).get? x).map Element.copy =
    if x = id then ((d.tree.get? x).map Element.copy).map g else (d.tree.get? x).map Element.copy
  rw [Tree.get?_modify]
  split
  · next hx =>
    rw [hx, Option.map_map, Option.map_map]
    exact congrArg (Option.map · _) (funext h)
  · rfl

theorem mirror_modify_eq (d : Document) (id : ElementId) {f : Element → Element}
    (h : ∀ e, (f e).copy = e.copy) : (onTree d (·.modify id f)).mirror = d.mirror := by
  have hmodify : (onTree d (·.modify id f)).mirror = d.mirror.update id fun c => c :=
    mirror_modify d id h
  rw [hmodify]
  funext x
  simp [Mirror.update]

theorem mirror_relink (d : Document) (id : ElementId) (place : Place)
    (f : List ElementId → List ElementId) (new : Option Place) :
    (onTree d (·.relink id place f new)).mirror =
      d.mirror.update id fun c => { c with place := new } := by
  have hslots : (onTree d (·.modify place.container (·.withSlot place.slot f))).mirror =
      d.mirror := by
    apply mirror_modify_eq
    exact fun _ => rfl
  have hplace : ∀ d : Document, (onTree d (·.modify id fun e => { e with place := new })).mirror =
      d.mirror.update id fun c => { c with place := new } := by
    intro d
    apply mirror_modify
    exact fun _ => rfl
  rw [← hslots]
  exact hplace (onTree d (·.modify place.container (·.withSlot place.slot f)))

/-- The change that an edit reports leads a mirror where the edit leads the document. -/
theorem mirror_of_leads (h : edit.Leads d d') : d'.mirror = d.mirror.change edit.change := by
  obtain ⟨names, rfl⟩ := h.draft
  rw [mirror_withNames]
  cases edit with
  | value | mask | name | base =>
      apply mirror_modify
      exact fun _ => rfl
  | attach | detach => exact mirror_relink ..
  | sheets host edit =>
      apply mirror_modify_eq
      exact fun _ => rfl
  | libraries => rfl

theorem mirror_of_replays (h : Replays edits d d') :
    d'.mirror = (edits.map Edit.change).foldl Mirror.change d.mirror := by
  induction edits generalizing d with
  | nil =>
      obtain rfl := h
      rfl
  | cons edit edits ih =>
      obtain ⟨mid, hlead, h⟩ := h
      rw [ih h, mirror_of_leads hlead, List.map_cons, List.foldl_cons]

theorem hear_of_made (h : Reversible r.edits d d') {kind : EventKind} (hkind : kind ≠ .undo) :
    d.mirror.hear (r.event kind) = d'.mirror := by
  cases kind with
  | undo => exact absurd rfl hkind
  | commit | redo => exact (mirror_of_replays h.forth).symm

theorem hear_of_undone (h : Reversible r.edits d d') :
    d'.mirror.hear (r.event .undo) = d.mirror := by
  have hback := mirror_of_replays h.back
  simp only [inverses, List.map_map] at hback
  exact hback.symm

section create

variable {cs : List Creation}

theorem mirror_create (d : Document) (c : Creation) :
    (d.create c).mirror = d.mirror.create d.tree.nextId c.name := by
  funext x
  change ((d.tree.create c.typeName c.name).get? x).map Element.copy = _
  rw [Tree.get?_create, Mirror.create]
  split <;> rfl

/-- Documents of one shape give new elements the same ids. -/
theorem shape_create (h : d.tree.elements.shape = base.tree.elements.shape) (c : Creation) :
    (d.create c).tree.elements.shape = (base.create c).tree.elements.shape := by
  change (d.tree.elements.insert _).shape = (base.tree.elements.insert _).shape
  rw [Arena.shape_insert, Arena.shape_insert, h, Arena.nextId_eq_of_shape h]

theorem mirror_createAll (h : d.tree.elements.shape = base.tree.elements.shape) :
    (base.createAll cs).mirror = base.mirror.createAll d cs := by
  induction cs generalizing d base with
  | nil => rfl
  | cons c cs ih =>
      have hid : d.tree.nextId = base.tree.nextId := Arena.nextId_eq_of_shape h
      change _ = (base.mirror.create d.tree.nextId c.name).createAll (d.create c) cs
      rw [hid, ← mirror_create]
      exact ih (shape_create h c)

end create

theorem keep_mirror (h : ∀ x, d'.tree.contains x = d.tree.contains x) :
    d.mirror.keep d' = d.mirror := by
  funext x
  rw [Mirror.keep, h, mirror]
  split
  · rfl
  · next hgone =>
    have hnone : d.get? x = none := Option.not_isSome_iff_eq_none.1 hgone
    rw [hnone]
    rfl

theorem keep_mirror_eraseAll (d : Document) (id : ElementId) :
    d.mirror.keep (d.eraseAll id) = (d.eraseAll id).mirror := by
  funext x
  have hget : (d.eraseAll id).get? x = if x ∈ d.tree.walk id then none else d.get? x :=
    Tree.get?_eraseAll ..
  have hcontains : (d.eraseAll id).tree.contains x = ((d.eraseAll id).get? x).isSome := rfl
  rw [Mirror.keep, hcontains, mirror, mirror, hget]
  by_cases hx : x ∈ d.tree.walk id
  · rw [if_pos hx]
    rfl
  · rw [if_neg hx]
    cases d.get? x <;> rfl

end Document

namespace Mirror

open History

variable {mirror : Mirror} {h : History} {stack : List Revision} {d d' mid : Document}
  {r : Revision}

/-- A mirror is that of the document at which the open transactions began. -/
def Behind (mirror : Mirror) (stack : List Revision) (d : Document) : Prop :=
  ∃ base, Opens base stack d ∧ mirror = base.mirror

theorem behind_nil : mirror.Behind [] d ↔ mirror = d.mirror := by
  constructor
  · rintro ⟨base, rfl, hmirror⟩
    exact hmirror
  · exact fun hmirror => ⟨d, rfl, hmirror⟩

theorem Behind.keep_eq (hb : mirror.Behind stack d)
    (hsame : ∀ x, d'.tree.contains x = d.tree.contains x) : mirror.keep d' = mirror := by
  obtain ⟨base, hopens, rfl⟩ := hb
  exact Document.keep_mirror fun x => (hsame x).trans hopens.contains_eq

theorem Behind.createAll (hb : mirror.Behind stack d) (cs : List Creation) :
    (mirror.createAll d cs).Behind stack (d.createAll cs) := by
  obtain ⟨base, hopens, rfl⟩ := hb
  exact ⟨base.createAll cs, hopens.createAll cs, (Document.mirror_createAll hopens.shape_eq).symm⟩

/-- A transaction that closes is heard of if it is the outermost one. -/
theorem Behind.absorb (hb : mirror.Behind h.current mid) (hr : Reversible r.edits mid d) :
    Behind (if h.current = [] then mirror.hear (r.event .commit) else mirror)
      (h.absorb r).current d := by
  cases hcur : h.current with
  | nil =>
      rw [hcur, behind_nil] at hb
      subst hb
      have hclosed : (h.absorb r).current = [] := by
        rw [← List.length_eq_zero_iff]
        exact (h.depth_absorb r).trans (congrArg List.length hcur)
      rw [if_pos rfl, hclosed, behind_nil]
      exact Document.hear_of_made hr (by simp)
  | cons first rest =>
      obtain ⟨base, hopens, rfl⟩ := hb
      rw [hcur] at hopens
      obtain ⟨start, hfirst, hopens⟩ := hopens
      rw [if_neg (List.cons_ne_nil first rest), absorb_of_cons hcur]
      exact ⟨base, ⟨start, hfirst.append hr, hopens⟩, rfl⟩

end Mirror

end ReportModel
