import Mathlib.Data.List.Forall2
import ReportModel.Proofs.Css.Merging
import ReportModel.Proofs.Editor.Adding

/-!
# What importing styles makes of the tree

Importing a style creates an element, writes the values that the style lists one after the other,
and puts the element behind the styles of the root. So the element has the value that is listed last
for each property. No other element changes its type, its name or its values, and a list of styles
gives a list of elements.
-/

namespace ReportModel

open Edit

/-- The styles that a stylesheet has of some names, in that order, each with its name. -/
def Css.StyleSheet.styled (sheet : Css.StyleSheet) (names : List String) :
    List (String × Css.Style) :=
  names.filterMap fun name => (sheet.style? name).map (name, ·)

/-- A name, or that name with a number behind it. -/
def IsNumbered (base name : String) : Prop :=
  name = base ∨ ∃ n : Nat, name = base ++ toString n

namespace Tree

variable {t t' t'' : Tree} {id top : ElementId} {place : Place} {e : Element} {name : String}

/-- An element is a copy of a style of a stylesheet, under a name or a numbered one. It has the last
one of the values listed for each property. -/
def Copies (t : Tree) (name : String) (style : Css.Style) (id : ElementId) : Prop :=
  ∃ e own, t.get? id = some e ∧ e.typeName = Vocabulary.styleType ∧ e.name = some own ∧
    IsNumbered name own ∧ ∀ p, e.value? p = Css.lastValueIn p style.properties

/-- Elements have kept their types, names and values. -/
def Retains (t t' : Tree) : Prop :=
  ∀ x e, t.get? x = some e → ∃ e', t'.get? x = some e' ∧
    e'.typeName = e.typeName ∧ e'.name = e.name ∧ e'.values = e.values

/-- A style has been imported as an element that was not there before. -/
structure Imports (name : String) (style : Css.Style) (id : ElementId) (t t' : Tree) : Prop where
  after : t'.WellFormed
  root : t'.root = t.root
  fresh : t.get? id = none
  copies : t'.Copies name style id
  contents : t'.contents t.root Vocabulary.stylesSlot =
    t.contents t.root Vocabulary.stylesSlot ++ [id]
  retains : t.Retains t'

structure ImportsAll (entries : List (String × Css.Style)) (ids : List ElementId) (t t' : Tree) :
    Prop where
  root : t'.root = t.root
  fresh : ∀ id ∈ ids, t.get? id = none
  copies : List.Forall₂ (fun entry id => t'.Copies entry.1 entry.2 id) entries ids
  nodup : ids.Nodup
  contents : t'.contents t.root Vocabulary.stylesSlot =
    t.contents t.root Vocabulary.stylesSlot ++ ids
  retains : t.Retains t'

theorem Copies.retains {style : Css.Style} (h : t.Copies name style id) (hretains : t.Retains t') :
    t'.Copies name style id := by
  obtain ⟨e, own, he, htype, hname, hnumbered, hvalues⟩ := h
  obtain ⟨e', he', htype', hname', hvalues'⟩ := hretains id e he
  refine ⟨e', own, he', htype'.trans htype, hname'.trans hname, hnumbered, fun p => ?_⟩
  rw [Element.value?, hvalues']
  exact hvalues p

theorem Retains.trans (h : t.Retains t') (h' : t'.Retains t'') : t.Retains t'' := by
  intro x e he
  obtain ⟨e', he', htype, hname, hvalues⟩ := h x e he
  obtain ⟨e'', he'', htype', hname', hvalues'⟩ := h' x e' he'
  exact ⟨e'', he'', htype'.trans htype, hname'.trans hname, hvalues'.trans hvalues⟩

theorem Retains.fresh (h : t.Retains t') {x : ElementId} (hx : t'.get? x = none) :
    t.get? x = none := by
  cases he : t.get? x with
  | none => rfl
  | some e =>
      obtain ⟨e', he', -⟩ := h x e he
      cases hx.symm.trans he'

theorem importsAll_nil (t : Tree) : ImportsAll [] [] t t where
  root := rfl
  fresh := List.forall_mem_nil _
  copies := .nil
  nodup := List.nodup_nil
  contents := (List.append_nil _).symm
  retains _ e he := ⟨e, he, rfl, rfl, rfl⟩

theorem Imports.cons {style : Css.Style} {entries : List (String × Css.Style)}
    {ids : List ElementId} (h : Imports name style id t t') (h' : ImportsAll entries ids t' t'') :
    ImportsAll ((name, style) :: entries) (id :: ids) t t'' where
  root := h'.root.trans h.root
  fresh := List.forall_mem_cons.2 ⟨h.fresh, fun x hx => h.retains.fresh (h'.fresh x hx)⟩
  copies := .cons (h.copies.retains h'.retains) h'.copies
  nodup := by
    obtain ⟨e, _, he, -⟩ := h.copies
    refine List.nodup_cons.2 ⟨fun hmem => ?_, h'.nodup⟩
    cases he.symm.trans (h'.fresh id hmem)
  contents := by
    have hcontents := h'.contents
    rw [h.root, h.contents, List.append_assoc] at hcontents
    exact hcontents
  retains := h.retains.trans h'.retains

/-- An element with nothing inside it keeps its name or gets a number behind it. -/
theorem isNumbered_plannedName (he : t.get? id = some e) (hname : e.name = some name)
    (hwalk : t.walk id = [id]) :
    ∃ own, plannedName (t.planNames id place) id e = some own ∧ IsNumbered name own := by
  have hplace : settled id place id e = some place := if_pos rfl
  have hplan : plannedName (t.planNames id place) id e =
      (t.neededName id [] id place e <|> e.name) := by
    rw [planNames, hwalk, planMembers_cons he hplace]
    exact plannedName_append_self (by simp [planMembers])
  rw [hplan, neededName, hname]
  dsimp only
  split
  · exact ⟨_, rfl, Or.inr ⟨_, rfl⟩⟩
  · exact ⟨name, rfl, Or.inl rfl⟩

end Tree

theorem get?_foldl_put (entries : List (String × Value)) (values : SortedMap String Value)
    (p : String) : (entries.foldl (fun values entry => values.put entry.1 (some entry.2))
      values).get? p = (Css.lastValueIn p entries).or (values.get? p) := by
  induction entries generalizing values with
  | nil => rfl
  | cons entry entries ih =>
      rw [List.foldl_cons, ih, SortedMap.get?_put, ← List.singleton_append,
        Css.lastValueIn_append, Option.or_assoc]
      congr 1
      rw [Css.lastValueIn, List.reverse_singleton, Css.valueIn_cons]
      split <;> rfl

namespace Document

variable {d d₁ : Document} {id new x : ElementId} {place : Place} {index : Option Nat} {e : Element}
  {name : String} {style : Css.Style} {i : Nat}

theorem exists_get?_added (hwf : d.tree.WellFormed) (hcheck : d.checkAdd id place index = .ok i)
    (he : d.tree.get? x = some e) : ∃ e', (d.added id place i).tree.get? x = some e' ∧
      e'.typeName = e.typeName ∧ e'.values = e.values ∧
      e'.name = Tree.plannedName (d.tree.planNames id place) x e := by
  obtain ⟨e', he', hbare⟩ := (sameBare_added d id place i).exists_get? he
  have htype := congrArg Element.typeName hbare
  have hvalues := congrArg Element.values hbare
  have hname := (adds_added hwf hcheck).name? he
  rw [Tree.name?, he', Option.bind_some] at hname
  exact ⟨e', he', htype, hvalues, hname⟩

theorem contents_added (hwf : d.tree.WellFormed) (hcheck : d.checkAdd id place none = .ok i) :
    (d.added id place i).tree.contents place.container place.slot =
      d.tree.contents place.container place.slot ++ [id] := by
  obtain ⟨hc, -⟩ := canLink_of_checkAdd hcheck
  obtain ⟨d₁, names, -, hlinks, -, htree, -⟩ := tree_added hwf hcheck
  have hcontents := (hc.sameLinks hwf.forest hlinks).contents_link (hlinks.forest hwf.forest) place
  rw [if_pos rfl, hlinks.contents_eq] at hcontents
  rw [htree, Tree.contents_withNames, hcontents, eq_getD_of_checkAdd hcheck]
  simp [insertAt]

/-- A new style has been given some values, before it is put into a slot; all else is as it was. -/
structure Given (d : Document) (name : String) (entries : List (String × Value)) (new : ElementId)
    (d₁ : Document) : Prop where
  wellFormed : d₁.tree.WellFormed
  fresh : d.tree.get? new = none
  links : Tree.SameLinks (d.create (Action.styleCreation name)).tree d₁.tree
  others : ∀ x, x ≠ new → d₁.tree.get? x = d.tree.get? x
  style : ∃ e, d₁.tree.get? new = some e ∧ e.typeName = Vocabulary.styleType ∧
    e.name = some name ∧ ∀ p, e.value? p = Css.lastValueIn p entries

theorem given_giveAll (hwf : d.tree.WellFormed) (hnew : d.tree.nextId = new)
    {entries : List (String × Value)}
    (hd₁ : applyAll (giveAll new entries) (d.create (Action.styleCreation name)) = d₁) :
    d.Given name entries new d₁ := by
  subst hnew
  have hcreated : (d.create (Action.styleCreation name)).tree.get? d.tree.nextId =
      some (Element.create d.tree.dictionary Vocabulary.styleType (some name)) :=
    (Tree.get?_create ..).trans (if_pos rfl)
  have hgiven := reversible_giveAll (hwf.create _ _) hcreated (fun _ => rfl) entries
  have hwf₁ := hgiven.wellFormed (hwf.create _ _)
  rw [hd₁] at hwf₁
  rw [giveAll, applyAll_values] at hd₁
  subst hd₁
  refine ⟨hwf₁, d.tree.get?_nextId, Tree.sameLinks_modify _ _ fun _ => ⟨rfl, rfl, rfl⟩,
    fun x hx => ?_, ?_⟩
  · exact (Tree.get?_modify ..).trans ((if_neg hx).trans ((Tree.get?_create ..).trans (if_neg hx)))
  · refine ⟨_, (Tree.get?_modify ..).trans ((if_pos rfl).trans (congrArg (Option.map _) hcreated)),
      rfl, rfl, fun p => ?_⟩
    exact (get?_foldl_put entries .empty p).trans Option.or_none

namespace Given

variable (h : d.Given name style.properties new d₁)

include h

theorem root_eq : d₁.tree.root = d.tree.root :=
  h.links.root

theorem contents_eq (container : ElementId) (slot : String) :
    d₁.tree.contents container slot = d.tree.contents container slot :=
  (h.links.contents_eq container slot).trans (Tree.contents_create ..)

theorem walk_eq : d₁.tree.walk new = [new] := by
  obtain ⟨e, he, -⟩ := h.style
  refine Tree.walk_of_children_eq_nil (Tree.contains_of_get? he) ?_
  rw [h.links.children_eq]
  refine (Tree.children_create ..).trans ?_
  rw [Tree.children, h.fresh]
  rfl

section added

variable (hcheck : d₁.checkAdd new place index = .ok i)

include hcheck

theorem copies_added : (d₁.added new place i).tree.Copies name style new := by
  obtain ⟨e, he, htype, hname, hvalues⟩ := h.style
  obtain ⟨e', he', htype', hvalues', hname'⟩ := exists_get?_added h.wellFormed hcheck he
  obtain ⟨own, hown, hnumbered⟩ := Tree.isNumbered_plannedName he hname h.walk_eq
  refine ⟨e', own, he', htype'.trans htype, hname'.trans hown, hnumbered, fun p => ?_⟩
  rw [Element.value?, hvalues']
  exact hvalues p

theorem retains_added : d.tree.Retains (d₁.added new place i).tree := by
  intro x e he
  have hne : x ≠ new := by
    rintro rfl
    cases h.fresh.symm.trans he
  obtain ⟨e', he', htype, hvalues, hname⟩ :=
    exists_get?_added h.wellFormed hcheck ((h.others x hne).trans he)
  have hplan := (Tree.plans_planNames h.wellFormed.forest new place).sublist
  rw [h.walk_eq] at hplan
  have hnot := fun hmem => hne (List.mem_singleton.1 (hplan.subset hmem))
  exact ⟨e', he', htype, hname.trans (Tree.plannedName_of_notMem hnot e), hvalues⟩

end added

theorem imports_added (hcheck : d₁.checkAdd new ⟨d₁.root, Vocabulary.stylesSlot⟩ none = .ok i) :
    Tree.Imports name style new d.tree
      (d₁.added new ⟨d₁.root, Vocabulary.stylesSlot⟩ i).tree where
  after := by
    obtain ⟨-, -, -, -, -, -, hwf⟩ := tree_added h.wellFormed hcheck
    exact hwf
  root := (sameBare_added d₁ new _ i).root.trans h.root_eq
  fresh := h.fresh
  copies := h.copies_added hcheck
  contents := by
    have hcontents := contents_added h.wellFormed hcheck
    have hroot : d₁.root = d.tree.root := h.root_eq
    rw [h.contents_eq, hroot] at hcontents
    rw [hroot]
    exact hcontents
  retains := h.retains_added hcheck

end Given

end Document

namespace Action

variable {ed : Editor}

theorem yields_importStyle_imports (hwf : ed.document.tree.WellFormed) (name : String)
    (style : Css.Style) : (importStyle false name style).Yields ed (fun id ed' =>
      Tree.Imports name style id ed.document.tree ed'.document.tree) fun _ => True :=
  yields_importStyle_of (P := fun id d => Tree.Imports name style id ed.document.tree d.tree)
    fun _ _ hnew hgiven _ hcheck _ =>
      (Document.given_giveAll hwf hnew hgiven).imports_added hcheck

theorem yields_importStyles_imports (hwf : ed.document.tree.WellFormed) (sheet : Css.StyleSheet)
    (names : List String) : (importStyles false sheet names).Yields ed (fun ids ed' =>
      Tree.ImportsAll (sheet.styled names) ids ed.document.tree ed'.document.tree)
      fun _ => True := by
  have hall : ∀ (entries : List (String × Css.Style)) {ed : Editor},
      ed.document.tree.WellFormed →
      (entries.mapM fun entry => importStyle false entry.1 entry.2).Yields ed (fun ids ed' =>
        Tree.ImportsAll entries ids ed.document.tree ed'.document.tree) fun _ => True := by
    intro entries
    induction entries with
    | nil => exact fun _ => Tree.importsAll_nil _
    | cons entry entries ih =>
        intro ed hwf
        rw [List.mapM_cons, yields_bind]
        refine (yields_importStyle_imports hwf entry.1 entry.2).imp ?_ fun _ h => h
        intro id ed₁ himports
        refine yields_bind.2 ((ih himports.after).imp ?_ fun _ h => h)
        exact fun ids ed₂ hrest => himports.cons hrest
  exact yields_transact_document "import css styles"
    (P := fun ids d => Tree.ImportsAll (sheet.styled names) ids ed.document.tree d.tree)
    (hall _ hwf)

end Action

end ReportModel
