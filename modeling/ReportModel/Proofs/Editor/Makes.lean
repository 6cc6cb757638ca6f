import ReportModel.Proofs.Editor.Leaves
import ReportModel.Proofs.Tree.Bare

/-!
# The edits that commands make

Each command makes edits of its own kind only: which elements they change, and what they change in
them, can be read off the command. So whatever an edit of that kind leaves alone the command leaves
alone. Undo, redo and rollback make again what was made before, and discarding frees elements.
-/

namespace ReportModel

open Edit

namespace Document

variable {P : Edit → Prop} {d d' : Document} {x : ElementId} {e : Element}

/-- A document arises from another one by edits of a kind and by the creation of elements. -/
inductive Arises (P : Edit → Prop) (d : Document) : Document → Prop
  | refl : Arises P d d
  | edit {d' : Document} {edit : Edit} (h : Arises P d d') (hedit : P edit) :
    Arises P d (edit.apply d')
  | create {d' : Document} (h : Arises P d d') (c : Creation) : Arises P d (d'.create c)

theorem Arises.applyAll {edits : List Edit} (h : Arises P d d') (hedits : ∀ edit ∈ edits, P edit) :
    Arises P d (applyAll edits d') := by
  induction edits generalizing d' with
  | nil => exact h
  | cons edit rest ih =>
      obtain ⟨hedit, hrest⟩ := List.forall_mem_cons.1 hedits
      exact ih (h.edit hedit) hrest

theorem root_apply (d : Document) (edit : Edit) : (edit.apply d).root = d.root := by
  cases edit with
  | value | mask | base | sheets | libraries => rfl
  | name y old new => exact (Tree.SameBare.rename d.tree y new).root
  | attach y place index => exact (Tree.SameBare.attach d.tree y place index).root
  | detach y place index => exact (Tree.SameBare.detach d.tree y).root

theorem Arises.root_eq (h : Arises P d d') : d'.root = d.root := by
  induction h with
  | refl => rfl
  | @edit d' edit _ _ ih => exact (root_apply d' edit).trans ih
  | create _ _ ih => exact ih

theorem exists_values_apply {edit : Edit} (hedit : ∀ y property old new,
    edit ≠ .value y property old new) (he : d.get? x = some e) :
    ∃ e', (edit.apply d).get? x = some e' ∧ e'.values = e.values := by
  have hmodify : ∀ (y : ElementId) {f : Element → Element}, (∀ e, (f e).values = e.values) →
      ∃ e', (d.tree.modify y f).get? x = some e' ∧ e'.values = e.values := by
    intro y f hf
    rw [Tree.get?_modify]
    split
    · next hxy =>
      subst hxy
      exact ⟨f e, congrArg (Option.map f) he, hf e⟩
    · exact ⟨e, he, rfl⟩
  have hbare : ∀ {t : Tree}, d.tree.SameBare t →
      ∃ e', t.get? x = some e' ∧ e'.values = e.values := by
    intro t ht
    obtain ⟨e', he', hsame⟩ := ht.exists_get? he
    have hvalues : e'.bare.values = e.bare.values := by rw [hsame]
    exact ⟨e', he', hvalues⟩
  cases edit with
  | value y property old new => exact absurd rfl (hedit y property old new)
  | mask y property old new => exact hmodify y fun _ => rfl
  | base y old new => exact hmodify y fun _ => rfl
  | sheets host change => exact hmodify host fun _ => rfl
  | name y old new => exact hbare (.rename d.tree y new)
  | attach y place index => exact hbare (.attach d.tree y place index)
  | detach y place index => exact hbare (.detach d.tree y)
  | libraries change => exact ⟨e, he, rfl⟩

theorem exists_get?_apply (edit : Edit) (he : d.get? x = some e) :
    ∃ e', (edit.apply d).get? x = some e' ∧ ∀ property,
      (∀ old new, edit ≠ .value x property old new) → e'.value? property = e.value? property := by
  by_cases hvalue : ∃ y other old new, edit = .value y other old new
  · obtain ⟨y, other, old, new, rfl⟩ := hvalue
    by_cases hxy : x = y
    · subst hxy
      refine ⟨_, (Tree.get?_modify ..).trans (by rw [if_pos rfl]; exact congrArg _ he), ?_⟩
      intro property hedit
      have hne : other ≠ property := fun heq => hedit old new (by rw [heq])
      simp [Element.value?, SortedMap.get?_put, hne]
    · exact ⟨e, (Tree.get?_modify ..).trans (by rwa [if_neg hxy]), fun _ _ => rfl⟩
  · have hother : ∀ y other old new, edit ≠ .value y other old new := by simpa using hvalue
    obtain ⟨e', he', hvalues⟩ := exists_values_apply hother he
    exact ⟨e', he', fun property _ => congrArg (·.get? property) hvalues⟩

theorem Arises.exists_get? (h : Arises P d d') (he : d.get? x = some e) :
    ∃ e', d'.get? x = some e' ∧ ∀ property,
      (∀ old new, ¬ P (.value x property old new)) → e'.value? property = e.value? property := by
  induction h with
  | refl => exact ⟨e, he, fun _ _ => rfl⟩
  | @edit d' edit _ hedit ih =>
      obtain ⟨e', he', hvalue⟩ := ih
      obtain ⟨e'', he'', hvalue'⟩ := exists_get?_apply edit he'
      refine ⟨e'', he'', fun property hP => (hvalue' property ?_).trans (hvalue property hP)⟩
      rintro old new rfl
      exact hP old new hedit
  | create _ c ih =>
      obtain ⟨e', he', hvalue⟩ := ih
      exact ⟨e', Tree.get?_create_of_get? he', hvalue⟩

end Document

/-- A command that leads back to what there was, makes again what was taken back, or frees
elements. -/
def Command.isReturn : Command → Bool
  | .rollback | .undo | .redo | .discard _ => true
  | _ => false

/-- The edits that a command may make in a document, unless it makes again what was made before. -/
def Command.Makes (d : Document) : Command → Edit → Prop
  | .add _ _ _, .name _ _ new => new.isSome = true
  | .add id place _, .attach x target _ => x = id ∧ target = place
  | .drop id, .detach x _ _ => x = id
  | .move id _ _, .detach x _ _ => x = id
  | .move _ _ _, .name _ _ new => new.isSome = true
  | .move id place _, .attach x target _ => x = id ∧ target = place
  | .rename id _, .name x _ _ => x = id
  | .setValue id property _, .value x other _ _ => x = id ∧ other = property
  | .clearValue id property, .value x other _ _ => x = id ∧ other = property
  | .setMask id property _, .mask x other _ _ => x = id ∧ other = property
  | .setBase id _, .base x _ _ => x = id
  | .clearBase id, .base x _ _ => x = id
  | .includeLibrary _ _, .libraries _ => True
  | .dropLibrary _, .libraries _ => True
  | .reloadLibrary _ _, .libraries _ => True
  | .addFile host _, .sheets x _ => x = host
  | .addSheet host _ _, .sheets x _ => x = host
  | .dropSheet host _, .sheets x _ => x = host
  | .renameSheet host _ _, .sheets x _ => x = host
  | .reloadSheet host _, .sheets x _ => x = host
  -- the styles that are imported are new elements
  | .importStyles _ _, .value x _ _ _ => d.get? x = none
  | .importStyles _ _, .name _ _ new => new.isSome = true
  | .importStyles _ _, .attach x target _ =>
    d.get? x = none ∧ target = ⟨d.root, Vocabulary.stylesSlot⟩
  | _, _ => False

theorem Command.eq_of_makes_value {command : Command} {d : Document} {id : ElementId}
    {property : String} {old new : Option Value} {e : Element} (he : d.get? id = some e)
    (h : command.Makes d (.value id property old new)) :
    (∃ value, command = .setValue id property value) ∨ command = .clearValue id property := by
  cases command with
  | setValue x other value =>
      obtain ⟨rfl, rfl⟩ := h
      exact Or.inl ⟨value, rfl⟩
  | clearValue x other =>
      obtain ⟨rfl, rfl⟩ := h
      exact Or.inr rfl
  | importStyles => exact absurd (he.symm.trans h) (by simp)
  | _ => exact h.elim

namespace Document

theorem Arises.added (h : Arises P d d') {id : ElementId} {place : Place} {index : Nat}
    (hname : ∀ x old new, P (.name x old (some new))) (hattach : P (.attach id place index)) :
    Arises P d (d'.added id place index) := by
  refine (h.applyAll fun edit hedit => ?_).edit hattach
  obtain ⟨rename, -, rfl⟩ := List.mem_map.1 hedit
  exact hname _ _ _

end Document

namespace Action

open Document

variable {ed : Editor}

theorem arises_importStyles (sheet : Css.StyleSheet) (names : List String) :
    (importStyles false sheet names).Leaves ed
      (Arises ((Command.importStyles sheet names).Makes ed.document) ed.document) := by
  refine leaves_importStyles_of .refl fun name style ed₁ _ hed₁ => leaves_importStyle_of ?_
  rintro new d rfl hd i - -
  have hnew : ed.document.get? ed₁.document.tree.nextId = none := by
    apply Option.eq_none_iff_forall_ne_some.2
    intro e he
    obtain ⟨e', he', -⟩ := hed₁.exists_get? he
    exact absurd (he'.symm.trans (Tree.get?_nextId ed₁.document.tree)) (by simp)
  have hcreated := hed₁.create (styleCreation name)
  have hvalues : Arises ((Command.importStyles sheet names).Makes ed.document) ed.document d := by
    rw [← hd]
    refine hcreated.applyAll fun edit hedit => ?_
    obtain ⟨entry, -, rfl⟩ := List.mem_map.1 hedit
    exact hnew
  exact hvalues.added (fun _ _ _ => rfl) ⟨hnew, by rw [hvalues.root_eq]⟩

end Action

open Document ReportModel.Action in
/-- A command that succeeds leaves a document that arises from the one before by the edits that it
may make. -/
theorem Command.arises_action (command : Command) (files : Files) {ed : Editor}
    (hnew : command.isReturn = false) : (command.action false files).Leaves ed
      (Arises (command.Makes ed.document) ed.document) := by
  cases command with
  | rollback | undo | redo | discard => cases hnew
  | start label => exact leaves_done .refl
  | commit => exact leaves_done (leaves_commit .refl)
  | clearHistory => exact leaves_done .refl
  | create typeName name => exact (leaves_create (.create .refl ⟨typeName, name⟩)).map _
  | add id place index =>
      exact leaves_done (leaves_add_of fun _ _ _ => Arises.refl.added (fun _ _ _ => rfl) ⟨rfl, rfl⟩)
  | drop id => exact leaves_done (leaves_drop fun _ _ _ _ _ _ => .edit .refl rfl)
  | move id place index =>
      refine leaves_done (leaves_move_of ?_)
      rintro e old j _ - - - rfl i - -
      have hdrop : Arises ((Command.move id place index).Makes ed.document) ed.document
          (Edit.apply ed.document (.detach id old j)) := .edit .refl rfl
      exact hdrop.added (fun _ _ _ => rfl) ⟨rfl, rfl⟩
  | rename id name => exact leaves_done (leaves_rename_of .refl fun _ _ _ => .edit .refl rfl)
  | setValue id property value =>
      exact leaves_done (leaves_setValue_of .refl fun _ _ _ _ _ _ => .edit .refl ⟨rfl, rfl⟩)
  | clearValue id property =>
      exact leaves_done (leaves_clearValue_of .refl fun _ _ _ _ => .edit .refl ⟨rfl, rfl⟩)
  | setMask id property mask =>
      exact leaves_done (leaves_setMask_of .refl fun _ _ _ => .edit .refl ⟨rfl, rfl⟩)
  | setBase id reference =>
      exact leaves_done (leaves_setBase_of fun _ _ _ _ _ => .edit .refl rfl)
  | clearBase id => exact leaves_done (leaves_clearBase_of .refl fun _ _ _ _ => .edit .refl rfl)
  | includeLibrary nameSpace library =>
      exact leaves_done (leaves_includeLibrary_of fun _ => .edit .refl trivial)
  | dropLibrary nameSpace =>
      exact leaves_done (leaves_dropLibrary_of fun _ _ _ => .edit .refl trivial)
  | reloadLibrary nameSpace library =>
      exact leaves_done (leaves_reloadLibrary_of fun _ _ _ _ => .edit .refl trivial)
  | addFile host fileName =>
      exact leaves_done (leaves_addFile_of fun _ _ => leaves_addSheet_of fun _ => .edit .refl rfl)
  | addSheet host link sheet => exact leaves_done (leaves_addSheet_of fun _ => .edit .refl rfl)
  | dropSheet host fileName =>
      exact leaves_done (leaves_dropSheet_of fun _ _ _ _ => .edit .refl rfl)
  | renameSheet host fileName newName =>
      exact leaves_done (leaves_renameSheet_of fun _ _ _ _ _ _ _ => .edit .refl rfl)
  | reloadSheet host fileName =>
      exact leaves_done (leaves_reloadSheet_of fun _ _ _ _ _ _ => .edit .refl rfl)
  | importStyles sheet names => exact (arises_importStyles sheet names).map _
  | cacheValues => exact (leaves_cacheValues .refl).map _

end ReportModel
