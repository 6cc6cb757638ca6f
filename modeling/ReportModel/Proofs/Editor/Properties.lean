import ReportModel.Editor.Bases
import ReportModel.Editor.Properties
import ReportModel.Proofs.Editor.Content

/-!
# Operations on properties, bases and libraries

What these operations record about the state before is what they have read there.
-/

namespace ReportModel.Action

open Edit

variable {ed : Editor} {id : ElementId} {e : Element} {edit : Edit}

theorem settles_transact_execute (label : String) (hwf : ed.document.tree.WellFormed)
    (hfits : edit.Fits ed.document) (hnames : edit.KeepsNames ed.document)
    (hold : edit.Records ed.document) : (transact false label (execute edit)).Settles ed :=
  (atomic_transact_execute label (reversible_single hwf hfits hnames hold)).settles

theorem records_of_get? {β : Type} {f : Element → β} {old : β}
    (he : ed.document.get? id = some e) (hold : f e = old) :
    ∀ e', ed.document.tree.get? id = some e' → f e' = old := by
  intro e' he'
  obtain rfl := Option.some.inj (he.symm.trans he')
  exact hold

theorem settles_setValue (hwf : ed.document.tree.WellFormed) (id : ElementId)
    (property : String) (value : Value) : (setValue false id property value).Settles ed := by
  simp only [Settles, setValue, yields_bind, yields_ensureMutable, yields_document, yields_lift,
    yields_existing]
  refine ⟨fun _ _ => trivial, fun definition _ => ⟨fun _ => trivial, fun e he =>
    ⟨fun _ _ => trivial, fun new _ => ?_⟩⟩⟩
  refine yields_ite.2 ⟨fun _ => ?_, fun _ => Or.inl rfl⟩
  refine settles_transact_execute "set property" hwf ?_ trivial ?_
  · exact Tree.contains_of_get? he
  · exact records_of_get? he rfl

theorem settles_clearValue (hwf : ed.document.tree.WellFormed) (id : ElementId)
    (property : String) : (clearValue false id property).Settles ed := by
  simp only [Settles, clearValue, yields_bind, yields_ensureMutable, yields_document, yields_lift,
    yields_existing]
  refine ⟨fun _ _ => trivial, fun definition _ => ⟨fun _ => trivial, fun e he => ?_⟩⟩
  cases hold : e.value? property with
  | none => exact Or.inl rfl
  | some old =>
      refine settles_transact_execute "clear property" hwf ?_ trivial ?_
      · exact Tree.contains_of_get? he
      · exact records_of_get? he hold

theorem settles_setMask (hwf : ed.document.tree.WellFormed) (id : ElementId)
    (property : String) (mask : Option Mask) : (setMask false id property mask).Settles ed := by
  simp only [Settles, setMask, yields_bind, yields_ensureMutable, yields_document, yields_refuse,
    yields_existing]
  refine ⟨fun _ => trivial, fun e he => ⟨fun _ => trivial, fun _ => ?_⟩⟩
  refine yields_ite.2 ⟨fun _ => ?_, fun _ => Or.inl rfl⟩
  refine settles_transact_execute "set property mask" hwf ?_ trivial ?_
  · exact Tree.contains_of_get? he
  · exact records_of_get? he rfl

theorem settles_setBase (hwf : ed.document.tree.WellFormed) (id : ElementId)
    (reference : Reference) : (setBase false id reference).Settles ed := by
  simp only [Settles, setBase, yields_bind, yields_ensureMutable, yields_document, yields_demand,
    yields_refuse, yields_existing]
  refine ⟨fun _ => trivial, fun e he => ⟨fun _ => trivial, fun base _ =>
    ⟨fun _ => trivial, fun _ => ⟨fun _ => trivial, fun _ => ?_⟩⟩⟩⟩
  refine settles_transact_execute "set extends" hwf ?_ trivial ?_
  · exact Tree.contains_of_get? he
  · exact records_of_get? he rfl

theorem settles_clearBase (hwf : ed.document.tree.WellFormed) (id : ElementId) :
    (clearBase false id).Settles ed := by
  simp only [Settles, clearBase, yields_bind, yields_ensureMutable, yields_existing]
  refine ⟨fun _ => trivial, fun e he => ?_⟩
  cases hold : e.base with
  | none => exact Or.inl rfl
  | some old =>
      refine settles_transact_execute "clear extends" hwf ?_ trivial ?_
      · exact Tree.contains_of_get? he
      · exact records_of_get? he hold

theorem settles_includeLibrary (hwf : ed.document.tree.WellFormed) (nameSpace : String)
    (library : Document) : (includeLibrary false nameSpace library).Settles ed := by
  simp only [Settles, includeLibrary, yields_bind, yields_ensureMutable, yields_document,
    yields_refuse]
  refine ⟨fun _ => trivial, fun _ => ⟨fun _ => trivial, fun _ => ?_⟩⟩
  exact settles_transact_execute "include library" hwf trivial trivial (Nat.le_refl _)

theorem yields_included {nameSpace : String} {post : Nat × Library → Editor → Prop}
    {fail : Editor → Prop} (hfail : fail ed)
    (hpost : ∀ index library, ed.document.libraryIndex? nameSpace = some index →
      ed.document.libraries[index]? = some library → post (index, library) ed) :
    (included nameSpace).Yields ed post fail := by
  simp only [included, yields_bind, yields_document, yields_demand, yields_pure]
  exact ⟨fun _ => hfail, fun index hindex => ⟨fun _ => hfail, fun library hget =>
    hpost index library hindex hget⟩⟩

theorem settles_dropLibrary (hwf : ed.document.tree.WellFormed) (nameSpace : String) :
    (dropLibrary false nameSpace).Settles ed := by
  simp only [Settles, dropLibrary, yields_bind, yields_ensureMutable]
  refine yields_included rfl fun index library _ hget => ?_
  exact settles_transact_execute "drop library" hwf trivial trivial hget

theorem settles_reloadLibrary (hwf : ed.document.tree.WellFormed) (nameSpace : String)
    (library : Document) : (reloadLibrary false nameSpace library).Settles ed := by
  simp only [Settles, reloadLibrary, yields_bind, yields_ensureMutable, yields_refuse]
  refine ⟨fun _ => trivial, fun _ => yields_included rfl fun index old _ hget => ?_⟩
  exact settles_transact_execute "reload library" hwf trivial trivial hget

end ReportModel.Action
