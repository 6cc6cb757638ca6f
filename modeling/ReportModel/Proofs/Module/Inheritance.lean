import ReportModel.Proofs.Document.Depth
import ReportModel.Proofs.Module.Provenance

/-!
# Values that are inherited only

There are two ways from an element to the values of its bases. The chain is a list of bases that
stops before an element it has seen; the cascade asks each base in turn and counts how far it has
come. Where no style and no stylesheet has a say they find the same value, since in a built module
nothing is seen twice.
-/

namespace ReportModel

namespace OwnedElement

variable {r b : OwnedElement} {fuel : Nat} {seen : List OwnedElement} {property : String}

/-- No place in the module of an element but the element itself gives it a value of a property: no
shared style, no stylesheet of the root, and no style or stylesheet of the active theme. -/
def Unstyled (r : OwnedElement) (property : String) : Prop :=
  ∀ e, r.get? = some e →
    r.document.tree.styleValue? r.document.root e property = none ∧
    r.document.sheetValue? (r.document.sheets r.document.root) r.id property = none ∧
    r.document.themeValue? r.id e property = none

instance (r : OwnedElement) (property : String) : Decidable (r.Unstyled property) :=
  inferInstanceAs (Decidable (∀ e ∈ r.get?, _ ∧ _ ∧ _))

theorem Unstyled.localValue?_eq (h : r.Unstyled property) {e : Element} (he : r.get? = some e) :
    r.document.localValue? r.id e property = (e.value? property).map (·, Source.own) := by
  obtain ⟨hstyles, hsheets, htheme⟩ := h e he
  simp only [Document.localValue?, hstyles, hsheets, htheme, Option.map_none]
  cases e.value? property <;> rfl

theorem Unstyled.map_cascade_eq (h : r.Unstyled property) (depth : Nat) :
    (r.document.cascade r.id property depth).map (·.1) =
      (r.get?.bind (·.value? property)).or
        (if depth < r.document.depthLimit then r.base?.bind fun b =>
          (b.document.cascade b.id property (depth + 1)).map (·.1)
        else none) := by
  rw [Document.cascade_eq]
  cases he : r.get? with
  | none =>
      have hget : r.document.get? r.id = none := he
      have hbase : r.base? = none := by rw [base?, Document.base?, hget, Option.bind_none]
      rw [hget, hbase]
      split <;> rfl
  | some e =>
      have hget : r.document.get? r.id = some e := he
      rw [hget, Option.bind_some, Option.bind_some, h.localValue?_eq he]
      cases e.value? property with
      | some v => rfl
      | none =>
          simp only [Option.map_none, Option.none_or]
          split
          · change Option.map _ (Option.bind r.base? _) = _
            cases r.base? with
            | none => rfl
            | some b => exact Option.map_map ..
          · rfl

/-- The cascade finds the value of the first element that has one, among an element and as many of
its bases as there may still be. -/
theorem Fresh.map_cascade (h : Fresh seen r) {limit depth : Nat}
    (hlimit : r.document.Throughout (·.depthLimit = limit)) (hfuel : depth + fuel = limit)
    (hplain : ∀ s ∈ r :: basesUpTo fuel seen r, s.Unstyled property) :
    (r.document.cascade r.id property depth).map (·.1) =
      (r :: basesUpTo fuel seen r).findSome? fun s => s.get?.bind (·.value? property) := by
  induction fuel generalizing r seen depth with
  | zero =>
      have hdepth : ¬ depth < r.document.depthLimit := by
        rw [hlimit.self]
        omega
      rw [(hplain r List.mem_cons_self).map_cascade_eq, if_neg hdepth, findSome?_cons_or]
      rfl
  | succ fuel ih =>
      have hdepth : depth < r.document.depthLimit := by
        rw [hlimit.self]
        omega
      rw [(hplain r List.mem_cons_self).map_cascade_eq, if_pos hdepth, findSome?_cons_or]
      cases hbase : r.base? with
      | none =>
          rw [basesUpTo_of_base?_eq_none hbase]
          rfl
      | some b =>
          obtain ⟨hnew, hrest⟩ := (fresh_succ hbase).1 h
          have hstep : basesUpTo (fuel + 1) seen r = b :: basesUpTo fuel (b :: seen) b := by
            simp only [basesUpTo, hbase, hnew, Bool.false_eq_true, if_false]
          rw [hstep] at hplain ⊢
          rw [Option.bind_some, ih hrest (hlimit.base hbase) (by omega) fun s hs =>
            hplain s (List.mem_cons_of_mem _ hs)]

end OwnedElement

namespace Document

variable {d : Document} {id : ElementId} {property : String}

/-- In an orderly document with one limit throughout, the value that an element has by inheritance
is its effective value. -/
theorem Orderly.map_effectiveValue? (h : d.Orderly)
    (hlimit : d.Throughout (·.depthLimit = d.depthLimit))
    (hplain : ∀ r ∈ d.chain id, r.Unstyled property) :
    (d.effectiveValue? id property).map (·.1) = d.virtualValue? id property := by
  have hfresh : OwnedElement.Fresh [⟨d, id⟩] ⟨d, id⟩ :=
    OwnedElement.fresh_self.2 (OwnedElement.not_revisits h)
  have hcascade := hfresh.map_cascade hlimit (Nat.zero_add _) hplain
  change (d.cascade id property 0).map _ = (d.chain id).findSome? _ at hcascade
  rw [effectiveValue?, virtualValue?, ← hcascade]
  cases d.cascade id property 0 with
  | some found => rfl
  | none => cases d.default? id property <;> rfl

end Document

namespace Module

variable {m : Module}

/-- With one limit on chains in a module and its libraries, the effective value of a property is the
value that the element inherits, wherever neither the element nor a base of it is given one by a
style or a stylesheet. -/
theorem Built.effectiveValue_inherited (h : m.Built)
    (hlimit : m.document.Throughout (·.depthLimit = m.document.depthLimit)) (id : ElementId)
    (property : String) (hplain : ∀ r ∈ m.document.chain id, r.Unstyled property) :
    (m.document.effectiveValue? id property).map (·.1) = m.document.virtualValue? id property :=
  (h.orderly _ m.document_mem_documents).1.map_effectiveValue? hlimit hplain

def lettered : Module :=
  palette.run [.perform .empty (.setValue ⟨3, 0⟩ "text" (.string "Total"))]

/-- A design that includes the library, with a label that has the one there as its base. -/
def letter : Module :=
  Module.run
    { editor :=
      { document :=
          { serial := 1, depthLimit := 32, tree := .new Vocabulary.reports "ReportDesign"
            libraries := [] }
        history := { limit := 100 } } }
    [.perform .empty (.includeLibrary "letters" lettered.document),
      .perform .empty (.create "Label" none),
      .perform .empty (.setBase ⟨1, 0⟩ ⟨some "letters", "total"⟩)]

theorem built_letter : letter.Built := by
  have hnew : Built _ := .new (rfl : Module.new 1 "ReportDesign" {} = .ok _)
  have hlettered : lettered.Built :=
    built_palette.run (by simp [Input.library?, Command.library?])
  have hlacks : lettered.document.Lacks 1 :=
    .of_libraries (by decide) (List.forall_mem_nil _)
  have hlinked := hnew.link hlettered hlacks
    (.perform .empty (.includeLibrary "letters" lettered.document)) rfl
  exact @Built.run _ hlinked [_, _] (by simp [Input.library?, Command.library?])

/-- The label of the design has the text of the label in the library in both ways, although a theme
is active there. -/
theorem effectiveValue_inherited_letter :
    letter.document.virtualValue? ⟨1, 0⟩ "text" = some (.string "Total") ∧
    (letter.document.effectiveValue? ⟨1, 0⟩ "text").map (·.1) = some (.string "Total") := by
  have hvalue : letter.document.virtualValue? ⟨1, 0⟩ "text" = some (.string "Total") := by
    decide +kernel
  have hlibraries : ∀ library ∈ letter.document.libraries,
      library.content.depthLimit = letter.document.depthLimit ∧
        library.content.libraries.isEmpty = true := by
    decide +kernel
  have hlimit : letter.document.Throughout (·.depthLimit = letter.document.depthLimit) :=
    .of_libraries rfl (by
      intro library hlibrary
      obtain ⟨hdepth, hempty⟩ := hlibraries library hlibrary
      refine .of_libraries hdepth ?_
      rw [List.isEmpty_iff.1 hempty]
      exact List.forall_mem_nil _)
  have hplain : ∀ r ∈ letter.document.chain ⟨1, 0⟩, r.Unstyled "text" := by
    decide +kernel
  exact ⟨hvalue, (built_letter.effectiveValue_inherited hlimit ⟨1, 0⟩ "text" hplain).trans hvalue⟩

end Module

end ReportModel
