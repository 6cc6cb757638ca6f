import ReportModel.Proofs.Module.Bases
import ReportModel.Workspace

/-!
# Workspaces and their modules

A module that has been lent does not change any more, and only lent modules are included. So a
module that may still change is nowhere within another one, and the modules of a workspace are
built.
-/

namespace ReportModel.Workspace

variable {w w' : Workspace} {name other : String} {current : OpenModule} {m : Module}

/-- A workspace that has been reached from an empty one. What happens to a module happens to one
that has not been lent, and the libraries it includes have been lent. -/
inductive Reachable : Workspace → Prop
  | empty : Reachable {}
  | opened {w w' : Workspace} {name rootType : String} {config : Config} (h : Reachable w)
    (hopen : w.openModule name rootType config = .ok w') : Reachable w'
  | happened {w : Workspace} {name : String} {current : OpenModule} (h : Reachable w)
    (hfind : w.find? name = some current) (hfree : current.isLent = false) (input : Input)
    (hlibrary : ∀ library, input.library? = some library → ∃ other lent,
      w.find? other = some lent ∧ lent.isLent = true ∧ lent.module.document = library) :
    Reachable (w.store name (current.module.next input))
  | lent {w : Workspace} (h : Reachable w) (name : String) : Reachable (w.lend name)
  | files {w : Workspace} (h : Reachable w) (files : Files) : Reachable { w with files }

/-- A serial number that no other module can have within it: it has not been given out, or is that
of a module that has not been lent. -/
def Reserved (w : Workspace) (name : String) (serial : Nat) : Prop :=
  w.nextSerial ≤ serial ∨ ∃ other free, w.find? other = some free ∧ other ≠ name ∧
    free.isLent = false ∧ free.module.document.serial = serial

/-- The modules of a workspace are built, and have nothing within them that may still change. -/
structure Tidy (w : Workspace) : Prop where
  built : ∀ {name current}, w.find? name = some current → current.module.Built
  lacks : ∀ {name current serial}, w.find? name = some current → w.Reserved name serial →
    ∀ d ∈ current.module.documents, d.Lacks serial

theorem find?_openModule {rootType : String} {config : Config}
    (h : w.openModule name rootType config = .ok w') :
    ∃ m, Module.new w.nextSerial rootType config = .ok m ∧ w'.nextSerial = w.nextSerial + 1 ∧
      ∀ other, w'.find? other = if other = name then some { module := m } else w.find? other := by
  simp only [openModule] at h
  cases hnew : Module.new w.nextSerial rootType config with
  | error error => simp [hnew, bind, Except.bind] at h
  | ok m =>
      simp only [hnew, bind, Except.bind, pure, Except.pure, Except.ok.injEq] at h
      subst h
      refine ⟨m, rfl, rfl, fun other => ?_⟩
      simp only [find?, SortedMap.get?_insert, eq_comm]

theorem find?_store (hfind : w.find? name = some current) (m : Module) (other : String) :
    (w.store name m).find? other =
      if other = name then some { current with module := m } else w.find? other := by
  simp only [store, hfind]
  simp only [find?, SortedMap.get?_insert, eq_comm]

theorem find?_lend (w : Workspace) (name other : String) : (w.lend name).find? other =
    if other = name then (w.find? name).map ({ · with isLent := true }) else w.find? other := by
  cases hfind : w.find? name with
  | none =>
      simp only [lend, hfind, Option.map_none]
      split
      · next h => rw [h, hfind]
      · rfl
  | some current =>
      simp only [lend, hfind, Option.map_some]
      simp only [find?, SortedMap.get?_insert, eq_comm]

theorem store_store (hfind : w.find? name = some current) (m m' : Module) :
    (w.store name m).store name m' = w.store name m' := by
  have hstored : (w.store name m).find? name = some { current with module := m } := by
    rw [find?_store hfind, if_pos rfl]
  have hmodules : (w.modules.insert name { current with module := m }).insert name
      { current with module := m' } = w.modules.insert name { current with module := m' } := by
    apply SortedMap.eq_of_get?
    intro other
    simp only [SortedMap.get?_insert]
    split <;> rfl
  rw [store, hstored]
  simp only [store, hfind, hmodules]

theorem store_self (hfind : w.find? name = some current) : w.store name current.module = w := by
  have hmodules : w.modules.insert name current = w.modules := by
    apply SortedMap.eq_of_get?
    intro other
    rw [SortedMap.get?_insert]
    split
    · next h =>
      subst h
      exact hfind.symm
    · rfl
  simp only [store, hfind, hmodules]

theorem nextSerial_store (w : Workspace) (name : String) (m : Module) :
    (w.store name m).nextSerial = w.nextSerial := by
  simp only [store]
  split <;> rfl

theorem nextSerial_lend (w : Workspace) (name : String) :
    (w.lend name).nextSerial = w.nextSerial := by
  simp only [lend]
  split <;> rfl

theorem Tidy.serial_lt (h : w.Tidy) (hfind : w.find? name = some current) :
    current.module.document.serial < w.nextSerial := by
  by_contra hle
  have hlacks :=
    h.lacks hfind (Or.inl (Nat.le_of_not_lt hle)) _ current.module.document_mem_documents
  exact hlacks _ .refl rfl

theorem tidy_empty : Tidy {} where
  built h := nomatch h
  lacks h := nomatch h

theorem Tidy.opened (h : w.Tidy) {rootType : String} {config : Config}
    (hopen : w.openModule name rootType config = .ok w') : w'.Tidy := by
  obtain ⟨m, hnew, hserial, hfind⟩ := find?_openModule hopen
  have hm : m.document.serial = w.nextSerial :=
    (Module.documents_new hnew m.document_mem_documents).1
  constructor
  · intro x current hx
    rw [hfind] at hx
    split at hx
    · obtain rfl := Option.some.inj hx
      exact .new hnew
    · exact h.built hx
  · intro x current serial hx hreserved d hd
    rw [hfind] at hx
    split at hx
    · next hname =>
      -- nothing is within a new module, and its own number has not been given out before
      obtain rfl := Option.some.inj hx
      obtain ⟨hdserial, hlibraries, -⟩ := Module.documents_new hnew hd
      refine Document.Lacks.of_libraries ?_ (by simp [hlibraries])
      rw [hdserial]
      rcases hreserved with hle | ⟨y, free, hy, hyx, -, rfl⟩
      · omega
      · rw [hfind, if_neg (hname ▸ hyx)] at hy
        exact Nat.ne_of_gt (h.serial_lt hy)
    · next hname =>
      refine h.lacks hx ?_ d hd
      rcases hreserved with hle | ⟨y, free, hy, hyx, hfree, rfl⟩
      · exact Or.inl (by omega)
      · rw [hfind] at hy
        split at hy
        · obtain rfl := Option.some.inj hy
          exact Or.inl (Nat.le_of_eq hm.symm)
        · exact Or.inr ⟨y, free, hy, hyx, hfree, rfl⟩

theorem Tidy.happened (h : w.Tidy) (hfind : w.find? name = some current)
    (hfree : current.isLent = false) (input : Input)
    (hlibrary : ∀ library, input.library? = some library → ∃ other lent,
      w.find? other = some lent ∧ lent.isLent = true ∧ lent.module.document = library) :
    (w.store name (current.module.next input)).Tidy := by
  have hbuilt := h.built hfind
  have hm := hbuilt.reachable.sound
  have horderly := hbuilt.orderly
  have hserial : (current.module.next input).document.serial = current.module.document.serial :=
    horderly.serial_next hm input (Module.document_mem_documents _)
  -- what may still change is where it was, and so is what can be included
  have hreserved : ∀ {x serial}, (w.store name (current.module.next input)).Reserved x serial →
      w.Reserved x serial := by
    intro x serial hreserved
    rcases hreserved with hle | ⟨y, free, hy, hyx, hyfree, rfl⟩
    · exact Or.inl (nextSerial_store w name _ ▸ hle)
    · rw [find?_store hfind] at hy
      split at hy
      · next hname =>
        obtain rfl := Option.some.inj hy
        exact Or.inr ⟨name, current, hfind, hname ▸ hyx, hfree, hserial.symm⟩
      · exact Or.inr ⟨y, free, hy, hyx, hyfree, rfl⟩
  have hlent : ∀ {other lent serial}, lent.isLent = true → w.find? other = some lent →
      w.Reserved name serial → w.Reserved other serial := by
    intro other lent serial hlent hother hreserved
    rcases hreserved with hle | ⟨y, free, hy, hyx, hyfree, rfl⟩
    · exact Or.inl hle
    · refine Or.inr ⟨y, free, hy, ?_, hyfree, rfl⟩
      rintro rfl
      obtain rfl := Option.some.inj (hother.symm.trans hy)
      cases hlent.symm.trans hyfree
  constructor
  · intro x current' hx
    rw [find?_store hfind] at hx
    split at hx
    · obtain rfl := Option.some.inj hx
      cases hnew : input.library? with
      | none => exact hbuilt.next input hnew
      | some library =>
          obtain ⟨other, lent, hother, hislent, rfl⟩ := hlibrary library hnew
          refine hbuilt.link (h.built hother) ?_ input hnew
          refine h.lacks hother (Or.inr ⟨name, current, hfind, ?_, hfree, rfl⟩) _
            lent.module.document_mem_documents
          rintro rfl
          obtain rfl := Option.some.inj (hother.symm.trans hfind)
          cases hislent.symm.trans hfree
    · exact h.built hx
  · intro x current' serial hx hres d hd
    replace hres := hreserved hres
    rw [find?_store hfind] at hx
    split at hx
    · next hname =>
      obtain rfl := Option.some.inj hx
      obtain ⟨d₀, hd₀, hfollows⟩ := hm.exists_follows input hd
      rw [hname] at hres
      refine hfollows.lacks (h.lacks hfind hres d₀ hd₀) fun library hnew => ?_
      obtain ⟨other, lent, hother, hislent, rfl⟩ := hlibrary library hnew
      exact h.lacks hother (hlent hislent hother hres) _ lent.module.document_mem_documents
    · exact h.lacks hx hres d hd

theorem Tidy.lent (h : w.Tidy) (name : String) : (w.lend name).Tidy := by
  have hold : ∀ {x current}, (w.lend name).find? x = some current → ∃ before,
      w.find? x = some before ∧ before.module = current.module ∧
        (current.isLent = false → before.isLent = false) := by
    intro x current hx
    rw [find?_lend] at hx
    split at hx
    · next hname =>
      obtain ⟨before, hbefore, rfl⟩ := Option.map_eq_some_iff.1 hx
      exact ⟨before, hname ▸ hbefore, rfl, fun h => nomatch h⟩
    · exact ⟨current, hx, rfl, fun h => h⟩
  constructor
  · intro x current hx
    obtain ⟨before, hbefore, hmodule, -⟩ := hold hx
    exact hmodule ▸ h.built hbefore
  · intro x current serial hx hreserved d hd
    obtain ⟨before, hbefore, hmodule, -⟩ := hold hx
    refine h.lacks hbefore ?_ d (hmodule ▸ hd)
    rcases hreserved with hle | ⟨y, free, hy, hyx, hyfree, rfl⟩
    · exact Or.inl (nextSerial_lend w name ▸ hle)
    · obtain ⟨before', hbefore', hmodule', hfree'⟩ := hold hy
      exact Or.inr ⟨y, before', hbefore', hyx, hfree' hyfree, by rw [hmodule']⟩

theorem Reachable.tidy (h : w.Reachable) : w.Tidy := by
  induction h with
  | empty => exact tidy_empty
  | opened _ hopen ih => exact ih.opened hopen
  | happened _ hfind hfree input hlibrary ih => exact ih.happened hfind hfree input hlibrary
  | lent _ name ih => exact ih.lent name
  | files _ _ ih => exact ⟨ih.built, ih.lacks⟩

theorem Reachable.run (h : w.Reachable) (hfind : w.find? name = some current)
    (hfree : current.isLent = false) (inputs : List Input)
    (hlibraries : ∀ input ∈ inputs, ∀ library, input.library? = some library → ∃ other lent,
      w.find? other = some lent ∧ lent.isLent = true ∧ lent.module.document = library) :
    (w.store name (current.module.run inputs)).Reachable := by
  induction inputs generalizing w current with
  | nil =>
      have hself := store_self hfind
      exact hself.symm ▸ h
  | cons input inputs ih =>
      have hnext := h.happened hfind hfree input (hlibraries input List.mem_cons_self)
      have hstored := find?_store hfind (current.module.next input)
      have hself := (hstored name).trans (if_pos rfl)
      rw [Module.run, List.foldl_cons, ← store_store hfind (current.module.next input)]
      refine ih hnext hself hfree fun other hother library hlibrary => ?_
      obtain ⟨x, lent, hx, hlent, heq⟩ :=
        hlibraries other (List.mem_cons_of_mem _ hother) library hlibrary
      refine ⟨x, lent, ?_, hlent, heq⟩
      rw [hstored, if_neg, hx]
      rintro rfl
      obtain rfl := Option.some.inj (hx.symm.trans hfind)
      cases hlent.symm.trans hfree

def parts : Module :=
  Module.run
    { editor :=
      { document :=
          { serial := 0, depthLimit := 32, tree := .new Vocabulary.reports "Library"
            libraries := [] }
        history := { limit := 100 } } }
    [.perform .empty (.create "Label" (some "total")),
      .perform .empty (.add ⟨1, 0⟩ ⟨⟨0, 0⟩, "components"⟩ none)]

/-- A design that includes the library, with a label that has the one there as its base. -/
def report : Module :=
  Module.run
    { editor :=
      { document :=
          { serial := 1, depthLimit := 32, tree := .new Vocabulary.reports "ReportDesign"
            libraries := [] }
        history := { limit := 100 } } }
    [.perform .empty (.includeLibrary "parts" parts.document),
      .perform .empty (.create "Label" none),
      .perform .empty (.setBase ⟨1, 0⟩ ⟨some "parts", "total"⟩)]

def sharing : Workspace where
  modules := .ofList [("parts", ⟨parts, true⟩), ("report", ⟨report, false⟩)]
  nextSerial := 2

theorem reachable_sharing : sharing.Reachable := by
  have hempty : Reachable {} := .empty
  have hopened := hempty.opened (rfl : openModule {} "parts" "Library" {} = .ok _)
  have hlent := (hopened.run (rfl : find? _ "parts" = some _) rfl
    [.perform .empty (.create "Label" (some "total")),
      .perform .empty (.add ⟨1, 0⟩ ⟨⟨0, 0⟩, "components"⟩ none)]
    (by simp [Input.library?, Command.library?])).lent "parts"
  have hboth := hlent.opened (rfl : openModule _ "report" "ReportDesign" {} = .ok _)
  refine hboth.run (rfl : find? _ "report" = some _) rfl
    [.perform .empty (.includeLibrary "parts" parts.document),
      .perform .empty (.create "Label" none),
      .perform .empty (.setBase ⟨1, 0⟩ ⟨some "parts", "total"⟩)] ?_
  simp only [List.mem_cons, List.not_mem_nil, or_false]
  rintro input (rfl | rfl | rfl) library hlibrary
  · obtain rfl := Option.some.inj hlibrary
    exact ⟨"parts", ⟨parts, true⟩, rfl, rfl, rfl⟩
  · cases hlibrary
  · cases hlibrary

/-- No chain of bases from an element of a module, through its libraries, comes to an element
twice. -/
theorem Reachable.bases_distinct (h : w.Reachable) (hfind : w.find? name = some current)
    (x : ElementId) {i j : Nat} (hij : i ≠ j) {r s : OwnedElement}
    (hr : (⟨current.module.document, x⟩ : OwnedElement).nthBase? i = some r)
    (hs : (⟨current.module.document, x⟩ : OwnedElement).nthBase? j = some s) :
    r.isSame s = false := by
  apply Bool.eq_false_iff.2
  intro hsame
  exact hij ((h.tidy.built hfind).eq_of_isSame hr hs hsame)

theorem bases_distinct_sharing :
    (⟨report.document, ⟨1, 0⟩⟩ : OwnedElement).nthBase? 1 = some ⟨parts.document, ⟨1, 0⟩⟩ ∧
    (⟨report.document, ⟨1, 0⟩⟩ : OwnedElement).isSame ⟨parts.document, ⟨1, 0⟩⟩ = false := by
  have hfind : sharing.find? "report" = some ⟨report, false⟩ := rfl
  have hbase : (⟨report.document, ⟨1, 0⟩⟩ : OwnedElement).nthBase? 1 =
      some ⟨parts.document, ⟨1, 0⟩⟩ := rfl
  exact ⟨hbase, reachable_sharing.bases_distinct hfind ⟨1, 0⟩ (by decide : 0 ≠ 1) rfl hbase⟩

end ReportModel.Workspace
