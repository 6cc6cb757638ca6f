import ReportModel.Proofs.Editor.Transaction
import ReportModel.Proofs.Tree.NamePlan

/-!
# Operations on the tree

Adding, dropping, moving and renaming elements are atomic: each makes a revision of reversible edits
in which every index and every old name is right, or fails and changes nothing.
-/

namespace ReportModel

open Edit Editor

section checkAdd

variable {ε α : Type}

private theorem ite_throw_eq_ok {condition : Prop} [Decidable condition] {error : ε}
    {next : PUnit → Except ε α} {rest : Except ε α} {a : α} :
    (if condition then (throw error : Except ε PUnit) >>= next else rest) = .ok a ↔
      ¬ condition ∧ rest = .ok a := by
  by_cases h : condition
  · simp [h, throw, throwThe, MonadExceptOf.throw, bind, Except.bind]
  · simp [h]

variable {d : Document} {id : ElementId} {place : Place} {index : Option Nat} {i : Nat}

theorem Document.exists_of_checkAdd (h : d.checkAdd id place index = .ok i) :
    ∃ added host definition, d.tree.get? id = some added ∧ added.place = none ∧
      d.tree.get? place.container = some host ∧
      d.tree.dictionary.slot? host.typeName place.slot = some definition ∧
      definition.allowed.any (d.tree.dictionary.isKindOf added.typeName) = true ∧
      (definition.multiple = false → d.tree.contents place.container place.slot = []) ∧
      id ≠ d.tree.root ∧ ¬ d.tree.isWithin place.container id = true ∧
      d.tree.isAttached place.container = true ∧
      i ≤ (d.tree.contents place.container place.slot).length ∧
      index.getD (d.tree.contents place.container place.slot).length = i := by
  simp only [checkAdd] at h
  cases hadded : d.tree.get? id with
  | none => simp [hadded, throw, throwThe, MonadExceptOf.throw] at h
  | some added =>
      cases hhost : d.tree.get? place.container with
      | none => simp [hadded, hhost, throw, throwThe, MonadExceptOf.throw] at h
      | some host =>
          cases hdef : d.tree.dictionary.slot? host.typeName place.slot with
          | none => simp [hadded, hhost, hdef, throw, throwThe, MonadExceptOf.throw] at h
          | some definition =>
              simp only [hadded, hhost, hdef, ite_throw_eq_ok] at h
              obtain ⟨hallowed, hroom, hfree, hcycle, hattached, hindex, hi⟩ := h
              simp only [Bool.or_eq_true, decide_eq_true_eq, not_or, Bool.not_eq_true,
                Option.isSome_eq_false_iff, Option.isNone_iff_eq_none] at hfree
              have hi' : index.getD (d.tree.contents place.container place.slot).length = i := by
                simpa [pure, Except.pure] using hi
              refine ⟨added, host, definition, rfl, hfree.1, rfl, hdef, by simpa using hallowed,
                fun hmultiple => ?_, hfree.2, hcycle, by simpa using hattached, by omega, hi'⟩
              simpa [hmultiple] using hroom

theorem Document.canLink_of_checkAdd (h : d.checkAdd id place index = .ok i) :
    d.tree.CanLink id place i ∧ d.tree.isAttached place.container = true := by
  obtain ⟨added, host, definition, hadded, hplace, hhost, hdef, hallowed, hroom, hroot, hcycle,
    hattached, hle, -⟩ := exists_of_checkAdd h
  exact ⟨⟨⟨added, host, definition, hadded, hplace, hhost, hdef, hallowed, hroom⟩, hroot, hcycle,
    hle⟩, hattached⟩

theorem Document.eq_getD_of_checkAdd (h : d.checkAdd id place index = .ok i) :
    i = index.getD (d.tree.contents place.container place.slot).length := by
  obtain ⟨-, -, -, -, -, -, -, -, -, -, -, -, -, hi⟩ := exists_of_checkAdd h
  exact hi.symm

end checkAdd

namespace Tree

variable {t t' : Tree} {id x : ElementId} {place : Place} {index : Nat}

theorem sameLinks_withNames (t : Tree) (names : SortedMap NameKey ElementId) :
    SameLinks t (t.withNames names) :=
  ⟨rfl, rfl, fun _ => rfl⟩

theorem SameLinks.trans {t'' : Tree} (h : SameLinks t t') (h' : SameLinks t' t'') :
    SameLinks t t'' where
  root := h'.root.trans h.root
  dictionary := h'.dictionary.trans h.dictionary
  links x := (h'.links x).trans (h.links x)

theorem canUnlink_of_idxOf? {e : Element} (he : t.get? id = some e) (hplace : e.place = some place)
    (hindex : (t.contents place.container place.slot).idxOf? id = some index) :
    t.CanUnlink id place index where
  placed := ⟨e, he, hplace⟩
  getElem?_contents := by
    obtain ⟨hlt, hget, -⟩ := List.idxOf?_eq_some_iff.1 hindex
    rw [List.getElem?_eq_getElem hlt]
    exact congrArg some (by simpa using hget)

end Tree

namespace Edit

variable {d : Document} {id : ElementId} {place : Place} {index : Nat}

theorem reversible_renames {plan : List Rename} (hwf : d.tree.WellFormed)
    (hnd : (plan.map (·.element)).Nodup)
    (hold : ∀ r ∈ plan, ∃ e, d.tree.get? r.element = some e ∧ e.name = r.old)
    (hdetached : ∀ r ∈ plan, ¬ d.tree.isAttached r.element = true) :
    ∃ d', Reversible (plan.map Rename.edit) d d' ∧ Tree.SameLinks d.tree d'.tree ∧
      ∀ x e, d.tree.get? x = some e → ∃ e', d'.tree.get? x = some e' ∧
        e'.name = Tree.plannedName plan x e := by
  induction plan generalizing d with
  | nil => exact ⟨d, Reversible.nil d, ⟨rfl, rfl, fun _ => rfl⟩, fun x e he => ⟨e, he, rfl⟩⟩
  | cons r plan ih =>
      obtain ⟨e₀, he₀, hname₀⟩ := hold r List.mem_cons_self
      have hr := hdetached r List.mem_cons_self
      rw [List.map_cons, List.nodup_cons] at hnd
      have hnames : KeepsNames d r.edit := by
        apply hwf.named_renamed he₀ (fun h => by simp at h)
        intro n p hat
        exact absurd hat hr
      have hrecords : Records d r.edit := by
        intro e he
        obtain rfl := Option.some.inj (he₀.symm.trans he)
        exact hname₀
      have hfits : Fits d r.edit := Tree.contains_of_get? he₀
      have hfirst := reversible_single hwf hfits hnames hrecords
      obtain ⟨names, heq⟩ := (leads_apply hwf hfits hnames).draft
      have hlinks : Tree.SameLinks d.tree (r.edit.apply d).tree := by
        rw [heq]
        exact (Tree.sameLinks_renamed d.tree r.element (some r.new)).trans
          (Tree.sameLinks_withNames _ names)
      have hget : ∀ x, (r.edit.apply d).tree.get? x =
          (d.tree.renamed r.element (some r.new)).get? x := by
        intro x
        rw [heq]
        rfl
      have hrest : ∀ s ∈ plan, s.element ≠ r.element := by
        intro s hs hsr
        exact hnd.1 (List.mem_map.2 ⟨s, hs, hsr⟩)
      -- the other renames find their elements as they were, since no element is renamed twice
      obtain ⟨d', hrev, hlinks', hnames'⟩ := ih (hfirst.wellFormed hwf) hnd.2
        (fun s hs => by
          obtain ⟨e, he, hname⟩ := hold s (List.mem_cons_of_mem _ hs)
          refine ⟨e, ?_, hname⟩
          rw [hget, Tree.get?_renamed, if_neg (hrest s hs), he])
        (fun s hs => by
          rw [hlinks.isAttached_eq hwf.forest]
          exact hdetached s (List.mem_cons_of_mem _ hs))
      refine ⟨d', hfirst.append hrev, hlinks.trans hlinks', fun x e he => ?_⟩
      by_cases hx : x = r.element
      · subst hx
        have he' : (r.edit.apply d).tree.get? r.element = some { e with name := some r.new } := by
          rw [hget, Tree.get?_renamed, if_pos rfl, he, Option.map_some]
        obtain ⟨e', hget', hname'⟩ := hnames' r.element _ he'
        refine ⟨e', hget', hname'.trans ?_⟩
        rw [Tree.plannedName_of_notMem hnd.1]
        simp [Tree.plannedName]
      · have he' : (r.edit.apply d).tree.get? x = some e := by
          rw [hget, Tree.get?_renamed, if_neg hx, he]
        obtain ⟨e', hget', hname'⟩ := hnames' x e he'
        exact ⟨e', hget', hname'.trans (Tree.plannedName_cons_ne (Ne.symm hx) e).symm⟩

theorem reversible_planNames (hwf : d.tree.WellFormed) (hc : d.tree.CanLink id place index) :
    ∃ d', Reversible ((d.tree.planNames id place).map Rename.edit) d d' ∧
      Tree.SameLinks d.tree d'.tree ∧ ∀ x e, d.tree.get? x = some e →
        ∃ e', d'.tree.get? x = some e' ∧
          e'.name = Tree.plannedName (d.tree.planNames id place) x e := by
  have hf := hwf.forest
  have hplan := Tree.plans_planNames hf id place
  refine reversible_renames hwf ((hf.nodup_walk id).sublist hplan.sublist) hplan.old fun r hr => ?_
  refine hc.not_isAttached_of_mem_walk hf (hplan.sublist.subset ?_)
  exact List.mem_map.2 ⟨r, hr, rfl⟩

theorem reversible_add (hwf : d.tree.WellFormed) (hc : d.tree.CanLink id place index)
    (hat : d.tree.isAttached place.container = true) : ∃ d', Reversible
      ((d.tree.planNames id place).map Rename.edit ++ [.attach id place index]) d d' := by
  have hf := hwf.forest
  obtain ⟨d', hrev, hlinks, hnames⟩ := reversible_planNames hwf hc
  have hnamed := (Tree.plans_planNames hf id place).named_link hlinks
    (fun {x e} => hnames x e) hwf hc hat
  exact ⟨_, hrev.append (reversible_single (hrev.wellFormed hwf) (hc.sameLinks hf hlinks) hnamed
    trivial)⟩

end Edit

namespace Action

variable {ed : Editor}

theorem unchanged (ed : Editor) (wanted : List Creation) :
    ∃ cs, cs <+: wanted ∧ ed = ed.grown cs :=
  ⟨[], List.nil_prefix, rfl⟩

theorem yields_checkBases {post : Unit → Editor → Prop} {fail : Editor → Prop}
    (hpost : post () ed) (hfail : fail ed) : checkBases.Yields ed post fail := by
  simp only [checkBases, yields_bind, yields_document]
  split
  · exact hfail
  · exact hpost

theorem atomic_transact_edits (label : String) {edits : List Edit} {d : Document}
    (h : Reversible edits ed.document d) {body : Action Unit}
    (hbody : ∀ ed₁ : Editor, ed₁.document = ed.document → ed₁.history.current ≠ [] →
      body.Yields ed₁ (fun _ ed' => ed' = ed₁.executed edits) (· = ed₁.executed edits)) :
    (transact false label body).Atomic [] ed fun _ => True := by
  apply atomic_transact label
  have hin : (ed.history.start label).current ≠ [] := by simp [History.start]
  have hdone : Absorbs [] ⟨"", edits⟩ { ed with history := ed.history.start label }
      (Editor.executed { ed with history := ed.history.start label } edits) :=
    absorbs_executed hin h
  refine (hbody { ed with history := ed.history.start label } rfl hin).imp ?_ ?_
  · intro _ ed' heq
    exact ⟨trivial, _, heq ▸ hdone⟩
  · intro ed' heq
    exact ⟨[], List.nil_prefix, _, heq ▸ hdone⟩

theorem atomic_transact_execute (label : String) {edit : Edit} {d : Document}
    (h : Reversible [edit] ed.document d) :
    (transact false label (execute edit)).Atomic [] ed fun _ => True := by
  apply atomic_transact_edits label h
  intro ed₁ _ hin
  rw [yields_execute hin]

theorem atomic_add (hwf : ed.document.tree.WellFormed) (id : ElementId) (place : Place)
    (index : Option Nat) : (add false id place index).Atomic [] ed fun _ => True := by
  simp only [Atomic, add, yields_bind, yields_ensureMutable, yields_document, yields_lift]
  refine ⟨fun _ _ => unchanged ed [], fun i hi => ?_⟩
  obtain ⟨hc, hat⟩ := Document.canLink_of_checkAdd hi
  obtain ⟨d, hd⟩ := reversible_add hwf hc hat
  apply atomic_transact_edits "add element" hd
  intro ed₁ hdocument hin
  have hin' : (ed₁.executed ((ed.document.tree.planNames id place).map Rename.edit)).history.current
      ≠ [] := current_absorb_ne_nil hin _
  simp only [yields_bind, yields_document, hdocument, yields_executeAll hin, yields_execute hin',
    executed_executed hin]
  exact yields_checkBases rfl rfl

theorem atomic_drop (hwf : ed.document.tree.WellFormed) (id : ElementId) :
    (drop false id).Atomic [] ed fun _ => True := by
  simp only [Atomic, drop, yields_bind, yields_ensureMutable, yields_document, yields_demand,
    yields_existing]
  refine ⟨fun _ => unchanged ed [], fun e he => ⟨fun _ => unchanged ed [], fun place hplace =>
    ⟨fun _ => unchanged ed [], fun index hindex => ?_⟩⟩⟩
  have hc := Tree.canUnlink_of_idxOf? he hplace hindex
  have hrev : Reversible [.detach id place index] ed.document _ :=
    reversible_single hwf hc trivial trivial
  exact atomic_transact_execute "drop element" hrev

theorem atomic_move (hwf : ed.document.tree.WellFormed) (id : ElementId) (place : Place)
    (index : Option Nat) : (move false id place index).Atomic [] ed fun _ => True := by
  apply atomic_transact "move element"
  have hin : (ed.history.start "move element").current ≠ [] := by simp [History.start]
  have hdrop : (drop false id).Atomic [] { ed with history := ed.history.start "move element" }
      fun _ => True := by
    refine atomic_drop ?_ id
    exact hwf
  apply (hdrop.progresses hin).bind hin
  intro _ ed' r _ hr
  exact (atomic_add (hr.wellFormed hwf) id place index).progresses (hr.inside hin)

theorem yields_create {typeName : String} {name : Option String}
    {post : ElementId → Editor → Prop} {fail : Editor → Prop} :
    (create false typeName name).Yields ed post fail ↔
      (ed.document.tree.dictionary.isConcrete typeName = false → fail ed) ∧
        (ed.document.tree.dictionary.isConcrete typeName = true →
          post ed.document.tree.nextId (ed.grown [⟨typeName, name⟩])) := by
  simp only [create, yields_bind, yields_ensureMutable, yields_get, yields_refuse, yields_set,
    yields_pure, Bool.not_eq_true', Bool.not_eq_false']
  rfl

theorem yields_discard (id : ElementId) :
    (discard false id).Yields ed
      (fun _ ed' => ed.history.current = [] ∧ ed.document.tree.CanErase id ∧
        ed' = { ed with
          document := ed.document.eraseAll id
          history := ed.history.forget (ed.document.tree.walk id) })
      (· = ed) := by
  simp only [discard, refuseInside, yields_bind, yields_ensureMutable, yields_get, yields_refuse,
    yields_existing, yields_set]
  refine ⟨fun _ => trivial, fun hdepth => ⟨fun _ => trivial, fun hroot => ⟨fun _ => trivial,
    fun e he => ⟨fun _ => trivial, fun hplace => ⟨?_, ⟨⟨e, he, ?_⟩, ?_⟩, rfl⟩⟩⟩⟩⟩
  · have hlength : ¬ 0 < ed.history.current.length := of_decide_eq_false hdepth
    exact List.length_eq_zero_iff.1 (by omega)
  · simpa using hplace
  · exact of_decide_eq_false hroot

theorem settles_rename (hwf : ed.document.tree.WellFormed) (id : ElementId)
    (name : Option String) : (rename false id name).Settles ed := by
  simp only [Settles, rename, yields_bind, yields_ensureMutable, yields_document, yields_refuse,
    yields_existing]
  refine ⟨fun _ => trivial, fun e he => ⟨fun _ => trivial, fun hrequired => ?_⟩⟩
  have hrename : (∀ n p, ed.document.tree.isAttached id = true → name = some n →
      e.place = some p → ed.document.tree.nameConflicts id p n = false) →
      (if e.name ≠ name then transact false "rename element" (do
        execute (.name id e.name name)
        checkBases) else pure ()).Settles ed := by
    intro hfree
    refine yields_ite.2 ⟨fun _ => ?_, fun _ => Or.inl rfl⟩
    have hnames : KeepsNames ed.document (.name id e.name name) := by
      refine hwf.named_renamed he (fun hnone => ?_) hfree
      simpa [hnone] using hrequired
    have hrecords : Records ed.document (.name id e.name name) := by
      intro e' he'
      obtain rfl := Option.some.inj (he.symm.trans he')
      rfl
    have hrev : Reversible [.name id e.name name] ed.document _ :=
      reversible_single hwf (Tree.contains_of_get? he) hnames hrecords
    have hatomic : (transact false "rename element" (do
        execute (.name id e.name name)
        checkBases)).Atomic [] ed fun _ => True := by
      apply atomic_transact_edits "rename element" hrev
      intro ed₁ _ hin
      simp only [yields_bind, yields_execute hin]
      exact yields_checkBases rfl rfl
    exact hatomic.settles
  cases name with
  | none => exact hrename fun n p _ hn => by simp at hn
  | some n =>
      cases hplace : e.place with
      | none =>
          rw [hplace] at hrename
          exact hrename fun n p _ _ hp => by simp at hp
      | some p =>
          simp only [yields_bind, yields_refuse]
          refine ⟨fun _ => trivial, fun hfree => hrename ?_⟩
          intro n' p' hat hn hp
          obtain rfl := Option.some.inj hn
          obtain rfl := Option.some.inj (hplace.symm.trans hp)
          simpa [hat] using hfree

end Action

end ReportModel
