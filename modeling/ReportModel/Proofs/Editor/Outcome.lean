import ReportModel.Editor.Content

/-!
# Outcomes of actions

What holds after an action, be it that it succeeds or that it fails, is computed along the action,
step by step.
-/

namespace ReportModel.Action

variable {α β : Type} {ed : Editor} {post : α → Editor → Prop} {fail : Editor → Prop}

/-- An action has one property if it succeeds, and the editor another if it fails. -/
def Yields (action : Action α) (ed : Editor) (post : α → Editor → Prop)
    (fail : Editor → Prop) : Prop :=
  match action ed with
  | .ok a ed' => post a ed'
  | .error _ ed' => fail ed'

theorem Yields.of_ok {action : Action α} (h : action.Yields ed post fail) {a : α} {ed' : Editor}
    (hok : action ed = .ok a ed') : post a ed' := by
  rwa [Yields, hok] at h

theorem Yields.of_error {action : Action α} (h : action.Yields ed post fail) {error : DesignError}
    {ed' : Editor} (herror : action ed = .error error ed') : fail ed' := by
  rwa [Yields, herror] at h

theorem Yields.imp {action : Action α} {post' : α → Editor → Prop} {fail' : Editor → Prop}
    (h : action.Yields ed post fail) (hpost : ∀ a ed', post a ed' → post' a ed')
    (hfail : ∀ ed', fail ed' → fail' ed') : action.Yields ed post' fail' := by
  unfold Yields at *
  split
  · next h' =>
    rw [h'] at h
    exact hpost _ _ h
  · next h' =>
    rw [h'] at h
    exact hfail _ h

@[simp]
theorem yields_pure {a : α} : (pure a : Action α).Yields ed post fail ↔ post a ed :=
  Iff.rfl

@[simp]
theorem yields_throw {error : DesignError} :
    (throw error : Action α).Yields ed post fail ↔ fail ed :=
  Iff.rfl

@[simp]
theorem yields_bind {action : Action β} {next : β → Action α} :
    (action >>= next).Yields ed post fail ↔
      action.Yields ed (fun b ed' => (next b).Yields ed' post fail) fail := by
  simp only [Yields, bind, EStateM.bind]
  cases action ed <;> rfl

@[simp]
theorem yields_map {action : Action β} {f : β → α} :
    (f <$> action).Yields ed post fail ↔ action.Yields ed (fun b => post (f b)) fail := by
  simp only [Yields, Functor.map, EStateM.map]
  cases action ed <;> rfl

theorem exists_of_map_ok {action : Action β} {f : β → α} {ed' : Editor} {a : α}
    (h : (f <$> action) ed = .ok a ed') : ∃ b, action ed = .ok b ed' ∧ f b = a := by
  simp only [Functor.map, EStateM.map] at h
  split at h
  · next b ed₁ hb =>
    cases h
    exact ⟨b, hb, rfl⟩
  · cases h

@[simp]
theorem yields_seqRight {first : Action β} {second : Action α} :
    (first *> second).Yields ed post fail ↔
      first.Yields ed (fun _ ed' => second.Yields ed' post fail) fail := by
  simp only [Yields, SeqRight.seqRight, EStateM.seqRight]
  cases first ed <;> rfl

@[simp]
theorem yields_get {post : Editor → Editor → Prop} :
    (get : Action Editor).Yields ed post fail ↔ post ed ed :=
  Iff.rfl

@[simp]
theorem yields_set {new : Editor} {post : PUnit → Editor → Prop} :
    (set new : Action PUnit).Yields ed post fail ↔ post ⟨⟩ new :=
  Iff.rfl

@[simp]
theorem yields_modify {f : Editor → Editor} {post : PUnit → Editor → Prop} :
    (modify f : Action PUnit).Yields ed post fail ↔ post ⟨⟩ (f ed) :=
  Iff.rfl

@[simp]
theorem yields_document {post : Document → Editor → Prop} :
    document.Yields ed post fail ↔ post ed.document ed :=
  Iff.rfl

theorem yields_demand {error : DesignError} {o : Option α} :
    (demand error o).Yields ed post fail ↔
      (o = none → fail ed) ∧ ∀ a, o = some a → post a ed := by
  cases o <;> simp [demand]

theorem yields_refuse {condition : Bool} {error : DesignError} {post : Unit → Editor → Prop} :
    (refuse condition error).Yields ed post fail ↔
      (condition = true → fail ed) ∧ (condition = false → post () ed) := by
  cases condition <;> simp [refuse]

/-- Outside a round of notifications no operation is refused. -/
@[simp]
theorem yields_ensureMutable {post : Unit → Editor → Prop} :
    (ensureMutable false).Yields ed post fail ↔ post () ed :=
  Iff.rfl

theorem yields_lift {result : Except DesignError α} :
    (lift result).Yields ed post fail ↔
      (∀ error, result = .error error → fail ed) ∧ ∀ a, result = .ok a → post a ed := by
  cases result <;> simp [lift]

theorem yields_existing {id : ElementId} {post : Element → Editor → Prop} :
    (existing id).Yields ed post fail ↔
      (ed.document.get? id = none → fail ed) ∧
        ∀ e, ed.document.get? id = some e → post e ed := by
  simp only [existing, yields_bind, yields_document, yields_demand]

theorem yields_ite {condition : Prop} [Decidable condition] {first second : Action α} :
    (if condition then first else second).Yields ed post fail ↔
      (condition → first.Yields ed post fail) ∧ (¬ condition → second.Yields ed post fail) := by
  split <;> simp_all

theorem transact_apply (label : String) (body : Action α) (ed : Editor) :
    transact false label body ed =
      match body { ed with history := ed.history.start label } with
      | .ok a ed' => (commit false *> pure a : Action α) ed'
      | .error error ed' => (rollback false *> throw error : Action α) ed' :=
  rfl

theorem yields_transact_iff {label : String} {body : Action α} :
    (transact false label body).Yields ed post fail ↔
      body.Yields { ed with history := ed.history.start label }
        (fun a ed' => (commit false).Yields ed' (fun _ => post a) fail)
        fun ed' => (rollback false).Yields ed' (fun _ => fail) fail := by
  rw [Yields, Yields, transact_apply]
  cases body { ed with history := ed.history.start label } with
  | ok a ed₁ =>
      change (commit false *> pure a : Action α).Yields ed₁ post fail ↔ _
      rw [yields_seqRight]
      rfl
  | error error ed₁ =>
      change (rollback false *> throw error : Action α).Yields ed₁ post fail ↔ _
      rw [yields_seqRight]
      rfl

end ReportModel.Action
