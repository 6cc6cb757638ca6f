import ReportModel.Proofs.Module.Reachable

/-!
# Rounds of notifications

What a listener does with the module it is handed is a visit: calls in turn, each of which may
depend on what the module looks like and on the answers so far. As long as the round goes on every
command is refused, so only the list of listeners is not what it was when the round is over.
-/

namespace ReportModel

/-- What a listener does with a module. -/
inductive Visit where
  | leave
  | look (next : Module → Visit)
  | perform (files : Files) (command : Command) (next : Except DesignError Reply → Visit)
  | addListener (next : ListenerId → Visit)
  | removeListener (id : ListenerId) (next : Bool → Visit)

/-- The module after a visit, and what each command led to. -/
def Visit.play : Visit → Module → Module × List Outcome
  | leave, m => (m, [])
  | look next, m => (next m).play m
  | perform files command next, m =>
    let outcome := m.perform files command
    let (after, outcomes) := (next outcome.result).play outcome.module
    (after, outcome :: outcomes)
  | addListener next, m => (next m.listeners.nextId).play m.addListener
  | removeListener id next, m => (next (m.listeners.has id)).play (m.removeListener id)

namespace Module

/-- Tells a listener of an event and lets it visit the module. -/
def tell (visits : ListenerId → Event → Visit) (id : ListenerId) (event : Event) (m : Module) :
    StateM (List Outcome) Module :=
  modifyGet fun outcomes =>
    let (after, more) := (visits id event).play m
    (after, outcomes ++ more)

def round (m : Module) (visits : ListenerId → Event → Visit) (event : Event) :
    Module × List Outcome :=
  (m.deliver (tell visits) event).run []

/-- A command and the round that follows it if there is something to tell. -/
def call (m : Module) (visits : ListenerId → Event → Visit) (files : Files) (command : Command) :
    Except DesignError Reply × Module :=
  let outcome := m.perform files command
  match outcome.event with
  | some event => (outcome.result, (outcome.module.round visits event).1)
  | none => (outcome.result, outcome.module)

end Module

namespace Listeners

variable {l l' l'' : Listeners} {id : ListenerId}

/-- What can become of the listeners while a round goes on: the audience stays, and others come
under new handles. -/
structure Within (l l' : Listeners) : Prop where
  audience : l'.round.map (·.audience) = l.round.map (·.audience)
  next : l.next ≤ l'.next
  registered : ∀ id ∈ l'.registered, id ∈ l.registered ∨ l.next ≤ id.number

theorem Within.refl (l : Listeners) : l.Within l :=
  ⟨rfl, Nat.le_refl _, fun _ => Or.inl⟩

theorem Within.trans (h : l.Within l') (h' : l'.Within l'') : l.Within l'' where
  audience := h'.audience.trans h.audience
  next := Nat.le_trans h.next h'.next
  registered id hid := (h'.registered id hid).elim (h.registered id) fun hle =>
    Or.inr (Nat.le_trans h.next hle)

theorem Within.isSome_round (h : l.Within l') : l'.round.isSome = l.round.isSome := by
  have haudience := congrArg Option.isSome h.audience
  simpa only [Option.isSome_map] using haudience

theorem within_add (l : Listeners) : l.Within l.add where
  audience := rfl
  next := Nat.le_succ _
  registered id hid := by
    rcases List.mem_append.1 hid with hid | hid
    · exact Or.inl hid
    · obtain rfl := List.mem_singleton.1 hid
      exact Or.inr (Nat.le_refl _)

theorem within_remove (hround : l.round.isSome = true) (id : ListenerId) :
    l.Within (l.remove id) := by
  obtain ⟨round, hround⟩ := Option.isSome_iff_exists.1 hround
  simp only [remove, hround]
  split
  · refine ⟨?_, Nat.le_refl _, fun _ => Or.inl⟩
    rw [hround]
    rfl
  · exact .refl l

/-- What can have become of the listeners when a round is over: none is there who was not there
before, but for newcomers. -/
structure Outlasts (l' l : Listeners) : Prop where
  round : l'.round = none
  next : l.next ≤ l'.next
  registered : ∀ id ∈ l'.registered, id ∈ l.registered ∨ l.next ≤ id.number

theorem Within.endRound (h : l.beginRound.Within l') : l'.endRound.Outlasts l := by
  obtain ⟨round, hround, haudience⟩ := Option.map_eq_some_iff.1 h.audience
  have hend : l'.endRound = { l' with
      registered := (round.audience ++ l'.registered).filter fun id => !round.leaving.contains id
      round := none } := by
    rw [Listeners.endRound, hround]
  rw [hend]
  refine ⟨rfl, h.next, fun id hid => ?_⟩
  rcases List.mem_append.1 (List.mem_of_mem_filter hid) with hid | hid
  · rw [haudience] at hid
    exact Or.inl hid
  · exact (h.registered id hid).elim (fun hnone => absurd hnone List.not_mem_nil) Or.inr

end Listeners

namespace Module

variable {m : Module} {σ : Type}

/-- What is done to a module while a round goes on: the editor stays as it is, the listeners keep
within the round, and all commands are refused. -/
structure Harmless (m after : Module) (outcomes : List Outcome) : Prop where
  editor : after.editor = m.editor
  within : m.listeners.Within after.listeners
  refused : ∀ outcome ∈ outcomes,
    outcome.result = .error .reentrantMutation ∧ outcome.event = none

theorem Harmless.refl (m : Module) : m.Harmless m [] :=
  ⟨rfl, .refl _, List.forall_mem_nil _⟩

theorem Harmless.trans {m' m'' : Module} {outcomes more : List Outcome}
    (h : m.Harmless m' outcomes) (h' : m'.Harmless m'' more) :
    m.Harmless m'' (outcomes ++ more) where
  editor := h'.editor.trans h.editor
  within := h.within.trans h'.within
  refused := List.forall_mem_append.2 ⟨h.refused, h'.refused⟩

theorem harmless_play (visit : Visit) (h : m.isNotifying = true)
    (hsilent : m.editor.announced = none) : m.Harmless (visit.play m).1 (visit.play m).2 := by
  induction visit generalizing m with
  | leave => exact .refl m
  | look next ih => exact ih m h hsilent
  | perform files command next ih =>
      have hrefused : m.Harmless m [⟨.error .reentrantMutation, m, none⟩] :=
        ⟨rfl, .refl _, List.forall_mem_singleton.2 ⟨rfl, rfl⟩⟩
      simp only [Visit.play, perform_eq_self h hsilent files command]
      exact hrefused.trans (ih _ h hsilent)
  | addListener next ih =>
      have hadd : m.Harmless m.addListener [] :=
        ⟨rfl, m.listeners.within_add, List.forall_mem_nil _⟩
      exact hadd.trans (ih m.listeners.nextId h hsilent)
  | removeListener id next ih =>
      have hwithin := Listeners.within_remove h id
      have hremove : m.Harmless (m.removeListener id) [] := ⟨rfl, hwithin, List.forall_mem_nil _⟩
      exact hremove.trans (ih (m.listeners.has id) (hwithin.isSome_round.trans h) hsilent)

theorem run_append (m : Module) (inputs more : List Input) :
    m.run (inputs ++ more) = (m.run inputs).run more :=
  List.foldl_append

theorem exists_run_play (visit : Visit) (m : Module) :
    ∃ inputs, (visit.play m).1 = m.run inputs := by
  induction visit generalizing m with
  | leave => exact ⟨[], rfl⟩
  | look next ih => exact ih m m
  | perform files command next ih =>
      obtain ⟨inputs, heq⟩ := ih (m.perform files command).result (m.perform files command).module
      exact ⟨.perform files command :: inputs, heq⟩
  | addListener next ih =>
      obtain ⟨inputs, heq⟩ := ih m.listeners.nextId m.addListener
      exact ⟨.addListener :: inputs, heq⟩
  | removeListener id next ih =>
      obtain ⟨inputs, heq⟩ := ih (m.listeners.has id) (m.removeListener id)
      exact ⟨.removeListener id :: inputs, heq⟩

/-- What holds when a round begins, for all of the audience to come, and is kept as each listener is
told, holds when the round is over. -/
theorem deliver_induction {tell : ListenerId → Event → Module → StateM σ Module} {event : Event}
    {P : List ListenerId → Module → σ → Prop} {s : σ}
    (hbegin : P m.listeners.registered { m with listeners := m.listeners.beginRound } s)
    (htell : ∀ id rest m s, P (id :: rest) m s →
      P rest (tell id event m s).1 (tell id event m s).2) :
    ∃ told s', (m.deliver tell event).run s =
      ({ told with listeners := told.listeners.endRound }, s') ∧ P [] told s' := by
  have hfold : ∀ (audience : List ListenerId) (m : Module) (s : σ), P audience m s →
      ∃ told s', (audience.foldlM (fun m id => tell id event m) m).run s = (told, s') ∧
        P [] told s' := by
    intro audience
    induction audience with
    | nil => exact fun m s h => ⟨m, s, rfl, h⟩
    | cons id rest ih => exact fun m s h => ih _ _ (htell id rest m s h)
  obtain ⟨told, s', heq, htold⟩ := hfold _ _ _ hbegin
  refine ⟨told, s', ?_, htold⟩
  have hbind : (m.deliver tell event).run s =
      let (told, s') := (m.listeners.registered.foldlM (fun m id => tell id event m)
        { m with listeners := m.listeners.beginRound }).run s
      ({ told with listeners := told.listeners.endRound }, s') := rfl
  rw [hbind, heq]

/-- A round leaves the editor alone, and every command of the listeners is refused. -/
theorem round_keeps (hsilent : m.editor.announced = none) (visits : ListenerId → Event → Visit)
    (event : Event) :
    (m.round visits event).1.editor = m.editor ∧ (m.round visits event).1.isNotifying = false ∧
      ∀ outcome ∈ (m.round visits event).2,
        outcome.result = .error .reentrantMutation ∧ outcome.event = none := by
  let begun : Module := { m with listeners := m.listeners.beginRound }
  obtain ⟨told, outcomes, heq, h⟩ : ∃ told outcomes, m.round visits event =
      ({ told with listeners := told.listeners.endRound }, outcomes) ∧
        begun.Harmless told outcomes := by
    refine deliver_induction (P := fun _ => begun.Harmless) (.refl begun) ?_
    intro id rest told outcomes h
    exact h.trans (harmless_play (visits id event) h.within.isSome_round
      ((congrArg (·.announced) h.editor).trans hsilent))
  rw [heq]
  exact ⟨h.editor, congrArg Option.isSome h.within.endRound.round, h.refused⟩

theorem listeners_perform (m : Module) (files : Files) (command : Command) :
    (m.perform files command).module.listeners = m.listeners := by
  rw [perform]
  split <;> rfl

theorem call_of_silent (visits : ListenerId → Event → Visit) {files : Files} {command : Command}
    (h : (m.perform files command).event = none) : m.call visits files command =
      ((m.perform files command).result, (m.perform files command).module) := by
  rw [call, h]

theorem call_of_announced (visits : ListenerId → Event → Visit) {files : Files} {command : Command}
    {event : Event} (h : (m.perform files command).event = some event) :
    m.call visits files command = ((m.perform files command).result,
      ((m.perform files command).module.round visits event).1) := by
  rw [call, h]

/-- A call has the answer of its command and leaves the editor as that does, whatever the listeners
do. -/
theorem call_eq (m : Module) (visits : ListenerId → Event → Visit) (files : Files)
    (command : Command) : (m.call visits files command).1 = (m.perform files command).result ∧
      (m.call visits files command).2.editor = (m.perform files command).module.editor ∧
      (m.call visits files command).2.isNotifying = m.isNotifying := by
  cases hevent : (m.perform files command).event with
  | none =>
      rw [call_of_silent visits hevent, isNotifying, listeners_perform]
      exact ⟨rfl, rfl, rfl⟩
  | some event =>
      have hquiet : m.isNotifying = false := by
        apply Bool.eq_false_iff.2
        intro hnotifying
        rw [perform_of_notifying hnotifying] at hevent
        cases hevent
      obtain ⟨heditor, hover, -⟩ := round_keeps (m.silent_perform files command) visits event
      rw [call_of_announced visits hevent, hquiet]
      exact ⟨rfl, heditor, hover⟩

/-- Listeners cannot change the module: when a commit, an undo or a redo is announced, whatever each
of them does with the module it is handed, all commands among it are refused with the same error and
announce nothing, and the editor is after the round what it was before. -/
theorem round_harmless {m : Module} {files : Files} {command : Command} {event : Event}
    (hevent : (m.perform files command).event = some event)
    (visits : ListenerId → Event → Visit) {before after : Module} {outcomes : List Outcome}
    (hbefore : (m.perform files command).module = before)
    (hround : before.round visits event = (after, outcomes)) :
    m.call visits files command = ((m.perform files command).result, after) ∧
      after.editor = before.editor ∧ after.isNotifying = false ∧
      ∀ outcome ∈ outcomes, outcome.result = .error .reentrantMutation ∧ outcome.event = none := by
  have hsilent : before.editor.announced = none := hbefore ▸ m.silent_perform files command
  have hkeeps := round_keeps hsilent visits event
  rw [hround] at hkeeps
  refine ⟨?_, hkeeps⟩
  rw [call_of_announced visits hevent, hbefore, hround]

/-- A listener that wants to redo what has just been undone, registers another one and creates an
element. -/
def meddling : Visit :=
  .perform .empty .redo fun _ => .addListener fun _ =>
    .perform .empty (.create "Label" none) fun _ => .leave

theorem round_harmless_labelled : ∃ event,
    (labelled.addListener.perform .empty .undo).event = some event ∧
    ((labelled.addListener.perform .empty .undo).module.round (fun _ _ => meddling) event).2.map
      (·.result) = [.error .reentrantMutation, .error .reentrantMutation] ∧
    (labelled.addListener.call (fun _ _ => meddling) .empty .undo).2.history.canRedo = true := by
  refine ⟨_, rfl, rfl, ?_⟩
  obtain ⟨hcall, heditor, -, -⟩ := round_harmless
    (rfl : (labelled.addListener.perform .empty .undo).event = some _)
    (fun _ _ => meddling) rfl rfl
  rw [hcall]
  exact congrArg (·.history.canRedo) heditor

end Module

end ReportModel
