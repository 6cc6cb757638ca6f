import ReportModel.Proofs.Editor.Mirror
import ReportModel.Proofs.Module.Rounds
import ReportModel.Proofs.Module.Transaction

/-!
# Observers that mirror a module

A listener that starts with a copy of the elements and makes the changes it is told of has the
elements as they are, whenever no transaction is open: all that an outermost commit, an undo or a
redo has changed is reported, and what is rolled back has never been.
-/

namespace ReportModel

open Edit Editor

namespace Editor

variable {ed ed' : Editor} {cs : List Creation} {mirror after : Mirror}

/-- After a step a mirror is behind by the open transactions only, once it has heard what there is
to tell. -/
theorem Step.behind (h : Step ed cs ed') (hs : ed.history.Sound ed.document)
    (hsilent : ed.announced = none) (hb : mirror.Behind ed.history.current ed.document)
    (hafter : (mirror.createAll ed.document cs).keep ed'.document = after) :
    (ed'.announced.elim after after.hear).Behind ed'.history.current ed'.document := by
  have hgrown := hb.createAll cs
  cases h with
  | grown =>
      obtain rfl := hafter.symm.trans (hgrown.keep_eq fun _ => rfl)
      simp only [Editor.grown, hsilent]
      exact hgrown
  | @absorbed _ r _ hr =>
      obtain rfl := hafter.symm.trans (hgrown.keep_eq hr.document.forth.contains_eq)
      have hclosed := hgrown.absorb hr.document
      rw [hr.announced, hr.history]
      split
      · next hcur => rwa [if_pos hcur] at hclosed
      · next hcur =>
        rw [if_neg hcur] at hclosed
        rwa [hsilent]
  | started label =>
      obtain rfl := hafter.symm.trans (hgrown.keep_eq fun _ => rfl)
      obtain ⟨base, hopens, hmirror⟩ := hb
      rw [hsilent]
      exact ⟨base, ⟨ed.document, Reversible.nil _, hopens⟩, hmirror⟩
  | @committed r outer hcur =>
      obtain rfl := hafter.symm.trans (hgrown.keep_eq fun _ => rfl)
      obtain ⟨base, hopens, hmirror⟩ := hb
      rw [hcur] at hopens
      obtain ⟨mid, hr, hopens⟩ := hopens
      have hclosed := Mirror.Behind.absorb (h := { ed.history with current := outer })
        ⟨base, hopens, hmirror⟩ hr
      split
      · next houter => rwa [if_pos houter] at hclosed
      · next houter =>
        rw [if_neg houter] at hclosed
        rwa [hsilent]
  | @rolledBack r outer hcur =>
      -- nothing is told of it, and the document at which the transactions began is the same
      obtain ⟨base, hopens, hmirror⟩ := hb
      rw [hcur] at hopens
      obtain ⟨mid, hr, hopens⟩ := hopens
      simp only [hr.revertAll_eq] at hafter ⊢
      obtain rfl := hafter.symm.trans (hgrown.keep_eq fun x => (hr.forth.contains_eq x).symm)
      rw [hsilent]
      exact ⟨base, hopens, hmirror⟩
  | @undone r rest hcur hundo =>
      obtain ⟨mid, hr, -⟩ := hs.exists_undo hcur hundo
      simp only [hr.revertAll_eq] at hafter ⊢
      obtain rfl := hafter.symm.trans (hgrown.keep_eq fun x => (hr.forth.contains_eq x).symm)
      rw [hcur, Mirror.behind_nil] at hb ⊢
      subst hb
      exact Document.hear_of_undone hr
  | @redone r rest hcur hredo =>
      obtain ⟨mid, hr, -⟩ := hs.exists_redo hcur hredo
      simp only [hr.applyAll_eq] at hafter ⊢
      obtain rfl := hafter.symm.trans (hgrown.keep_eq hr.forth.contains_eq)
      change Mirror.Behind _ ed.history.current mid
      rw [hcur, Mirror.behind_nil] at hb ⊢
      subst hb
      exact Document.hear_of_made hr (by simp)
  | cleared =>
      obtain rfl := hafter.symm.trans (hgrown.keep_eq fun _ => rfl)
      rw [hsilent]
      exact hb
  | @discarded id hcur hx =>
      rw [hcur, Mirror.behind_nil] at hb
      subst hb hafter
      change Mirror.Behind (ed.announced.elim _ _) ed.history.current (ed.document.eraseAll id)
      rw [hsilent, hcur, Mirror.behind_nil]
      exact Document.keep_mirror_eraseAll ..

theorem Step.creates (h : Step ed cs ed') :
    cs = [] ∨ ed'.document.tree.size = ed.document.tree.size + cs.length := by
  cases h with
  | grown => exact Or.inr (Document.size_createAll _ _)
  | absorbed hr => exact Or.inr (hr.document.forth.size_eq.trans (Document.size_createAll _ _))
  | _ => exact Or.inl rfl

end Editor

namespace Listeners

variable {l : Listeners}

/-- Everyone who may be told of something: the audience of a round, and those on the list. -/
def everyone (l : Listeners) : List ListenerId :=
  (l.round.map (·.audience)).getD [] ++ l.registered

theorem everyone_of_round (h : l.round = none) : l.everyone = l.registered := by
  rw [everyone, h]
  rfl

theorem next_remove (l : Listeners) (id : ListenerId) : (l.remove id).next = l.next := by
  simp only [remove]
  split
  · split <;> rfl
  · rfl

theorem next_endRound (l : Listeners) : l.endRound.next = l.next := by
  simp only [endRound]
  split <;> rfl

/-- Taking a listener off the list during a round shows when the round is over. -/
theorem remove_of_round (h : l.round.isSome = true) (id : ListenerId) :
    (l.remove id).registered = l.registered ∧ (l.remove id).everyone = l.everyone := by
  have hregistered : (l.remove id).registered = l.registered := by
    simp only [remove]
    split
    · split <;> rfl
    · next hnone =>
      rw [hnone] at h
      cases h
  refine ⟨hregistered, ?_⟩
  rw [everyone, everyone, (within_remove h id).audience, hregistered]

theorem remove_of_no_round (h : l.round = none) (id : ListenerId) :
    (l.remove id).registered = l.registered.filter (· ≠ id) ∧ (l.remove id).round = none := by
  simp only [remove, h, and_self]

theorem endRound_of_round {round : Round} (h : l.round = some round) :
    l.endRound.registered = l.everyone.filter (fun id => !round.leaving.contains id) ∧
      l.endRound.round = none := by
  simp only [endRound, h, everyone, Option.map_some, Option.getD_some, and_self]

/-- No listener is there twice, and all have handles that have been given out. -/
structure Distinct (l : Listeners) : Prop where
  nodup : l.everyone.Nodup
  number_lt : ∀ id ∈ l.everyone, id.number < l.next

theorem Distinct.add (h : l.Distinct) : l.add.Distinct := by
  have heveryone : l.add.everyone = l.everyone ++ [l.nextId] := (List.append_assoc ..).symm
  constructor
  · rw [heveryone]
    refine List.Nodup.append h.nodup (List.nodup_singleton _) ?_
    intro id hid hnew
    obtain rfl := List.mem_singleton.1 hnew
    exact Nat.lt_irrefl _ (h.number_lt _ hid)
  · intro id hid
    rw [heveryone, List.mem_append] at hid
    rcases hid with hid | hid
    · exact Nat.lt_succ_of_lt (h.number_lt id hid)
    · obtain rfl := List.mem_singleton.1 hid
      exact Nat.lt_succ_self _

theorem Distinct.of_sublist (h : l.Distinct) {l' : Listeners}
    (hsub : l'.everyone.Sublist l.everyone) (hnext : l'.next = l.next) : l'.Distinct :=
  ⟨h.nodup.sublist hsub, fun id hid => hnext ▸ h.number_lt id (hsub.subset hid)⟩

theorem Distinct.remove (h : l.Distinct) (id : ListenerId) : (l.remove id).Distinct := by
  refine h.of_sublist ?_ (l.next_remove id)
  cases hround : l.round with
  | none =>
      obtain ⟨hregistered, hnone⟩ := remove_of_no_round hround id
      rw [everyone_of_round hnone, everyone_of_round hround, hregistered]
      exact List.filter_sublist
  | some round =>
      rw [(remove_of_round (by rw [hround]; rfl) id).2]

theorem Distinct.beginRound (h : l.Distinct) : l.beginRound.Distinct := by
  refine h.of_sublist ?_ rfl
  simp only [everyone, Listeners.beginRound, Option.map_some, Option.getD_some, List.append_nil]
  exact List.sublist_append_right ..

theorem Distinct.endRound (h : l.Distinct) : l.endRound.Distinct := by
  refine h.of_sublist ?_ l.next_endRound
  cases hround : l.round with
  | none => rw [Listeners.endRound, hround]
  | some round =>
      obtain ⟨hregistered, hnone⟩ := endRound_of_round hround
      rw [everyone_of_round hnone, hregistered]
      exact List.filter_sublist

end Listeners

namespace Module

variable {m : Module}

theorem Reachable.distinct (h : m.Reachable) : m.listeners.Distinct := by
  induction h with
  | new h =>
      simp only [Module.new] at h
      split at h
      · obtain rfl := Except.ok.inj h
        exact ⟨List.nodup_nil, List.forall_mem_nil _⟩
      · cases h
  | @next m _ input ih =>
      cases input with
      | perform files command => rwa [Module.next, listeners_perform]
      | addListener => exact ih.add
      | removeListener id => exact ih.remove id
      | beginRound => exact ih.beginRound
      | endRound => exact ih.endRound

theorem Sound.exists_step_created (hm : m.Sound) (files : Files) (command : Command) :
    ∃ ed, Step m.editor (m.created (.perform files command)) ed ∧
      (m.perform files command).module = { m with editor := { ed with announced := none } } ∧
      (m.perform files command).event = ed.announced := by
  rcases hm.perform_cases files command with ⟨-, reply, ed, hstep, heq⟩ | ⟨error, cs, hcs, heq⟩
  · have hcreated : m.created (.perform files command) = command.creations := by
      have hnext : (m.next (.perform files command)).document = ed.document := by
        rw [Module.next, heq]
        rfl
      rcases hstep.creates with hnone | hsize
      · rw [created, Input.creations, hnone, List.take_nil]
      · exact created_eq List.prefix_rfl (hnext ▸ hsize)
    rw [hcreated, heq]
    exact ⟨ed, hstep, rfl, rfl⟩
  · have hcreated : m.created (.perform files command) = cs := by
      apply created_eq hcs
      rw [Module.next, heq]
      exact Document.size_createAll _ _
    rw [hcreated, heq]
    refine ⟨_, .grown cs, ?_, hm.silent.symm⟩
    exact congrArg (fun ed => ({ m with editor := ed } : Module))
      (congrArg (Editor.grown · cs) hm.editor_eq).symm

end Module

/-- A module, and what one of its listeners keeps of it. -/
structure Watch where
  module : Module
  mirror : Mirror

/-- Something that is done with a module, and what the listeners do if they are told of it. -/
inductive Happening where
  | call (visits : ListenerId → Event → Visit) (files : Files) (command : Command)
  | addListener
  | removeListener (id : ListenerId)
  | endRound

namespace Watch

/-- Tells a listener of an event and lets it visit the module. One listener first makes the changes
that it is told of. -/
def tell (me : ListenerId) (visits : ListenerId → Event → Visit) (id : ListenerId) (event : Event)
    (m : Module) : StateM Mirror Module :=
  modifyGet fun mirror =>
    (((visits id event).play m).1, if id = me then mirror.hear event else mirror)

def round (w : Watch) (me : ListenerId) (visits : ListenerId → Event → Visit) (event : Event) :
    Watch :=
  let (module, mirror) := (w.module.deliver (tell me visits) event).run w.mirror
  ⟨module, mirror⟩

/-- What is done with the module, and what that one listener makes of it. New elements are taken up
as they are created, and those that are gone are forgotten. -/
def next (me : ListenerId) (w : Watch) : Happening → Watch
  | .call visits files command =>
    let outcome := w.module.perform files command
    let created := w.module.created (.perform files command)
    let known := (w.mirror.createAll w.module.document created).keep outcome.module.document
    match outcome.event with
    | some event => round ⟨outcome.module, known⟩ me visits event
    | none => ⟨outcome.module, known⟩
  | .addListener => { w with module := w.module.addListener }
  | .removeListener id => { w with module := w.module.removeListener id }
  | .endRound => { w with module := w.module.next .endRound }

def run (me : ListenerId) (w : Watch) (happenings : List Happening) : Watch :=
  happenings.foldl (next me) w

variable {w : Watch} {me : ListenerId}

/-- How far a round has come: some of the audience have been told, and some have not. -/
structure Told (w : Watch) (me : ListenerId) (event : Event) (rest : List ListenerId)
    (told : Module) (mirror : Mirror) : Prop where
  editor : told.editor = w.module.editor
  reached : ∃ inputs, told = (w.module.next .beginRound).run inputs
  within : w.module.listeners.beginRound.Within told.listeners
  heard : ∃ before, w.module.listeners.registered = before ++ rest ∧
    mirror = if me ∈ before then w.mirror.hear event else w.mirror

theorem Told.tell {event : Event} {id : ListenerId} {rest : List ListenerId} {told : Module}
    {mirror : Mirror} (hreachable : w.module.Reachable)
    (h : w.Told me event (id :: rest) told mirror) (visits : ListenerId → Event → Visit) :
    w.Told me event rest (tell me visits id event told mirror).1
      (tell me visits id event told mirror).2 := by
  obtain ⟨inputs, hrun⟩ := h.reached
  obtain ⟨before, hbefore, hmirror⟩ := h.heard
  have hplay := Module.harmless_play (visits id event) h.within.isSome_round
    ((congrArg (·.announced) h.editor).trans hreachable.sound.silent)
  obtain ⟨more, hmore⟩ := Module.exists_run_play (visits id event) told
  refine ⟨hplay.editor.trans h.editor, ⟨inputs ++ more, ?_⟩, h.within.trans hplay.within,
    before ++ [id], ?_, ?_⟩
  · rw [Module.run_append, ← hrun]
    exact hmore
  · rw [hbefore, List.append_assoc, List.singleton_append]
  · -- nobody is told twice
    have hfresh : id ∉ before := by
      have hnodup := (List.nodup_append.1 hreachable.distinct.nodup).2.1
      rw [hbefore, List.nodup_append] at hnodup
      exact fun hmem => hnodup.2.2 id hmem id List.mem_cons_self rfl
    change (if id = me then mirror.hear event else mirror) = _
    rw [hmirror]
    by_cases hid : id = me
    · subst hid
      rw [if_pos rfl, if_neg hfresh, if_pos (by simp)]
    · have hsame : me ∈ before ++ [id] ↔ me ∈ before := by simp [Ne.symm hid]
      simp only [if_neg hid, hsame]

/-- The listener is told of the event once if it is registered, and not at all if it is not. -/
theorem round_spec (hreachable : w.module.Reachable) (me : ListenerId)
    (visits : ListenerId → Event → Visit) (event : Event) {after : Watch}
    (hafter : w.round me visits event = after) :
    after.module.editor = w.module.editor ∧ (∃ inputs, after.module = w.module.run inputs) ∧
      after.module.listeners.Outlasts w.module.listeners ∧
      after.mirror = if me ∈ w.module.listeners.registered then w.mirror.hear event
        else w.mirror := by
  have hbegin : w.Told me event w.module.listeners.registered (w.module.next .beginRound)
      w.mirror := ⟨rfl, ⟨[], rfl⟩, .refl _, [], rfl, rfl⟩
  have htell : ∀ id rest told mirror, w.Told me event (id :: rest) told mirror →
      w.Told me event rest (tell me visits id event told mirror).1
        (tell me visits id event told mirror).2 :=
    fun _ _ _ _ h => h.tell hreachable visits
  obtain ⟨told, mirror, heq, h⟩ := Module.deliver_induction hbegin htell
  obtain ⟨inputs, hrun⟩ := h.reached
  obtain ⟨before, hbefore, hmirror⟩ := h.heard
  rw [List.append_nil] at hbefore
  rw [round, heq] at hafter
  subst hafter
  refine ⟨h.editor, ⟨.beginRound :: inputs ++ [.endRound], ?_⟩, h.within.endRound, ?_⟩
  · rw [hrun, Module.run_append]
    rfl
  · rw [hmirror, hbefore]

/-- As long as the listener is registered its mirror is behind by the open transactions only, and
once it is not it will not be told of anything again. -/
structure Keeps (me : ListenerId) (w : Watch) : Prop where
  reachable : w.module.Reachable
  number_lt : me.number < w.module.listeners.next
  behind : me ∈ w.module.listeners.registered →
    w.mirror.Behind w.module.history.current w.module.document
  gone : me ∉ w.module.listeners.registered → me ∉ w.module.listeners.everyone

theorem keeps_round (hreachable : w.module.Reachable)
    (hnumber : me.number < w.module.listeners.next) (visits : ListenerId → Event → Visit)
    (event : Event) (hbehind : me ∈ w.module.listeners.registered →
      (w.mirror.hear event).Behind w.module.history.current w.module.document) :
    (w.round me visits event).Keeps me := by
  obtain ⟨heditor, ⟨inputs, hrun⟩, houtlasts, hmirror⟩ :=
    round_spec hreachable me visits event rfl
  constructor
  · rw [hrun]
    exact hreachable.run inputs
  · exact Nat.lt_of_lt_of_le hnumber houtlasts.next
  · intro hme
    have hbefore : me ∈ w.module.listeners.registered :=
      (houtlasts.registered me hme).resolve_right (Nat.not_le.2 hnumber)
    rw [hmirror, if_pos hbefore, Module.history, Module.document, heditor]
    exact hbehind hbefore
  · intro hgone
    rwa [Listeners.everyone_of_round houtlasts.round]

theorem Keeps.call (h : w.Keeps me) (visits : ListenerId → Event → Visit) (files : Files)
    (command : Command) : (w.next me (.call visits files command)).Keeps me := by
  have hm := h.reachable.sound
  have hreachable : (w.module.perform files command).module.Reachable :=
    h.reachable.next (.perform files command)
  have hlisteners := w.module.listeners_perform files command
  obtain ⟨ed, hstep, hmodule, hevent⟩ := hm.exists_step_created files command
  have hbehind : me ∈ w.module.listeners.registered → ∀ known,
      (w.mirror.createAll w.module.document (w.module.created (.perform files command))).keep
        (w.module.perform files command).module.document = known →
      Mirror.Behind ((w.module.perform files command).event.elim known known.hear)
        (w.module.perform files command).module.history.current
        (w.module.perform files command).module.document := by
    intro hme known hknown
    rw [hevent]
    rw [hmodule] at hknown ⊢
    exact hstep.behind hm.history hm.silent (h.behind hme) hknown
  simp only [Watch.next]
  cases hannounced : (w.module.perform files command).event with
  | none =>
      rw [hannounced] at hbehind
      constructor
      · exact hreachable
      · exact hlisteners ▸ h.number_lt
      · exact fun hme => hbehind (hlisteners ▸ hme) _ rfl
      · exact hlisteners ▸ h.gone
  | some event =>
      rw [hannounced] at hbehind
      apply keeps_round hreachable
      · exact hlisteners ▸ h.number_lt
      · exact fun hme => hbehind (hlisteners ▸ hme) _ rfl

theorem Keeps.withListeners (h : w.Keeps me) (l : Listeners)
    (hreachable : ({ w.module with listeners := l } : Module).Reachable)
    (hnext : w.module.listeners.next ≤ l.next)
    (hregistered : me ∈ l.registered → me ∈ w.module.listeners.registered)
    (hgone : me ∉ l.registered → me ∉ l.everyone) :
    Keeps me { w with module := { w.module with listeners := l } } where
  reachable := hreachable
  number_lt := Nat.lt_of_lt_of_le h.number_lt hnext
  behind hme := h.behind (hregistered hme)
  gone := hgone

theorem Keeps.addListener (h : w.Keeps me) : (w.next me .addListener).Keeps me := by
  have hne : me ≠ w.module.listeners.nextId := by
    rintro rfl
    exact Nat.lt_irrefl _ h.number_lt
  have hregistered : me ∈ w.module.listeners.add.registered ↔
      me ∈ w.module.listeners.registered := by
    simp [Listeners.add, hne]
  have heveryone : me ∈ w.module.listeners.add.everyone ↔ me ∈ w.module.listeners.everyone := by
    simp [Listeners.everyone, Listeners.add, hne]
  apply h.withListeners _ (h.reachable.next .addListener) (Nat.le_succ _) hregistered.1
  rw [hregistered, heveryone]
  exact h.gone

theorem Keeps.removeListener (h : w.Keeps me) (id : ListenerId) :
    (w.next me (.removeListener id)).Keeps me := by
  have hnext := Nat.le_of_eq (w.module.listeners.next_remove id).symm
  apply h.withListeners _ (h.reachable.next (.removeListener id)) hnext
  · intro hme
    cases hround : w.module.listeners.round with
    | none =>
        rw [(Listeners.remove_of_no_round hround id).1] at hme
        exact List.mem_of_mem_filter hme
    | some round => rwa [(Listeners.remove_of_round (by rw [hround]; rfl) id).1] at hme
  · intro hgone
    cases hround : w.module.listeners.round with
    | none => rwa [Listeners.everyone_of_round (Listeners.remove_of_no_round hround id).2]
    | some round =>
        obtain ⟨hregistered, heveryone⟩ := Listeners.remove_of_round (by rw [hround]; rfl) id
        rw [heveryone]
        exact h.gone (hregistered ▸ hgone)

theorem Keeps.endRound (h : w.Keeps me) : (w.next me .endRound).Keeps me := by
  have hnext := Nat.le_of_eq w.module.listeners.next_endRound.symm
  apply h.withListeners _ (h.reachable.next .endRound) hnext
  · intro hme
    cases hround : w.module.listeners.round with
    | none => rwa [Listeners.endRound, hround] at hme
    | some round =>
        rw [(Listeners.endRound_of_round hround).1] at hme
        by_contra hgone
        exact h.gone hgone (List.mem_of_mem_filter hme)
  · cases hround : w.module.listeners.round with
    | none =>
        rw [Listeners.endRound, hround]
        exact h.gone
    | some round =>
        rw [Listeners.everyone_of_round (Listeners.endRound_of_round hround).2]
        exact fun hgone => hgone

theorem Keeps.next (h : w.Keeps me) (happening : Happening) : (w.next me happening).Keeps me := by
  cases happening with
  | call visits files command => exact h.call visits files command
  | addListener => exact h.addListener
  | removeListener id => exact h.removeListener id
  | endRound => exact h.endRound

theorem Keeps.run (h : w.Keeps me) (happenings : List Happening) :
    (w.run me happenings).Keeps me := by
  induction happenings generalizing w with
  | nil => exact h
  | cons happening happenings ih => exact ih (h.next happening)

end Watch

namespace Module

variable {m : Module}

/-- A listener that starts with a mirror of the document while no transaction is open, and makes the
changes of all events it is told of, has a mirror of the document whenever no transaction is open,
as long as it is registered. -/
theorem Reachable.mirror_exact (h : m.Reachable) {me : ListenerId}
    (hme : me ∈ m.listeners.registered) (hcur : m.history.current = [])
    (happenings : List Happening) {after : Watch}
    (hafter : Watch.run me ⟨m, m.document.mirror⟩ happenings = after)
    (hstill : me ∈ after.module.listeners.registered)
    (hclosed : after.module.history.current = []) :
    after.mirror = after.module.document.mirror := by
  have hstart : Watch.Keeps me ⟨m, m.document.mirror⟩ := by
    refine ⟨h, ?_, fun _ => ?_, fun hgone => absurd hme hgone⟩
    · exact h.distinct.number_lt me (List.mem_append_right _ hme)
    · rw [hcur, Mirror.behind_nil]
  have hbehind := (hafter ▸ hstart.run happenings).behind hstill
  rwa [hclosed, Mirror.behind_nil] at hbehind

/-- A second label is created, and put into the body in a transaction in which the first one is
given a colour and dropped, the latter being rolled back. Then all is undone and redone. -/
def errands : List Happening :=
  [.create "Label" (some "date"), .start "layout", .setValue ⟨1, 0⟩ "color" (.string "navy"),
    .start "drop", .drop ⟨1, 0⟩, .rollback, .add ⟨2, 0⟩ ⟨⟨0, 0⟩, "body"⟩ none, .commit, .undo,
    .redo].map (.call (fun _ _ => .leave) .empty)

theorem mirror_exact_errands :
    let after := Watch.run ⟨0⟩ ⟨labelled.addListener, labelled.document.mirror⟩ errands
    after.mirror = after.module.document.mirror ∧
    (after.mirror ⟨1, 0⟩).bind (·.values.get? "color") = some (.color "navy") ∧
    (after.mirror ⟨2, 0⟩).bind (·.place) = some ⟨⟨0, 0⟩, "body"⟩ := by
  intro after
  have hme : (⟨0⟩ : ListenerId) ∈ labelled.addListener.listeners.registered :=
    List.mem_singleton_self _
  have hstill : (⟨0⟩ : ListenerId) ∈ after.module.listeners.registered :=
    List.mem_singleton_self _
  have hexact : after.mirror = after.module.document.mirror :=
    (reachable_labelled.next .addListener).mirror_exact hme rfl errands rfl hstill rfl
  exact ⟨hexact, rfl, rfl⟩

end Module

end ReportModel
