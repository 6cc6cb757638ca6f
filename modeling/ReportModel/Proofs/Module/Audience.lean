import ReportModel.Proofs.Module.Mirror

/-!
# Who hears of what

The minutes of a module say who is told of something, who comes under which handle, and who is to be
taken off the list and with what answer, in turn and without regard to whether a round is going on.
From them it can be read who is on the list: those who were there at first and those who have come,
in that order, without those taken off. A round does not change that; it only keeps the list apart
until it is over.
-/

namespace ReportModel

namespace Listeners

variable {l : Listeners} {id x : ListenerId}

/-- Who is to be taken off the list when the round is over. -/
def leaving (l : Listeners) : List ListenerId :=
  (l.round.map (·.leaving)).getD []

theorem has_iff : l.has id = true ↔ id ∈ l.everyone ∧ id ∉ l.leaving := by
  cases hround : l.round <;> simp [has, everyone, leaving, hround]

/-- Those who are on the list as soon as no round is going on. -/
def roster (l : Listeners) : List ListenerId :=
  l.everyone.filter l.has

theorem mem_roster : id ∈ l.roster ↔ l.has id = true := by
  rw [roster, List.mem_filter]
  exact and_iff_right_of_imp fun h => (has_iff.1 h).1

theorem roster_of_no_round (h : l.round = none) : l.roster = l.registered := by
  rw [roster, everyone_of_round h, List.filter_eq_self]
  intro id hid
  rw [has, h]
  exact List.contains_iff_mem.2 hid

theorem roster_beginRound (h : l.round = none) : l.beginRound.roster = l.roster := by
  have heveryone : l.beginRound.everyone = l.registered := List.append_nil _
  rw [roster_of_no_round h, roster, heveryone, List.filter_eq_self]
  intro id hid
  exact has_iff.2 ⟨heveryone ▸ hid, List.not_mem_nil⟩

theorem round_endRound (l : Listeners) : l.endRound.round = none := by
  cases hround : l.round with
  | none => rw [endRound, hround, hround]
  | some round => exact (endRound_of_round hround).2

theorem roster_endRound (l : Listeners) : l.endRound.roster = l.roster := by
  cases hround : l.round with
  | none => rw [endRound, hround]
  | some round =>
      rw [roster_of_no_round l.round_endRound, (endRound_of_round hround).1, roster]
      refine List.filter_congr fun id hid => ?_
      rw [Bool.eq_iff_iff, has_iff, leaving, hround]
      simp [hid]

theorem mem_leaving_remove (h : l.round.isSome = true) :
    x ∈ (l.remove id).leaving ↔ x ∈ l.leaving ∨ x = id ∧ l.has id = true := by
  obtain ⟨round, hround⟩ := Option.isSome_iff_exists.1 h
  simp only [remove, hround]
  split
  · next hhas => simp [leaving, hround, hhas]
  · next hhas => simp [hhas]

theorem roster_remove (l : Listeners) (id : ListenerId) :
    (l.remove id).roster = l.roster.filter (· ≠ id) := by
  cases hround : l.round with
  | none =>
      obtain ⟨hregistered, hnone⟩ := remove_of_no_round hround id
      rw [roster_of_no_round hnone, roster_of_no_round hround, hregistered]
  | some round =>
      have hsome : l.round.isSome = true := by rw [hround]; rfl
      have heveryone := (remove_of_round hsome id).2
      rw [roster, heveryone, roster, List.filter_filter]
      refine List.filter_congr fun x hx => ?_
      rw [Bool.eq_iff_iff, Bool.and_eq_true, decide_eq_true_eq, has_iff, has_iff, heveryone,
        mem_leaving_remove hsome, not_or, not_and]
      constructor
      · intro ⟨_, hstays, hother⟩
        exact ⟨fun heq => hother heq (heq ▸ has_iff.2 ⟨hx, hstays⟩), hx, hstays⟩
      · intro ⟨hne, _, hstays⟩
        exact ⟨hx, hstays, fun heq => absurd heq hne⟩

/-- Only those who are there can be taken off the list, and all handles have been given out. -/
structure Kempt (l : Listeners) : Prop extends l.Distinct where
  leaving_subset : l.leaving ⊆ l.everyone

theorem Kempt.roster_add (h : l.Kempt) : l.add.roster = l.roster ++ [l.nextId] := by
  have hfresh : l.nextId ∉ l.everyone := fun hmem => Nat.lt_irrefl _ (h.number_lt _ hmem)
  have heveryone : l.add.everyone = l.everyone ++ [l.nextId] := (List.append_assoc ..).symm
  have hhas : ∀ id, l.add.has id = true ↔ id ∈ l.everyone ++ [l.nextId] ∧ id ∉ l.leaving :=
    fun id => heveryone ▸ has_iff
  rw [roster, heveryone, List.filter_append, roster]
  congr 1
  · refine List.filter_congr fun id hid => ?_
    rw [Bool.eq_iff_iff, hhas, has_iff]
    simp [hid]
  · rw [List.filter_eq_self]
    intro id hid
    obtain rfl := List.mem_singleton.1 hid
    exact (hhas _).2 ⟨List.mem_append_right _ hid, fun hmem => hfresh (h.leaving_subset hmem)⟩

theorem Kempt.add (h : l.Kempt) : l.add.Kempt where
  toDistinct := h.toDistinct.add
  leaving_subset id hid := by
    have heveryone : l.add.everyone = l.everyone ++ [l.nextId] := (List.append_assoc ..).symm
    rw [heveryone]
    exact List.mem_append_left _ (h.leaving_subset hid)

theorem leaving_of_no_round (h : l.round = none) : l.leaving = [] := by
  rw [leaving, h]
  rfl

theorem Distinct.kempt (h : l.Distinct) (hround : l.round = none) : l.Kempt where
  toDistinct := h
  leaving_subset := by
    rw [leaving_of_no_round hround]
    exact List.nil_subset _

theorem Kempt.remove (h : l.Kempt) (id : ListenerId) : (l.remove id).Kempt := by
  cases hround : l.round with
  | none => exact (h.toDistinct.remove id).kempt (remove_of_no_round hround id).2
  | some round =>
      have hsome : l.round.isSome = true := by rw [hround]; rfl
      refine ⟨h.toDistinct.remove id, fun x hx => ?_⟩
      rw [(remove_of_round hsome id).2]
      rcases (mem_leaving_remove hsome).1 hx with hold | ⟨rfl, hhas⟩
      · exact h.leaving_subset hold
      · exact (has_iff.1 hhas).1

theorem Kempt.beginRound (h : l.Kempt) : l.beginRound.Kempt :=
  ⟨h.toDistinct.beginRound, List.nil_subset _⟩

end Listeners

inductive Minute where
  /-- A listener is told of an event. -/
  | told (id : ListenerId)
  /-- A listener is registered under a handle. -/
  | came (id : ListenerId)
  /-- A listener is to be taken off the list, which has an answer. -/
  | left (id : ListenerId) (answer : Bool)
deriving DecidableEq

namespace Minute

variable {start : List ListenerId} {minutes more : List Minute} {minute : Minute}
  {id : ListenerId} {answer : Bool}

/-- Who has been told of something. -/
def audience (minutes : List Minute) : List ListenerId :=
  minutes.filterMap fun
    | told id => some id
    | _ => none

def newcomers (minutes : List Minute) : List ListenerId :=
  minutes.filterMap fun
    | came id => some id
    | _ => none

/-- Those who were there at the start and those who have come, without those who have been taken off
the list. -/
def remaining (start : List ListenerId) (minutes : List Minute) : List ListenerId :=
  (start ++ newcomers minutes).filter fun id => left id true ∉ minutes

theorem audience_append (minutes more : List Minute) :
    audience (minutes ++ more) = audience minutes ++ audience more :=
  List.filterMap_append

theorem newcomers_append (minutes more : List Minute) :
    newcomers (minutes ++ more) = newcomers minutes ++ newcomers more :=
  List.filterMap_append

theorem mem_remaining : id ∈ remaining start minutes ↔
    id ∈ start ++ newcomers minutes ∧ left id true ∉ minutes := by
  simp only [remaining, List.mem_filter, decide_eq_true_eq]

theorem remaining_nil (start : List ListenerId) : remaining start [] = start := by
  simp [remaining, newcomers]

@[simp]
theorem newcomers_told (id : ListenerId) :
    newcomers (minutes ++ [told id]) = newcomers minutes := by
  simp [newcomers]

@[simp]
theorem newcomers_came (id : ListenerId) :
    newcomers (minutes ++ [came id]) = newcomers minutes ++ [id] := by
  simp [newcomers]

@[simp]
theorem newcomers_left (id : ListenerId) (answer : Bool) :
    newcomers (minutes ++ [left id answer]) = newcomers minutes := by
  simp [newcomers]

theorem remaining_told (id : ListenerId) :
    remaining start (minutes ++ [told id]) = remaining start minutes := by
  simp [remaining]

theorem remaining_came (h : left id true ∉ minutes) :
    remaining start (minutes ++ [came id]) = remaining start minutes ++ [id] := by
  rw [remaining, newcomers_came, ← List.append_assoc, List.filter_append, remaining]
  simp [h]

theorem remaining_left (h : answer = true ↔ id ∈ remaining start minutes) :
    remaining start (minutes ++ [left id answer]) =
      (remaining start minutes).filter (· ≠ id) := by
  rw [remaining, newcomers_left, remaining, List.filter_filter]
  refine List.filter_congr fun x hx => ?_
  rw [mem_remaining] at h
  have hstays : left x true ∉ minutes ++ [left id answer] ↔
      left x true ∉ minutes ∧ ¬ (x = id ∧ answer = true) := by
    simp [eq_comm]
  rw [Bool.eq_iff_iff, Bool.and_eq_true, decide_eq_true_eq, decide_eq_true_eq, decide_eq_true_eq,
    hstays]
  constructor
  · intro ⟨hnot, hother⟩
    exact ⟨fun heq => hother ⟨heq, h.2 ⟨heq ▸ hx, heq ▸ hnot⟩⟩, hnot⟩
  · intro ⟨hne, hnot⟩
    exact ⟨hnot, fun heq => hne heq.1⟩

/-- Whoever is to be taken off the list, the answer is whether they are on it. -/
def Accurate (start : List ListenerId) (minutes : List Minute) : Prop :=
  ∀ before id answer later, minutes = before ++ left id answer :: later →
    (answer = true ↔ id ∈ remaining start before)

theorem accurate_nil (start : List ListenerId) : Accurate start [] := by
  intro before id answer later h
  simp at h

theorem Accurate.append_singleton (h : Accurate start minutes)
    (hminute : ∀ id answer, minute = left id answer →
      (answer = true ↔ id ∈ remaining start minutes)) :
    Accurate start (minutes ++ [minute]) := by
  intro before id answer later heq
  rcases List.eq_nil_or_concat later with rfl | ⟨later, last, rfl⟩
  · obtain ⟨rfl, hlast⟩ := List.append_inj' heq rfl
    exact hminute id answer (List.singleton_inj.1 hlast)
  · rw [List.concat_eq_append, ← List.cons_append, ← List.append_assoc] at heq
    obtain ⟨rfl, -⟩ := List.append_inj' heq rfl
    exact h before id answer later rfl

/-- Only those who were there have been taken off the list. -/
theorem Accurate.mem_of_left (h : Accurate start minutes) (hleft : left id true ∈ minutes) :
    id ∈ start ++ newcomers minutes := by
  obtain ⟨before, later, rfl⟩ := List.append_of_mem hleft
  have hbefore := (mem_remaining.1 ((h before id true later rfl).1 rfl)).1
  rw [newcomers_append, ← List.append_assoc]
  exact List.mem_append_left _ hbefore

end Minute

open Minute (audience audience_append newcomers newcomers_told newcomers_came newcomers_left
  remaining remaining_nil remaining_told remaining_came remaining_left mem_remaining Accurate
  accurate_nil)

/-- The minutes of what has been done to a list of listeners. -/
structure Listeners.Recorded (start : List ListenerId) (l : Listeners) (minutes : List Minute) :
    Prop where
  kempt : l.Kempt
  nodup : (start ++ newcomers minutes).Nodup
  number_lt : ∀ id ∈ start ++ newcomers minutes, id.number < l.next
  roster : l.roster = remaining start minutes
  accurate : Accurate start minutes

namespace Listeners

variable {l : Listeners} {start : List ListenerId} {minutes : List Minute}

theorem Distinct.recorded (h : l.Distinct) (hround : l.round = none) :
    l.Recorded l.registered [] := by
  have hstart : l.registered ++ newcomers [] = l.everyone := by
    rw [everyone_of_round hround]
    exact List.append_nil _
  refine ⟨h.kempt hround, ?_, ?_, ?_, accurate_nil _⟩
  · exact hstart ▸ h.nodup
  · exact hstart ▸ h.number_lt
  · rw [roster_of_no_round hround, remaining_nil]

namespace Recorded

variable (h : l.Recorded start minutes)

include h

theorem has_iff_mem (id : ListenerId) : l.has id = true ↔ id ∈ remaining start minutes := by
  rw [← h.roster, mem_roster]

theorem told (id : ListenerId) : l.Recorded start (minutes ++ [.told id]) where
  kempt := h.kempt
  nodup := by simpa using h.nodup
  number_lt := by simpa using h.number_lt
  roster := h.roster.trans (remaining_told id).symm
  accurate := h.accurate.append_singleton fun _ _ heq => nomatch heq

theorem came : l.add.Recorded start (minutes ++ [.came l.nextId]) := by
  have hfresh : l.nextId ∉ start ++ newcomers minutes :=
    fun hmem => Nat.lt_irrefl _ (h.number_lt _ hmem)
  have hleft : Minute.left l.nextId true ∉ minutes :=
    fun hmem => hfresh (h.accurate.mem_of_left hmem)
  have hall : start ++ newcomers (minutes ++ [.came l.nextId]) =
      start ++ newcomers minutes ++ [l.nextId] := by
    rw [newcomers_came, List.append_assoc]
  refine ⟨h.kempt.add, ?_, ?_, ?_, ?_⟩
  · rw [hall]
    exact h.nodup.append (List.nodup_singleton _) (List.disjoint_singleton.2 hfresh)
  · rw [hall]
    refine List.forall_mem_append.2 ⟨fun id hid => Nat.lt_succ_of_lt (h.number_lt id hid), ?_⟩
    exact List.forall_mem_singleton.2 (Nat.lt_succ_self _)
  · rw [h.kempt.roster_add, h.roster, remaining_came hleft]
  · exact h.accurate.append_singleton fun _ _ heq => nomatch heq

theorem left (id : ListenerId) :
    (l.remove id).Recorded start (minutes ++ [.left id (l.has id)]) where
  kempt := h.kempt.remove id
  nodup := by simpa using h.nodup
  number_lt := by simpa [next_remove] using h.number_lt
  roster := by rw [roster_remove, h.roster, remaining_left (h.has_iff_mem id)]
  accurate := h.accurate.append_singleton fun _ _ heq => by
    obtain ⟨rfl, rfl⟩ := Minute.left.inj heq
    exact h.has_iff_mem id

theorem beginRound (hround : l.round = none) : l.beginRound.Recorded start minutes where
  kempt := h.kempt.beginRound
  nodup := h.nodup
  number_lt := h.number_lt
  roster := (roster_beginRound hround).trans h.roster
  accurate := h.accurate

theorem endRound : l.endRound.Recorded start minutes where
  kempt := h.kempt.toDistinct.endRound.kempt l.round_endRound
  nodup := h.nodup
  number_lt := by simpa [next_endRound] using h.number_lt
  roster := l.roster_endRound.trans h.roster
  accurate := h.accurate

end Recorded

end Listeners

def Visit.minutes : Visit → Module → List Minute
  | leave, _ => []
  | look next, m => (next m).minutes m
  | perform files command next, m =>
    let outcome := m.perform files command
    (next outcome.result).minutes outcome.module
  | addListener next, m =>
    .came m.listeners.nextId :: (next m.listeners.nextId).minutes m.addListener
  | removeListener id next, m =>
    .left id (m.listeners.has id) :: (next (m.listeners.has id)).minutes (m.removeListener id)

theorem Visit.audience_minutes (visit : Visit) (m : Module) : audience (visit.minutes m) = [] := by
  induction visit generalizing m with
  | leave => rfl
  | look next ih => exact ih m m
  | perform files command next ih => exact ih _ _
  | addListener next ih => exact ih _ _
  | removeListener id next ih => exact ih _ _

namespace Module

variable {m after : Module} {start : List ListenerId} {minutes more : List Minute}

/-- Tells a listener of an event and lets it visit the module, and takes it down. -/
def tellRecorded (visits : ListenerId → Event → Visit) (id : ListenerId) (event : Event)
    (m : Module) : StateM (List Minute) Module :=
  modifyGet fun minutes =>
    (((visits id event).play m).1, minutes ++ .told id :: (visits id event).minutes m)

def roundRecorded (m : Module) (visits : ListenerId → Event → Visit) (event : Event) :
    Module × List Minute :=
  (m.deliver (tellRecorded visits) event).run []

def nextRecorded (m : Module) : Happening → Module × List Minute
  | .call visits files command =>
    let outcome := m.perform files command
    match outcome.event with
    | some event => outcome.module.roundRecorded visits event
    | none => (outcome.module, [])
  | .addListener => (m.addListener, [.came m.listeners.nextId])
  | .removeListener id => (m.removeListener id, [.left id (m.listeners.has id)])
  | .endRound => (m.next .endRound, [])

def runRecorded (m : Module) : List Happening → Module × List Minute
  | [] => (m, [])
  | happening :: happenings =>
    let (next, minutes) := m.nextRecorded happening
    let (after, more) := next.runRecorded happenings
    (after, minutes ++ more)

theorem recorded_play (visit : Visit) (h : m.listeners.Recorded start minutes) :
    (visit.play m).1.listeners.Recorded start (minutes ++ visit.minutes m) := by
  induction visit generalizing m minutes with
  | leave => exact (List.append_nil minutes).symm ▸ h
  | look next ih => exact ih m h
  | perform files command next ih =>
      have hperform := (listeners_perform m files command).symm ▸ h
      exact ih _ hperform
  | addListener next ih =>
      have hrest := ih m.listeners.nextId (m := m.addListener) h.came
      rwa [List.append_assoc] at hrest
  | removeListener id next ih =>
      have hrest := ih (m.listeners.has id) (m := m.removeListener id) (h.left id)
      rwa [List.append_assoc] at hrest

/-- A round is recorded as it takes place: those who were on the list when it began are told, in
that order. -/
theorem recorded_round (h : m.listeners.Recorded start minutes) (hround : m.listeners.round = none)
    (visits : ListenerId → Event → Visit) {event : Event}
    (heq : m.roundRecorded visits event = (after, more)) :
    after.listeners.Recorded start (minutes ++ more) ∧ after.listeners.round = none ∧
      audience more = m.listeners.registered := by
  obtain ⟨told, taken, hrun, hrecorded, haudience⟩ :
      ∃ (told : Module) (taken : List Minute), m.roundRecorded visits event =
        ({ told with listeners := told.listeners.endRound }, taken) ∧
          told.listeners.Recorded start (minutes ++ taken) ∧
          audience taken ++ [] = m.listeners.registered := by
    refine deliver_induction (P := fun rest told taken =>
      told.listeners.Recorded start (minutes ++ taken) ∧
        audience taken ++ rest = m.listeners.registered) ?_ ?_
    · exact ⟨(List.append_nil minutes).symm ▸ h.beginRound hround, rfl⟩
    · intro id rest told taken ⟨hrecorded, haudience⟩
      constructor
      · have hplayed := recorded_play (visits id event) (hrecorded.told id)
        rwa [List.append_assoc, List.append_assoc] at hplayed
      · change audience (taken ++ .told id :: (visits id event).minutes told) ++ rest = _
        rw [← haudience, audience_append, List.append_assoc]
        exact congrArg (fun told => audience taken ++ (id :: told ++ rest))
          ((visits id event).audience_minutes told)
  obtain ⟨rfl, rfl⟩ := Prod.mk.inj (heq.symm.trans hrun)
  exact ⟨hrecorded.endRound, told.listeners.round_endRound,
    (List.append_nil _).symm.trans haudience⟩

theorem deliver_fst {σ : Type} {tell : ListenerId → Event → Module → StateM σ Module}
    (visits : ListenerId → Event → Visit) {event : Event}
    (htell : ∀ id m s, (tell id event m s).1 = ((visits id event).play m).1) (m : Module) (s : σ) :
    ((m.deliver tell event).run s).1 =
      (m.listeners.registered.foldl (fun m id => ((visits id event).play m).1)
        (m.next .beginRound)).next .endRound := by
  let visited (audience : List ListenerId) (m : Module) : Module :=
    audience.foldl (fun m id => ((visits id event).play m).1) m
  obtain ⟨told, s', heq, htold⟩ : ∃ (told : Module) (s' : σ), (m.deliver tell event).run s =
      ({ told with listeners := told.listeners.endRound }, s') ∧
        visited [] told = visited m.listeners.registered (m.next .beginRound) := by
    refine deliver_induction (P := fun rest told _ =>
      visited rest told = visited m.listeners.registered (m.next .beginRound)) rfl ?_
    intro id rest told s h
    rw [htell]
    exact h
  change _ = (visited _ _).next .endRound
  rw [heq, ← htold]
  rfl

theorem roundRecorded_fst (m : Module) (visits : ListenerId → Event → Visit) (event : Event) :
    (m.roundRecorded visits event).1 = (m.round visits event).1 := by
  have hrecorded : (m.roundRecorded visits event).1 = _ :=
    deliver_fst visits (fun _ _ _ => rfl) m []
  exact hrecorded.trans (deliver_fst visits (fun _ _ _ => rfl) m []).symm

theorem recorded_next (h : m.listeners.Recorded start minutes) (hround : m.listeners.round = none)
    (happening : Happening) (heq : m.nextRecorded happening = (after, more)) :
    after.listeners.Recorded start (minutes ++ more) ∧ after.listeners.round = none := by
  cases happening with
  | call visits files command =>
      have hlisteners := m.listeners_perform files command
      simp only [nextRecorded] at heq
      split at heq
      · obtain ⟨hrecorded, hover, -⟩ :=
          recorded_round (hlisteners ▸ h) (hlisteners ▸ hround) visits heq
        exact ⟨hrecorded, hover⟩
      · obtain ⟨rfl, rfl⟩ := Prod.mk.inj heq
        rw [hlisteners, List.append_nil]
        exact ⟨h, hround⟩
  | addListener =>
      obtain ⟨rfl, rfl⟩ := Prod.mk.inj heq
      exact ⟨h.came, hround⟩
  | removeListener id =>
      obtain ⟨rfl, rfl⟩ := Prod.mk.inj heq
      exact ⟨h.left id, (Listeners.remove_of_no_round hround id).2⟩
  | endRound =>
      obtain ⟨rfl, rfl⟩ := Prod.mk.inj heq
      rw [List.append_nil]
      exact ⟨h.endRound, m.listeners.round_endRound⟩

theorem recorded_run (h : m.listeners.Recorded start minutes) (hround : m.listeners.round = none)
    (happenings : List Happening) (heq : m.runRecorded happenings = (after, more)) :
    after.listeners.Recorded start (minutes ++ more) ∧ after.listeners.round = none := by
  induction happenings generalizing m minutes more with
  | nil =>
      obtain ⟨rfl, rfl⟩ := Prod.mk.inj heq
      exact ⟨(List.append_nil minutes).symm ▸ h, hround⟩
  | cons happening happenings ih =>
      obtain ⟨hrecorded, hround⟩ := recorded_next h hround happening rfl
      obtain ⟨hafter, hmore⟩ := Prod.mk.inj heq
      subst hafter hmore
      rw [← List.append_assoc]
      exact ih hrecorded hround rfl

/-- Whatever is done with a module from a time on when no round is going on, and whatever the
listeners do when they are told of something: between rounds exactly those are on the list, in that
order, who were there at first or have come since and have not been taken off, and whoever is to be
taken off, within a round or not, the answer is whether they are among them at that time. In each
round those are told who are on the list when it begins, each of them once and in that order, and
none who comes during the round; after it the list is as it was with the newcomers at its end,
without those taken off during the round. -/
theorem Reachable.audience_exact (h : m.Reachable) (hquiet : m.isNotifying = false)
    (happenings : List Happening) (hrun : m.runRecorded happenings = (after, minutes)) :
    after.isNotifying = false ∧
    after.listeners.registered = remaining m.listeners.registered minutes ∧
    (∀ before id answer later, minutes = before ++ .left id answer :: later →
      (answer = true ↔ id ∈ remaining m.listeners.registered before)) ∧
    ∀ visits files command event, (after.perform files command).event = some event →
      ∀ called more,
        (after.perform files command).module.roundRecorded visits event = (called, more) →
        (after.call visits files command).2 = called ∧
        audience more = after.listeners.registered ∧ (audience more).Nodup ∧
        (∀ id ∈ newcomers more, id ∉ audience more) ∧
        called.listeners.registered = remaining after.listeners.registered more := by
  have hround : m.listeners.round = none :=
    Option.not_isSome_iff_eq_none.1 (Bool.eq_false_iff.1 hquiet)
  obtain ⟨hrecorded, hover⟩ := recorded_run (h.distinct.recorded hround) hround happenings hrun
  rw [List.nil_append] at hrecorded
  refine ⟨congrArg Option.isSome hover, ?_, hrecorded.accurate, ?_⟩
  · exact (Listeners.roster_of_no_round hover).symm.trans hrecorded.roster
  · intro visits files command event hevent called more hcalled
    have hlisteners := after.listeners_perform files command
    have hbefore : (after.perform files command).module.listeners.Recorded
        after.listeners.registered [] :=
      hlisteners ▸ hrecorded.kempt.toDistinct.recorded hover
    obtain ⟨hround, hquiet, haudience⟩ :=
      recorded_round hbefore (hlisteners ▸ hover) visits hcalled
    rw [List.nil_append] at hround
    rw [hlisteners] at haudience
    obtain ⟨hnodup, -, hapart⟩ := List.nodup_append.1 hround.nodup
    refine ⟨?_, haudience, haudience ▸ hnodup, fun id hid hmem => ?_, ?_⟩
    · rw [call_of_announced visits hevent, ← roundRecorded_fst, hcalled]
    · exact hapart id (haudience ▸ hmem) id hid rfl
    · exact (Listeners.roster_of_no_round hquiet).symm.trans hround.roster

/-- A first listener that registers two more when it is told of something, and then wants itself
taken off the list twice and the second one once. The others want the fourth one taken off. -/
def quarrel (id : ListenerId) (_ : Event) : Visit :=
  if id = ⟨0⟩ then
    .addListener fun _ => .addListener fun _ => .removeListener ⟨0⟩ fun _ =>
      .removeListener ⟨0⟩ fun _ => .removeListener ⟨1⟩ fun _ => .leave
  else .removeListener ⟨3⟩ fun _ => .leave

/-- Three listeners register, and the second one is taken off the list before the others are told of
something. -/
def gathering : List Happening :=
  [.addListener, .addListener, .addListener, .removeListener ⟨1⟩, .call quarrel .empty .undo]

theorem audience_exact_gathering :
    let (after, minutes) := labelled.runRecorded gathering
    minutes = [.came ⟨0⟩, .came ⟨1⟩, .came ⟨2⟩, .left ⟨1⟩ true, .told ⟨0⟩, .came ⟨3⟩, .came ⟨4⟩,
      .left ⟨0⟩ true, .left ⟨0⟩ false, .left ⟨1⟩ false, .told ⟨2⟩, .left ⟨3⟩ true] ∧
    after.listeners.registered = [⟨2⟩, ⟨4⟩] ∧
    (after.call quarrel .empty .redo).2.listeners.registered = [⟨2⟩, ⟨4⟩] := by
  obtain ⟨-, hlist, -, hround⟩ := reachable_labelled.audience_exact rfl gathering rfl
  obtain ⟨hcall, -, -, -, hafter⟩ := hround quarrel .empty .redo _ rfl _ _ rfl
  exact ⟨by decide +kernel, hlist, hcall ▸ hafter⟩

end Module

end ReportModel
