import Dross.Thread.TimerFires
import Mathlib.Data.List.Perm.Subperm

/-!
# The timers of one call of run_pending

The boundary of the call is one reading of the clock and never changes, and no timer is
taken twice. A timer installed while the call runs has a deadline that `make` counts from
a reading of its own: where the clock has not moved on since the boundary was read, an
interval of zero makes it due at that boundary, and the call takes it too.
-/

namespace Dross

namespace Timers

variable {source : TimeSource} {s t : Timers} {i : Nat} {boundary : TimePoint}

/-- The loop once a call has taken the lock for the first time. -/
def begun (source : TimeSource) (s : Timers) (i : Nat) (call : Call) : Timers :=
  { s with runloop := { s.runloop.put i (s.runloop.start source.now call) with
      reads := s.runloop.reads + 1 } }

/-- A step before the end of time at which no timer is installed that is due at the boundary. -/
def InstallsLate (source : TimeSource) (boundary : TimePoint) (s t : Timers) : Prop :=
  Step source s t ∧ source.now s.runloop.reads < noDeadline ∧
    ∀ slot ∈ t.slots, slot.id ∉ s.installed → boundary < slot.deadline

/-- What the call knows: its boundary, and every timer it has taken. -/
structure Drains (source : TimeSource) (i : Nat) (boundary : TimePoint) (s : Timers) : Prop where
  sound : Sound source s
  reached : boundary ≤ source.now s.runloop.reads
  call : ∃ call, s.runloop.calls[i]? = some call ∧ call.kind = .runPending ∧
    call.started = true ∧ call.pass = ⟨boundary, s.takenBy i⟩
  once : (s.takenBy i).Nodup

/-- Every timer taken, or due, is an early one. -/
structure Early (i : Nat) (boundary : TimePoint) (early : List Nat) (s : Timers) : Prop where
  taken : ∀ id ∈ s.takenBy i, id ∈ early
  due : ∀ slot ∈ s.slots, slot.deadline ≤ boundary → slot.id ∈ early

/-! ## A turn of the call -/

section
variable {now : Nat → TimePoint} {reads : Nat} {loop : Loop} {call : Call} {timersDone : Bool}
  {turn : Loop.Turn}

theorem drained_take (round : Loop.Drained now reads loop call timersDone turn) {which : Slot}
    {slots : List Slot}
    (due : TimerSchedule.takeDue loop.timers call.pass.boundary (now reads) call.pass.handled =
      some (which, slots))
    (left : turn.1 = { loop with timers := slots }) (running : turn.2.2.control = .running) :
    turn.2.2.pass = ⟨call.pass.boundary, call.pass.handled ++ [which.id]⟩ := by
  cases round with
  | timer taken =>
    obtain ⟨rfl, _⟩ := Prod.mk.inj (Option.some.inj (taken.symm.trans due))
    rfl
  | timersDone idle => cases running
  | task front =>
    have pending := congrArg Loop.pending left
    simp [front] at pending
  | done => cases running

/-- A turn that takes no timer leaves the pass. -/
theorem drained_other (round : Loop.Drained now reads loop call timersDone turn)
    (idle : turn.1.pending = loop.pending → turn.2.2.control ≠ .running) :
    turn.2.2.pass = call.pass := by
  cases round with
  | timer => exact absurd rfl (idle rfl)
  | timersDone | task | done => rfl

end

/-- A call of `run_pending` that holds the lock is draining. -/
theorem Sound.draining (h : Sound source s) {call : Call} (at' : s.runloop.calls[i]? = some call)
    (kind : call.kind = .runPending) (held : s.runloop.holder = some i) :
    ∃ timersDone, call.control = .draining timersDone := by
  obtain ⟨holding, there, holds⟩ := h.runloop.held held
  obtain rfl := Option.some.inj (at'.symm.trans there)
  obtain ⟨looping, _, next⟩ := (h.runloop.sound call (List.mem_of_getElem? at')).drains kind
  cases control : call.control with
  | draining timersDone => exact ⟨timersDone, rfl⟩
  | looping => exact absurd control looping
  | next refreshed => exact absurd control (next refreshed)
  | entering | marked | waiting | running | leaving | returned | thrown =>
    rw [control] at holds
    cases holds

/-! ## A step of a run -/

theorem takenBy_append {other id : Nat} (takes : t.takes = s.takes ++ [(other, id)]) :
    t.takenBy i = if other = i then s.takenBy i ++ [id] else s.takenBy i := by
  unfold takenBy
  rw [takes, List.filter_append]
  split
  · next own => simp [own]
  · next own => simp [own]

theorem takenBy_same (takes : t.takes = s.takes) : t.takenBy i = s.takenBy i := by
  unfold takenBy
  rw [takes]

theorem Effect.moved (effect : Effect source s t) :
    t.runloop = s.runloop ∨ Runloop.Step source s.runloop t.runloop := by
  cases effect with
  | take at' held due left running runloop takes => exact Or.inr (runloop ▸ .turn _ _ at' held)
  | other runloop takes slots idle => exact runloop

theorem Effect.reads (effect : Effect source s t) : s.runloop.reads ≤ t.runloop.reads := by
  rcases effect.moved with same | step
  · rw [same]
  · exact step.calls.1

theorem Drains.step (h : Drains source i boundary s) (step : Step source s t) :
    Drains source i boundary t := by
  have effect := h.sound.effect step
  have reached := h.reached.trans (source.monotone _ _ effect.reads)
  obtain ⟨call, at', kind, started, pass⟩ := h.call
  cases effect with
  | @take j taker which slots there held due left running runloop takes =>
    rw [runloop] at left
    have turn : Runloop.Step source s.runloop t.runloop := runloop ▸ .turn j taker there held
    obtain ⟨after, at'', keeps⟩ := turn.keeps at'
    by_cases own : j = i
    · subst own
      obtain rfl := Option.some.inj (at'.symm.trans there)
      obtain ⟨timersDone, draining⟩ := h.sound.draining at' kind held
      have same : after = (s.runloop.turn source.now call).2.2 := by
        rw [runloop, Runloop.turned_call at'] at at''
        exact (Option.some.inj at'').symm
      have taken : t.takenBy j = s.takenBy j ++ [which.id] := by
        rw [takenBy_append takes, if_pos rfl]
      have passed : after.pass = ⟨boundary, t.takenBy j⟩ := by
        rw [same, drained_take (Runloop.turn_draining draining) due left running, pass, taken]
      refine ⟨h.sound.step step, reached, ⟨after, at'', keeps.kind.trans kind,
        keeps.started started, passed⟩, ?_⟩
      have new := (TimerSchedule.takeDue_due due).2
      rw [pass] at new
      rw [taken, List.nodup_append]
      refine ⟨h.once, List.pairwise_singleton _ _, ?_⟩
      rintro id mem other last rfl
      exact new (List.mem_singleton.mp last ▸ mem)
    · have taken : t.takenBy i = s.takenBy i := by rw [takenBy_append takes, if_neg own]
      rcases turn.acts at' with ⟨mine, _⟩ | ⟨call', there', same | ⟨free, _⟩⟩
      · exact absurd (Option.some.inj (held.symm.trans mine)) own
      · refine ⟨h.sound.step step, reached, ⟨call', there', ?_⟩, taken ▸ h.once⟩
        rw [same, taken]
        exact ⟨kind, started, pass⟩
      · rw [free] at held
        cases held
  | other runloop takes slots idle =>
    have taken : t.takenBy i = s.takenBy i := takenBy_same takes
    suffices known : ∃ call', t.runloop.calls[i]? = some call' ∧ call'.kind = .runPending ∧
        call'.started = true ∧ call'.pass = call.pass by
      obtain ⟨call', there', kind', started', pass'⟩ := known
      refine ⟨h.sound.step step, reached, ⟨call', there', kind', started', ?_⟩, taken ▸ h.once⟩
      rw [pass', pass, taken]
    rcases runloop with same | moves
    · rw [same]
      exact ⟨call, at', kind, started, rfl⟩
    rcases moves.acts at' with ⟨held, turned⟩ | ⟨call', there', same | ⟨free, moved⟩⟩
    · obtain ⟨timersDone, draining⟩ := h.sound.draining at' kind held
      have there' := @Runloop.turned_call source _ _ _ at'
      rw [← turned] at there'
      obtain ⟨after, at'', keeps⟩ := moves.keeps at'
      obtain rfl := Option.some.inj (there'.symm.trans at'')
      refine ⟨_, there', keeps.kind.trans kind, keeps.started started, ?_⟩
      refine drained_other (Runloop.turn_draining draining) fun pending running => ?_
      have before := idle (by rw [turned]; exact pending) i _ there' running
      have unmoved := congrArg Call.control (Option.some.inj (at'.symm.trans before))
      rw [draining, running] at unmoved
      cases unmoved
    · exact ⟨call', there', same ▸ kind, same ▸ started, same ▸ rfl⟩
    · obtain ⟨kind', started', pass'⟩ := moved.pass free started
      exact ⟨call', there', kind'.trans kind, started', pass'⟩

theorem Early.step {early : List Nat} (h : Early i boundary early s)
    (drains : Drains source i boundary s) (late : InstallsLate source boundary s t) :
    Early i boundary early t := by
  obtain ⟨step, inTime, installs⟩ := late
  obtain ⟨call, at', kind, started, pass⟩ := drains.call
  cases drains.sound.effect step with
  | @take j taker which slots there held due left running runloop takes =>
    obtain ⟨mem, claimed⟩ := TimerSchedule.takeDue_some due
    have came := (TimerSchedule.takeDue_due due).1
    constructor
    · intro id taken
      rw [takenBy_append takes] at taken
      split at taken
      · next own =>
        subst own
        obtain rfl := Option.some.inj (at'.symm.trans there)
        rcases List.mem_append.mp taken with old | last
        · exact h.taken id old
        · rw [List.mem_singleton.mp last]
          rw [pass] at came
          exact h.due which mem came
      · exact h.taken id taken
    · intro slot new le
      rw [Timers.slots, left, claimed] at new
      rcases TimerSchedule.claim_slot new with old | ⟨same, deadline⟩
      · exact h.due slot old le
      · -- due again only where the clock still reads the boundary, and so due before
        have again := @Deadline.le_after _ which.interval inTime
        rw [← deadline] at again
        obtain ⟨holding, there', holds⟩ := drains.sound.runloop.held held
        obtain rfl := Option.some.inj (there.symm.trans there')
        have started := Runloop.started_of_holds holds
        have passed := drains.sound.runloop.boundary_le (List.mem_of_getElem? there) started
        rw [same]
        exact h.due which mem (came.trans (passed.trans (again.trans le)))
  | other runloop takes slots idle =>
    constructor
    · rw [takenBy_same takes]
      exact h.taken
    · intro slot mem le
      rcases slots slot mem with old | ⟨new, _⟩
      · exact h.due slot old le
      · exact absurd (installs slot mem new) (Int.not_lt.mpr le)

/-! ## A run from the start of the call -/

/-- The timers due at a boundary. -/
def dueAt (s : Timers) (boundary : TimePoint) : List Nat :=
  (s.slots.filter (fun slot => decide (slot.deadline ≤ boundary))).map Slot.id

theorem mem_dueAt {id : Nat} :
    id ∈ s.dueAt boundary ↔ ∃ slot ∈ s.slots, slot.id = id ∧ slot.deadline ≤ boundary := by
  unfold dueAt
  simp only [List.mem_map, List.mem_filter, decide_eq_true_eq]
  exact ⟨fun ⟨slot, ⟨mem, le⟩, same⟩ => ⟨slot, mem, same, le⟩,
    fun ⟨slot, mem, same, le⟩ => ⟨slot, ⟨mem, le⟩, same⟩⟩

theorem Reachable.untakenBy (h : s.Reachable source) {call : Call}
    (at' : s.runloop.calls[i]? = some call) (marked : call.control = .marked) :
    s.takenBy i = [] := by
  rw [List.eq_nil_iff_forall_not_mem]
  intro id taken
  obtain ⟨taker, there, started⟩ := h.takers _ (mem_takenBy.mp taken)
  obtain rfl := Option.some.inj (at'.symm.trans there)
  simp [Call.started, marked] at started

theorem begun_step {call : Call} (at' : s.runloop.calls[i]? = some call)
    (free : s.runloop.holder = none) (marked : call.control = .marked) :
    Step source s (s.begun source i call) := by
  refine .other (.start i call at' free marked) rfl rfl ?_ ?_
  · intro j busy there running
    have other : i ≠ j := by
      rintro rfl
      obtain rfl := Option.some.inj (at'.symm.trans there)
      rw [marked] at running
      cases running
    exact (List.getElem?_set_ne other).trans there
  · intro _ j busy there running
    by_cases own : i = j
    · subst own
      have there := (List.getElem?_set_self (List.getElem?_eq_some_iff.mp at').1).symm.trans there
      obtain rfl := Option.some.inj there
      revert running
      unfold Runloop.start
      cases call.kind with
      | run | runOne | runFor | runPending => nofun
    · exact (List.getElem?_set_ne own).symm.trans there

theorem Reachable.drains_begun (h : s.Reachable source) {call : Call}
    (at' : s.runloop.calls[i]? = some call) (free : s.runloop.holder = none)
    (marked : call.control = .marked) (kind : call.kind = .runPending) :
    Drains source i (source.now s.runloop.reads) (s.begun source i call) := by
  have none : (s.begun source i call).takenBy i = [] := h.untakenBy at' marked
  refine ⟨h.sound.step (begun_step at' free marked), source.monotone _ _ (Nat.le_succ _),
    ⟨s.runloop.start source.now call,
      List.getElem?_set_self (List.getElem?_eq_some_iff.mp at').1, ?_⟩, ?_⟩
  · rw [none]
    simp [Runloop.start, kind, Call.started]
  · rw [none]
    exact List.nodup_nil

/-- A turn of the timer loop takes a timer, or finds that every timer due has been taken. -/
theorem Drains.turn (h : Drains source i boundary s) {call : Call}
    (at' : s.runloop.calls[i]? = some call) (draining : call.control = .draining false) :
    ((s.runloop.turn source.now call).2.2.control = .running ∧ ∃ id, id ∉ s.takenBy i ∧
        (s.runloop.turn source.now call).2.2.pass.handled = s.takenBy i ++ [id]) ∨
      ((s.runloop.turn source.now call).2.2.control = .draining true ∧
        ∀ id ∈ s.dueAt boundary, id ∈ s.takenBy i) := by
  obtain ⟨known, there, _, _, pass⟩ := h.call
  obtain rfl := Option.some.inj (at'.symm.trans there)
  have round := @Runloop.turn_draining source.now s.runloop _ _ draining
  generalize s.runloop.turn source.now call = turn at round
  cases round with
  | @timer which slots due =>
    have new := (TimerSchedule.takeDue_due due).2
    rw [pass] at new
    exact Or.inl ⟨rfl, which.id, new, by rw [pass]⟩
  | timersDone idle =>
    refine Or.inr ⟨rfl, fun id mem => ?_⟩
    obtain ⟨slot, there, rfl, le⟩ := mem_dueAt.mp mem
    have late := idle slot there
    rw [pass] at late
    by_contra untaken
    exact Bool.false_ne_true (late.symm.trans (TimerSchedule.due_iff.mpr ⟨le, untaken⟩))

/-- In every run in which no timer is installed that is due at its boundary, a call of
`run_pending` takes only timers that were installed and due when it started, each once, and so
no more than were installed. In any run its timer loop goes on until it has taken every timer
due, whenever that was installed. -/
theorem run_pending_chases_none (source : TimeSource) (s : Timers) (h : s.Reachable source)
    (i : Nat) (call : Call) (at' : s.runloop.calls[i]? = some call)
    (free : s.runloop.holder = none) (marked : call.control = .marked)
    (kind : call.kind = .runPending) :
    (∀ t, Relation.ReflTransGen (InstallsLate source (source.now s.runloop.reads))
        (s.begun source i call) t →
      (t.takenBy i).Nodup ∧
      (∀ id ∈ t.takenBy i, ∃ slot ∈ s.slots, slot.id = id ∧
        slot.deadline ≤ source.now s.runloop.reads) ∧
      (t.takenBy i).length ≤ s.slots.length) ∧
    ∀ t, Relation.ReflTransGen (Step source) (s.begun source i call) t →
      (t.takenBy i).Nodup ∧
      ∀ call', t.runloop.calls[i]? = some call' → call'.control = .draining false →
        ((t.runloop.turn source.now call').2.2.control = .running ∧ ∃ id, id ∉ t.takenBy i ∧
          (t.runloop.turn source.now call').2.2.pass.handled = t.takenBy i ++ [id]) ∨
        ((t.runloop.turn source.now call').2.2.control = .draining true ∧
          ∀ id ∈ t.dueAt (source.now s.runloop.reads), id ∈ t.takenBy i) := by
  have begun := h.drains_begun at' free marked kind
  have early : Early i (source.now s.runloop.reads) (s.dueAt (source.now s.runloop.reads))
      (s.begun source i call) := by
    constructor
    · intro id taken
      have none : (s.begun source i call).takenBy i = [] := h.untakenBy at' marked
      rw [none] at taken
      cases taken
    · exact fun slot mem le => mem_dueAt.mpr ⟨slot, mem, rfl, le⟩
  constructor
  · intro t run
    have known := Transition.preserved (P := fun u =>
      Drains source i (source.now s.runloop.reads) u ∧
        Early i (source.now s.runloop.reads) (s.dueAt (source.now s.runloop.reads)) u)
      (fun u v known late => ⟨known.1.step late.1, known.2.step known.1 late⟩) ⟨begun, early⟩ run
    refine ⟨known.1.once, fun id taken => mem_dueAt.mp (known.2.taken id taken), ?_⟩
    have few := (List.Nodup.subperm known.1.once known.2.taken).length_le
    rw [dueAt, List.length_map] at few
    exact few.trans (List.length_filter_le _ _)
  · intro t run
    have known := Transition.preserved (P := Drains source i (source.now s.runloop.reads))
      (fun u v known step => known.step step) begun run
    exact ⟨known.once, fun call' there draining => known.turn there draining⟩

/-! ## A callback that installs another timer -/

/-- A one-shot timer of no interval, installed, and a call of `run_pending` with its mark. -/
theorem urgent_marked : ∃ s : Timers, s.Reachable Runloop.stoppedClock ∧ ∃ call,
    s.runloop.calls[0]? = some call ∧ s.runloop.holder = none ∧ call.control = .marked ∧
      call.kind = .runPending ∧ s.slots = [⟨0, false, 0, 0⟩] ∧
      (∃ t, Relation.ReflTransGen (InstallsLate Runloop.stoppedClock 0) (s.begun Runloop.stoppedClock 0 call) t ∧
        t.takenBy 0 = [0]) ∧
      ∃ t, Relation.ReflTransGen (Step Runloop.stoppedClock) (s.begun Runloop.stoppedClock 0 call) t ∧
        t.takenBy 0 = [0, 1] := by
  have start : Reachable Runloop.stoppedClock ⟨Runloop.initial, fun _ => none, 0, [], [], [], []⟩ :=
    Transition.Reachable.start ⟨0, rfl⟩
  have made := Transition.Reachable.next start (.make false 0)
  have installed := Transition.Reachable.next made
    (@Step.install _ _ 0 ⟨false, 0, true, _⟩ _ rfl rfl rfl)
  have returned := Transition.Reachable.next installed (@Step.returns _ _ 0 _ rfl rfl)
  have entered := Transition.Reachable.next returned
    (.resting (.enter .runPending nofun) rfl rfl (by decide) (by decide))
  have marked := Transition.Reachable.next entered
    (.resting (.mark 0 _ rfl rfl rfl) rfl rfl (by decide) (by decide))
  refine ⟨_, marked, _, rfl, rfl, rfl, rfl, rfl, ?_, ?_⟩
  · refine ⟨_, Relation.ReflTransGen.single ⟨.take 0 _ rfl rfl rfl rfl rfl, by decide, ?_⟩, rfl⟩
    exact fun slot mem _ => absurd mem List.not_mem_nil
  · -- in the callback of the first timer a second is made, and the clock reads the same
    exact ⟨_, .head (.take 0 _ rfl rfl rfl rfl rfl) <|
      .head (.calls 0 rfl) <|
      .head (.make false 0) <|
      .head (@Step.install _ _ 1 ⟨false, 0, true, _⟩ _ rfl rfl rfl) <|
      .head (@Step.returns _ _ 1 _ rfl rfl) <|
      .head (.back 0 rfl) <|
      .head (@Step.fired _ _ 0 _ _ _ rfl rfl rfl) <|
      .head (.ran 0 _ rfl rfl rfl (by decide)) <|
      .single (.take 0 _ rfl rfl rfl rfl rfl), rfl⟩

theorem run_pending_chases_none_urgent :
    ∃ s : Timers, s.Reachable Runloop.stoppedClock ∧ ∃ t : Timers,
    t.takenBy 0 = [0] ∧
    (∀ id ∈ t.takenBy 0, ∃ slot ∈ s.slots, slot.id = id ∧ slot.deadline ≤ 0) ∧
    (t.takenBy 0).length ≤ s.slots.length := by
  obtain ⟨s, reachable, call, at', free, marked, kind, _, ⟨t, run, taken⟩, _⟩ := urgent_marked
  have known := (run_pending_chases_none Runloop.stoppedClock s reachable 0 call at' free marked kind).1 t run
  exact ⟨s, reachable, t, taken, known.2⟩

/-- Where the clock stands still, the timer a callback installs is taken in the same call. -/
theorem run_pending_chases : ∃ s : Timers, s.Reachable Runloop.stoppedClock ∧ ∃ call,
    s.runloop.calls[0]? = some call ∧ s.runloop.holder = none ∧ call.control = .marked ∧
    call.kind = .runPending ∧ ∃ t, Relation.ReflTransGen (Step Runloop.stoppedClock)
      (s.begun Runloop.stoppedClock 0 call) t ∧
    (¬ ∀ id ∈ t.takenBy 0, ∃ slot ∈ s.slots, slot.id = id ∧ slot.deadline ≤ 0) ∧
    ¬ (t.takenBy 0).length ≤ s.slots.length := by
  obtain ⟨s, reachable, call, at', free, marked, kind, slots, _, t, run, taken⟩ := urgent_marked
  refine ⟨s, reachable, call, at', free, marked, kind, t, run, fun early => ?_, ?_⟩
  · obtain ⟨slot, mem, same, _⟩ := early 1 (by simp [taken])
    rw [slots, List.mem_singleton] at mem
    rw [mem] at same
    cases same
  · simp [taken, slots]

end Timers

end Dross
