import Dross.Thread.RunloopReturns
import Dross.Thread.RunloopTurns

/-!
# The passes of a running call

A call has a pass of its own: a boundary it read from the clock, and the timers taken
since. Only its own turns change either. A round of `next` takes a timer that is due in
the pass and not handled, and comes to the queue when there is none; the pass is read anew
with a task, and once more before the call waits.
-/

namespace Dross

namespace Deadline

/-- A deadline is not before the time it is counted from, unless that is the end of time. -/
theorem le_after {base : TimePoint} {timeout : Int} (inTime : base < noDeadline) :
    base ≤ after base timeout := by
  unfold after
  dsimp only
  split
  · exact Int.le_refl base
  · split
    · next positive _ =>
      have : 0 < nanoseconds timeout := by
        unfold nanoseconds
        omega
      exact Int.le_add_of_nonneg_right (Int.le_of_lt this)
    · exact Int.le_sub_one_of_lt inTime

end Deadline

namespace TimerSchedule

theorem due_iff {boundary : TimePoint} {handled : List Nat} {slot : Slot} :
    due boundary handled slot = true ↔ slot.deadline ≤ boundary ∧ slot.id ∉ handled := by
  simp [due]

theorem earliestDue_due {boundary : TimePoint} {handled : List Nat} {slots : List Slot}
    {found : Option Slot} {which : Slot}
    (before : ∀ slot, found = some slot → due boundary handled slot = true)
    (h : earliestDue boundary handled slots found = some which) :
    due boundary handled which = true := by
  induction slots generalizing found with
  | nil => exact before which h
  | cons slot slots ih =>
    simp only [earliestDue] at h
    split at h
    · next here =>
      have first : ∀ other, some slot = some other → due boundary handled other = true := by
        rintro other ⟨⟩
        exact here
      split at h
      · exact ih first h
      · refine ih ?_ h
        intro other same
        split at same
        · exact first other same
        · exact before other same
    · exact ih before h

/-- What is taken was due. -/
theorem takeDue_due {slots left : List Slot} {boundary claimedAt : TimePoint} {handled : List Nat}
    {which : Slot} (h : takeDue slots boundary claimedAt handled = some (which, left)) :
    which.deadline ≤ boundary ∧ which.id ∉ handled := by
  rw [takeDue, Option.map_eq_some_iff] at h
  obtain ⟨slot, earliest, same⟩ := h
  obtain ⟨rfl, _⟩ := Prod.mk.inj same
  exact due_iff.mp (earliestDue_due (fun _ none => by cases none) earliest)

/-- A claim leaves every slot as it was, but for the deadline of the timer it takes. -/
theorem claim_slot {slots : List Slot} {which slot : Slot} {claimedAt : TimePoint}
    (h : slot ∈ claim slots which claimedAt) :
    slot ∈ slots ∨
      slot.id = which.id ∧ slot.deadline = Deadline.after claimedAt which.interval := by
  unfold claim at h
  split at h
  · obtain ⟨old, mem, same⟩ := List.mem_map.mp h
    split at same
    · next own =>
      rw [← same]
      exact Or.inr ⟨own, rfl⟩
    · rw [← same]
      exact Or.inl mem
  · exact Or.inl (List.mem_of_mem_eraseP h)

end TimerSchedule

/-- What a call takes from a loop. -/
inductive Work where
  | timer (id : Nat)
  | task (sequence : Nat)
  deriving DecidableEq, Repr

namespace Loop

variable {now : Nat → TimePoint} {reads : Nat} {loop : Loop} {call : Call}

/-- What a round of `next` takes. -/
def nextTakes (now : Nat → TimePoint) (reads : Nat) (loop : Loop) (call : Call) : Option Work :=
  if loop.quit then none
  else
    match TimerSchedule.takeDue loop.timers call.pass.boundary (now reads) call.pass.handled with
    | some which => some (.timer which.1.id)
    | none => loop.pending.head?.map .task

/-- What a round of `run_pending` takes. -/
def drainTakes (now : Nat → TimePoint) (reads : Nat) (loop : Loop) (call : Call)
    (timersDone : Bool) : Option Work :=
  if timersDone then
    (loop.pending.head?.filter (fun sequence => decide (sequence < call.limit))).map .task
  else
    (TimerSchedule.takeDue loop.timers call.pass.boundary (now reads) call.pass.handled).map
      (fun which => .timer which.1.id)

/-- Whether nothing is due in the pass of a call. -/
def NoneDue (loop : Loop) (call : Call) : Prop :=
  ∀ slot ∈ loop.timers, TimerSchedule.due call.pass.boundary call.pass.handled slot = false

/-- The rounds of `next`, with what each takes. -/
inductive Round (now : Nat → TimePoint) (reads : Nat) (loop : Loop) (call : Call) :
    Option Work → Turn → Prop
  | quits (quit : loop.quit = true) :
      Round now reads loop call none
        ({ loop with quit := ! call.outermost }, reads,
          { call with sawQuit := true, control := .leaving })
  | timer {which : Slot} {slots : List Slot} (going : loop.quit = false)
      (due : TimerSchedule.takeDue loop.timers call.pass.boundary (now reads) call.pass.handled =
        some (which, slots)) :
      Round now reads loop call (some (.timer which.id))
        ({ loop with timers := slots }, reads + 1,
          { call with
            pass := ⟨call.pass.boundary, call.pass.handled ++ [which.id]⟩
            control := .running })
  | task {sequence : Nat} {rest : List Nat} (going : loop.quit = false)
      (timers : loop.timers ≠ []) (idle : loop.NoneDue call)
      (front : loop.pending = sequence :: rest) :
      Round now reads loop call (some (.task sequence))
        ({ loop with pending := rest }, reads + 2,
          { call with pass := ⟨now (reads + 1), []⟩, control := .running })
  | taskAlone {sequence : Nat} {rest : List Nat} (going : loop.quit = false)
      (timers : loop.timers = []) (front : loop.pending = sequence :: rest) :
      Round now reads loop call (some (.task sequence))
        ({ loop with pending := rest }, reads, { call with control := .running })
  | refresh (going : loop.quit = false) (timers : loop.timers ≠ []) (idle : loop.NoneDue call)
      (empty : loop.pending = []) :
      Round now reads loop call none
        (loop, reads + 2, { call with pass := ⟨now (reads + 1), []⟩, control := .next true })
  | wait {later : Nat} {control : Control} (going : loop.quit = false) (idle : loop.NoneDue call)
      (empty : loop.pending = []) (le : reads ≤ later)
      (resting : control = .leaving ∨ control = .waiting) :
      Round now reads loop call none (loop, later, { call with control := control })

/-- The rounds of `run_pending`, of its timers and then of its tasks. -/
inductive Drained (now : Nat → TimePoint) (reads : Nat) (loop : Loop) (call : Call) :
    Bool → Turn → Prop
  | timer {which : Slot} {slots : List Slot}
      (due : TimerSchedule.takeDue loop.timers call.pass.boundary (now reads) call.pass.handled =
        some (which, slots)) :
      Drained now reads loop call false
        ({ loop with timers := slots }, reads + 1,
          { call with
            pass := ⟨call.pass.boundary, call.pass.handled ++ [which.id]⟩
            control := .running })
  | timersDone (idle : loop.NoneDue call) :
      Drained now reads loop call false
        (loop, reads + 1, { call with timersDone := true, control := .draining true })
  | task {sequence : Nat} {rest : List Nat} (front : loop.pending = sequence :: rest) :
      Drained now reads loop call true
        ({ loop with pending := rest }, reads, { call with control := .running })
  | done : Drained now reads loop call true (loop, reads, { call with control := .leaving })

theorem drain_round (timersDone : Bool) :
    Drained now reads loop call timersDone (loop.drain now reads call timersDone) := by
  unfold drain
  cases timersDone with
  | true =>
    rw [if_pos rfl]
    split
    · next front =>
      split
      · exact .task front
      · exact .done
    · exact .done
  | false =>
    rw [if_neg Bool.false_ne_true]
    split
    · next taken => exact .timer taken
    · next taken => exact .timersDone (TimerSchedule.takeDue_none.mp taken)

theorem waitCheck_round {later : Nat} (going : loop.quit = false) (idle : loop.NoneDue call)
    (empty : loop.pending = []) (le : reads ≤ later) :
    Round now reads loop call none (loop.waitCheck now later call) := by
  unfold waitCheck
  dsimp only
  refine .wait going idle empty (Nat.le_succ_of_le le) ?_
  split
  · exact Or.inl rfl
  · exact Or.inr rfl

theorem nextTakes_task (going : loop.quit = false) (idle : loop.NoneDue call) :
    loop.nextTakes now reads call = loop.pending.head?.map .task := by
  simp [nextTakes, going, TimerSchedule.takeDue_none.mpr idle]

/-- Every turn of `next` is one of its rounds. -/
theorem next_round (refreshed : Bool) :
    Round now reads loop call (loop.nextTakes now reads call)
      (loop.next now reads call refreshed) := by
  cases quit : loop.quit with
  | true =>
    have takes : loop.nextTakes now reads call = none := by simp [nextTakes, quit]
    have eq : loop.next now reads call refreshed = ({ loop with quit := ! call.outermost }, reads,
        { call with sawQuit := true, control := .leaving }) := by
      simp [next, quit]
    rw [takes, eq]
    exact .quits quit
  | false =>
    by_cases timers : loop.timers = []
    · have idle : loop.NoneDue call := by simp [NoneDue, timers]
      rw [nextTakes_task quit idle]
      cases pending : loop.pending with
      | nil =>
        rw [Runloop.next_waits quit pending (Or.inl timers) idle]
        exact waitCheck_round quit idle pending (by simp [timers])
      | cons sequence rest =>
        have eq : loop.next now reads call refreshed =
            ({ loop with pending := rest }, reads, { call with control := .running }) := by
          simp [next, quit, timers, pending]
        rw [eq]
        exact .taskAlone quit timers pending
    · cases taken : TimerSchedule.takeDue loop.timers call.pass.boundary (now reads)
          call.pass.handled with
      | some which =>
        have takes : loop.nextTakes now reads call = some (.timer which.1.id) := by
          simp [nextTakes, quit, taken]
        have eq : loop.next now reads call refreshed =
            ({ loop with timers := which.2 }, reads + 1,
              { call with
                pass := ⟨call.pass.boundary, call.pass.handled ++ [which.1.id]⟩
                control := .running }) := by
          simp [next, quit, timers, taken]
        rw [takes, eq]
        exact .timer quit taken
      | none =>
        have idle := TimerSchedule.takeDue_none.mp taken
        rw [nextTakes_task quit idle]
        cases pending : loop.pending with
        | cons sequence rest =>
          have eq : loop.next now reads call refreshed =
              ({ loop with pending := rest }, reads + 2,
                { call with pass := ⟨now (reads + 1), []⟩, control := .running }) := by
            simp [next, quit, timers, taken, pending]
          rw [eq]
          exact .task quit timers idle pending
        | nil =>
          cases refreshed with
          | true =>
            rw [Runloop.next_waits quit pending (Or.inr rfl) idle]
            refine waitCheck_round quit idle pending ?_
            split
            · exact Nat.le_refl reads
            · exact Nat.le_succ reads
          | false =>
            have eq : loop.next now reads call false =
                (loop, reads + 2,
                  { call with pass := ⟨now (reads + 1), []⟩, control := .next true }) := by
              simp [next, quit, timers, taken, pending]
            rw [eq]
            exact .refresh quit timers idle pending

end Loop

namespace Runloop

variable {source : TimeSource} {now : Nat → TimePoint} {s t : Runloop} {call : Call}

/-- What a call can do with a turn, by where it is. -/
inductive Outcome (now : Nat → TimePoint) (s : Runloop) (call : Call) : Loop.Turn → Prop
  | looping {later : Nat} {control : Control} (at' : call.control = .looping)
      (after : control = .next false ∨ control = .leaving) :
      Outcome now s call (s.loop, later, { call with control := control })
  | next {refreshed : Bool} {work : Option Work} {turn : Loop.Turn}
      (at' : call.control = .next refreshed)
      (round : Loop.Round now s.reads s.loop call work turn) : Outcome now s call turn
  | draining {timersDone : Bool} {turn : Loop.Turn} (at' : call.control = .draining timersDone)
      (round : Loop.Drained now s.reads s.loop call timersDone turn) : Outcome now s call turn
  | unheld (free : call.control.holds = false) : Outcome now s call (s.loop, s.reads, call)

theorem turn_outcome : Outcome now s call (s.turn now call) := by
  unfold Runloop.turn
  cases control : call.control with
  | looping =>
    simp only [Loop.condition]
    split
    · exact .looping control (Or.inl rfl)
    · split
      · exact .looping control (Or.inl rfl)
      · exact .looping control (Or.inr rfl)
  | next refreshed => exact .next control (Loop.next_round refreshed)
  | draining timersDone => exact .draining control (Loop.drain_round timersDone)
  | entering | marked | waiting | running | leaving | returned | thrown =>
    exact .unheld (by rw [control]; rfl)

/-- The boundary of a pass that a turn leaves is the one it found, or a reading of the turn. -/
theorem turn_boundary :
    (s.turn now call).2.2.pass.boundary = call.pass.boundary ∨
      ∃ reading, s.reads ≤ reading ∧ reading < (s.turn now call).2.1 ∧
        (s.turn now call).2.2.pass.boundary = now reading := by
  have outcome := @turn_outcome now s call
  generalize s.turn now call = turn at outcome
  cases outcome with
  | next at' round =>
    cases round with
    | quits | timer | taskAlone | wait => exact Or.inl rfl
    | task | refresh => exact Or.inr ⟨s.reads + 1, Nat.le_succ _, Nat.lt_succ_self _, rfl⟩
  | draining at' round => cases round <;> exact Or.inl rfl
  | looping | unheld => exact Or.inl rfl

/-- The boundary of a call that has started is a reading taken before. -/
def BoundaryRead (source : TimeSource) (reads : Nat) (call : Call) : Prop :=
  call.started = true → ∃ reading < reads, call.pass.boundary = source.now reading

theorem Moves.boundaryRead {call' : Call} {reads : Nat} (le : s.reads ≤ reads)
    (moves : Moves source s call reads call') (h : BoundaryRead source s.reads call) :
    BoundaryRead source reads call' := by
  have same (started : call.started = true) (pass : call'.pass = call.pass) :
      ∃ reading < reads, call'.pass.boundary = source.now reading := by
    obtain ⟨reading, less, eq⟩ := h started
    exact ⟨reading, Nat.lt_of_lt_of_le less le, pass ▸ eq⟩
  intro started
  cases moves with
  | mark outermost entering => cases started
  | start marked =>
    refine ⟨s.reads, Nat.lt_succ_self _, ?_⟩
    unfold Runloop.start
    cases call.kind with
    | run | runOne | runFor | runPending => rfl
  | turn i at' held =>
    rcases @turn_boundary source.now s call with kept | ⟨reading, _, less, eq⟩
    · have before : call.started = true := by
        by_contra unstarted
        unfold Runloop.turn at started
        unfold Call.started at unstarted started
        cases at' : call.control with
        | entering | marked => simp [at'] at started
        | looping | next | draining | waiting | running | leaving | returned | thrown =>
          simp [at'] at unstarted
      obtain ⟨reading, less, eq⟩ := h before
      exact ⟨reading, Nat.lt_of_lt_of_le less le, kept.trans eq⟩
    · exact ⟨reading, less, eq⟩
  | wake waiting => exact same (by rw [Call.started, waiting]) rfl
  | ran running =>
    refine same (by rw [Call.started, running]) ?_
    unfold Runloop.ranOne
    cases call.kind with
    | run | runOne | runFor | runPending => rfl
  | throws running => exact same (by rw [Call.started, running]) rfl
  | unmark leaving => exact same (by rw [Call.started, leaving]) rfl

theorem Reachable.boundaryRead (h : Reachable source s) :
    ∀ call ∈ s.calls, BoundaryRead source s.reads call := by
  refine Transition.Reachable.invariant
    (P := fun s => ∀ call ∈ s.calls, BoundaryRead source s.reads call) ?_ ?_ h
  · rintro s rfl
    simp [initial]
  · intro s t known step call' mem
    obtain ⟨le, calls⟩ := step.calls
    rcases calls call' mem with old | ⟨kind, deadline, _, rfl⟩ | ⟨call, mem, moves⟩
    · intro started
      obtain ⟨reading, less, eq⟩ := known call' old started
      exact ⟨reading, Nat.lt_of_lt_of_le less le, eq⟩
    · intro started
      cases started
    · exact moves.boundaryRead le (known call mem)

/-- No pass is ahead of the clock. -/
theorem Reachable.boundary_le (h : Reachable source s) (mem : call ∈ s.calls)
    (started : call.started = true) : call.pass.boundary ≤ source.now s.reads := by
  obtain ⟨reading, less, eq⟩ := h.boundaryRead call mem started
  rw [eq]
  exact source.monotone _ _ (Nat.le_of_lt less)

theorem turn_next {refreshed : Bool} (next : call.control = .next refreshed) :
    Loop.Round now s.reads s.loop call (s.loop.nextTakes now s.reads call) (s.turn now call) := by
  unfold Runloop.turn
  rw [next]
  exact Loop.next_round refreshed

theorem turn_draining {timersDone : Bool} (draining : call.control = .draining timersDone) :
    Loop.Drained now s.reads s.loop call timersDone (s.turn now call) := by
  unfold Runloop.turn
  rw [draining]
  exact Loop.drain_round timersDone

theorem started_of_holds (holds : call.control.holds = true) : call.started = true := by
  unfold Call.started
  cases control : call.control with
  | entering | marked =>
    rw [control] at holds
    cases holds
  | looping | next | draining | waiting | running | leaving | returned | thrown => rfl

/-- A clock that has not moved on. -/
def stoppedClock : TimeSource where
  now _ := 0
  monotone _ _ _ := Int.le_refl 0

/-! ## Whose step it is -/

/-- The loop after the turn of a call. -/
def turned (source : TimeSource) (s : Runloop) (i : Nat) (call : Call) : Runloop :=
  { s.put i (s.turn source.now call).2.2 with
    loop := (s.turn source.now call).1
    reads := (s.turn source.now call).2.1 }

theorem turned_call {i : Nat} (at' : s.calls[i]? = some call) :
    (s.turned source i call).calls[i]? = some (s.turn source.now call).2.2 :=
  List.getElem?_set_self (List.getElem?_eq_some_iff.mp at').1

/-- For a call, a step is a turn of its own, a move of its own with the lock free, or nothing. -/
theorem Step.acts (step : Step source s t) {i : Nat} (at' : s.calls[i]? = some call) :
    (s.holder = some i ∧ t = s.turned source i call) ∨
      ∃ call', t.calls[i]? = some call' ∧
        (call' = call ∨ s.holder = none ∧ Moves source s call t.reads call') := by
  have same : ∃ call', s.calls[i]? = some call' ∧
      (call' = call ∨ s.holder = none ∧ Moves source s call t.reads call') :=
    ⟨call, at', Or.inl rfl⟩
  have more (new : Call) : ∃ call', (s.calls ++ [new])[i]? = some call' ∧
      (call' = call ∨ s.holder = none ∧ Moves source s call t.reads call') :=
    ⟨call, by rw [List.getElem?_append_left (List.getElem?_eq_some_iff.mp at').1, at'], Or.inl rfl⟩
  have put {j : Nat} {before after : Call} (there : s.calls[j]? = some before)
      (moves : j = i → s.holder = none ∧ Moves source s before t.reads after) :
      ∃ call', (s.calls.set j after)[i]? = some call' ∧
        (call' = call ∨ s.holder = none ∧ Moves source s call t.reads call') := by
    by_cases own : j = i
    · obtain ⟨free, acts⟩ := moves own
      subst own
      obtain rfl := Option.some.inj (there.symm.trans at')
      have bound := (List.getElem?_eq_some_iff.mp at').1
      exact ⟨after, List.getElem?_set_self bound, Or.inr ⟨free, acts⟩⟩
    · exact ⟨call, by rw [List.getElem?_set_ne own, at'], Or.inl rfl⟩
  cases step with
  | enqueue | installTimer | removeTimer | quit | clear | finish | read => exact Or.inr same
  | enter kind untimed => exact Or.inr (more _)
  | enterFor timeout => exact Or.inr (more _)
  | mark j before there free entering =>
    exact Or.inr (put there fun _ => ⟨free, .mark _ entering⟩)
  | start j before there free marked => exact Or.inr (put there fun _ => ⟨free, .start marked⟩)
  | turn j before there held =>
    by_cases own : j = i
    · subst own
      obtain rfl := Option.some.inj (there.symm.trans at')
      exact Or.inl ⟨held, rfl⟩
    · exact Or.inr (put there fun same => absurd same own)
  | wake j before there free waiting => exact Or.inr (put there fun _ => ⟨free, .wake waiting⟩)
  | ran j before there free running => exact Or.inr (put there fun _ => ⟨free, .ran running⟩)
  | throws j before there running free => exact Or.inr (put there fun _ => ⟨free, .throws running⟩)
  | unmark j before there free leaving => exact Or.inr (put there fun _ => ⟨free, .unmark leaving⟩)

/-- A call that was not there before a step has just been made. -/
theorem Step.entered (step : Step source s t) {i : Nat} {call' : Call}
    (at' : t.calls[i]? = some call') :
    (∃ call, s.calls[i]? = some call) ∨ call'.control = .entering := by
  have within (bound : i < s.calls.length) :
      (∃ call, s.calls[i]? = some call) ∨ call'.control = .entering :=
    Or.inl ⟨_, List.getElem?_eq_getElem bound⟩
  have bound := (List.getElem?_eq_some_iff.mp at').1
  have more {kind : RunKind} {deadline : TimePoint}
      (new : (s.calls ++ [Runloop.enter kind deadline])[i]? = some call') :
      (∃ call, s.calls[i]? = some call) ∨ call'.control = .entering := by
    rcases Nat.lt_or_ge i s.calls.length with old | out
    · exact within old
    · rw [List.getElem?_append_right out] at new
      obtain rfl := List.mem_singleton.mp (List.mem_of_getElem? new)
      exact Or.inr rfl
  cases step with
  | enqueue | installTimer | removeTimer | quit | clear | finish | read => exact within bound
  | enter kind untimed => exact more at'
  | enterFor timeout => exact more at'
  | mark | start | turn | wake | ran | throws | unmark =>
    exact within (List.length_set ▸ bound)

/-- Without a turn of its own, a call that has started keeps its pass. -/
theorem Moves.pass {call' : Call} {reads : Nat} (moves : Moves source s call reads call')
    (free : s.holder = none) (started : call.started = true) :
    call'.kind = call.kind ∧ call'.started = true ∧ call'.pass = call.pass := by
  cases moves with
  | mark outermost entering => simp [Call.started, entering] at started
  | start marked => simp [Call.started, marked] at started
  | turn i at' held =>
    rw [free] at held
    cases held
  | wake waiting => exact ⟨rfl, rfl, rfl⟩
  | ran running =>
    unfold Runloop.ranOne
    cases kind : call.kind with
    | run | runOne | runFor | runPending => exact ⟨rfl, rfl, rfl⟩
  | throws running => exact ⟨rfl, rfl, rfl⟩
  | unmark leaving => exact ⟨rfl, rfl, rfl⟩

end Runloop

end Dross
