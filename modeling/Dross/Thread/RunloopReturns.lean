import Dross.Thread.Runloop

/-!
# Why a running call returns

A call is to return once it has seen a request to quit, or once its own deadline
has passed. A timer that becomes due between the reading a pass starts from and
the reading of the wait check makes it return as well: the earliest deadline is
then not after the time, and nothing says whose deadline it is.
-/

namespace Dross

namespace Runloop

variable {source : TimeSource} {s t : Runloop}

/-- A call that has returned, or is about to, for want of work: `run_pending` never waits
for any, and `run_one` returns true with the work it has run. -/
def Ended (call : Call) : Prop :=
  (call.control = .leaving ∨ call.control = .returned) ∧ call.kind ≠ .runPending ∧
    (call.kind = .runOne → call.ran = 0)

/-- What a call is to return for. -/
def Justified (source : TimeSource) (reads : Nat) (call : Call) : Prop :=
  call.sawQuit = true ∨
    (call.kind = .runFor ∧ ∃ reading < reads, call.deadline ≤ source.now reading)

/-- Whether the next turn of a call comes to the wait check: no request to quit, nothing
queued, nothing due, and a pass that cannot be started anew. -/
def AtWaitCheck (s : Runloop) (call : Call) : Prop :=
  ∃ refreshed, call.control = .next refreshed ∧ s.loop.quit = false ∧ s.loop.pending = [] ∧
    (s.loop.timers = [] ∨ refreshed = true) ∧
    ∀ slot ∈ s.loop.timers, TimerSchedule.due call.pass.boundary call.pass.handled slot = false

/-- The reading that the wait check compares with. -/
def waitReading (source : TimeSource) (s : Runloop) : TimePoint :=
  source.now (if s.loop.timers.isEmpty then s.reads else s.reads + 1)

/-- At a wait check the call's own deadline has passed, or no timer has become due since the
pass started, and the clock has not come to its end. -/
def ClearCheck (source : TimeSource) (s : Runloop) (call : Call) : Prop :=
  (call.kind = .runFor ∧ call.deadline ≤ waitReading source s) ∨
    (waitReading source s < noDeadline ∧ ∀ slot ∈ s.loop.timers,
      ¬ (call.pass.boundary < slot.deadline ∧ slot.deadline ≤ waitReading source s))

def Clear (source : TimeSource) (s : Runloop) : Prop :=
  ∀ i call, s.holder = some i → s.calls[i]? = some call → AtWaitCheck s call →
    ClearCheck source s call

/-- The states of runs in which every wait check is clear. -/
def ReachableClear (source : TimeSource) : Runloop → Prop :=
  Transition.Reachable (· = initial) (fun s t => Clear source s ∧ Step source s t)

/-! ## What a step does to a call -/

/-- What one step makes of one call, with the readings taken by then. -/
inductive Moves (source : TimeSource) (s : Runloop) (call : Call) : Nat → Call → Prop
  | mark (outermost : Bool) (entering : call.control = .entering) :
      Moves source s call s.reads { call with outermost := outermost, control := .marked }
  | start (marked : call.control = .marked) :
      Moves source s call (s.reads + 1) (s.start source.now call)
  | turn (i : Nat) (at' : s.calls[i]? = some call) (held : s.holder = some i) :
      Moves source s call (s.turn source.now call).2.1 (s.turn source.now call).2.2
  | wake (waiting : call.control = .waiting) :
      Moves source s call s.reads { call with control := .next false }
  | ran (running : call.control = .running) : Moves source s call s.reads (ranOne call)
  | throws (running : call.control = .running) :
      Moves source s call s.reads { call with control := .thrown }
  | unmark (leaving : call.control = .leaving) :
      Moves source s call s.reads { call with control := .returned }

theorem next_reads (now : Nat → TimePoint) (reads : Nat) (loop : Loop) (call : Call)
    (refreshed : Bool) : reads ≤ (loop.next now reads call refreshed).2.1 := by
  unfold Loop.next
  split
  · exact Nat.le_refl _
  simp only
  generalize (if ! loop.timers.isEmpty then
    TimerSchedule.takeDue loop.timers call.pass.boundary (now reads) call.pass.handled
    else none) = claimed
  have later : reads ≤ if ! loop.timers.isEmpty then reads + 1 else reads := by
    split <;> omega
  cases claimed with
  | some which => exact later
  | none =>
    cases loop.pending with
    | cons sequence pending =>
      simp only
      split <;> omega
    | nil =>
      simp only
      split
      · exact Nat.le_succ_of_le later
      · exact Nat.le_succ_of_le later

theorem turn_reads (now : Nat → TimePoint) (call : Call) : s.reads ≤ (s.turn now call).2.1 := by
  unfold Runloop.turn
  split
  · unfold Loop.condition
    split
    · exact Nat.le_refl _
    · split <;> exact Nat.le_succ _
  · exact next_reads now s.reads s.loop call _
  · unfold Loop.drain
    split
    · split
      · split <;> exact Nat.le_refl _
      · exact Nat.le_refl _
    · split <;> exact Nat.le_succ _
  · exact Nat.le_refl _

/-- Every call after a step was there before, has just been made, or has moved. -/
theorem Step.calls (h : Step source s t) : s.reads ≤ t.reads ∧ ∀ call' ∈ t.calls,
    call' ∈ s.calls ∨
      (∃ kind deadline, (kind ≠ .runFor → deadline = noDeadline) ∧
        call' = Runloop.enter kind deadline) ∨
      ∃ call ∈ s.calls, Moves source s call t.reads call' := by
  have same : ∀ call' ∈ s.calls, call' ∈ s.calls ∨
      (∃ kind deadline, (kind ≠ .runFor → deadline = noDeadline) ∧
        call' = Runloop.enter kind deadline) ∨
      ∃ call ∈ s.calls, Moves source s call s.reads call' := fun _ mem => Or.inl mem
  have moved : ∀ {i : Nat} {call call' : Call} {reads : Nat}, s.calls[i]? = some call →
      Moves source s call reads call' → ∀ other ∈ s.calls.set i call', other ∈ s.calls ∨
      (∃ kind deadline, (kind ≠ .runFor → deadline = noDeadline) ∧
        other = Runloop.enter kind deadline) ∨
      ∃ call ∈ s.calls, Moves source s call reads other := by
    intro i call call' reads at' moves other mem
    rcases List.mem_or_eq_of_mem_set mem with old | rfl
    · exact Or.inl old
    · exact Or.inr (Or.inr ⟨call, List.mem_of_getElem? at', moves⟩)
  cases h with
  | enqueue | installTimer | removeTimer | quit | clear | finish => exact ⟨Nat.le_refl _, same⟩
  | read => exact ⟨Nat.le_succ _, fun _ mem => Or.inl mem⟩
  | enter kind untimed =>
    refine ⟨Nat.le_refl _, fun call' mem => ?_⟩
    rcases List.mem_append.mp mem with old | new
    · exact Or.inl old
    · exact Or.inr (Or.inl ⟨kind, noDeadline, fun _ => rfl, List.mem_singleton.mp new⟩)
  | enterFor timeout =>
    refine ⟨Nat.le_succ _, fun call' mem => ?_⟩
    rcases List.mem_append.mp mem with old | new
    · exact Or.inl old
    · exact Or.inr (Or.inl ⟨.runFor, _, fun timed => absurd rfl timed, List.mem_singleton.mp new⟩)
  | mark i call at' free entering => exact ⟨Nat.le_refl _, moved at' (.mark _ entering)⟩
  | start i call at' free marked => exact ⟨Nat.le_succ _, moved at' (.start marked)⟩
  | turn i call at' held => exact ⟨turn_reads _ _, moved at' (.turn i at' held)⟩
  | wake i call at' free waiting => exact ⟨Nat.le_refl _, moved at' (.wake waiting)⟩
  | ran i call at' free running => exact ⟨Nat.le_refl _, moved at' (.ran running)⟩
  | throws i call at' running free => exact ⟨Nat.le_refl _, moved at' (.throws running)⟩
  | unmark i call at' free leaving => exact ⟨Nat.le_refl _, moved at' (.unmark leaving)⟩

/-! ## What one turn of `next` can do -/

/-- With nothing to run and a pass that cannot be started anew, a round is its wait check. -/
theorem next_waits {now : Nat → TimePoint} {reads : Nat} {loop : Loop} {call : Call}
    {refreshed : Bool} (quit : loop.quit = false) (pending : loop.pending = [])
    (stale : loop.timers = [] ∨ refreshed = true)
    (none : ∀ slot ∈ loop.timers,
      TimerSchedule.due call.pass.boundary call.pass.handled slot = false) :
    loop.next now reads call refreshed =
      loop.waitCheck now (if loop.timers.isEmpty then reads else reads + 1) call := by
  have claimed := @TimerSchedule.takeDue_none loop.timers call.pass.boundary (now reads)
    call.pass.handled
  cases timers : loop.timers with
  | nil => simp [Loop.next, quit, pending, timers]
  | cons slot slots =>
    have refreshed := stale.resolve_left (by simp [timers])
    simp only [Loop.next, quit, pending, refreshed, Bool.false_eq_true, if_false, Bool.not_true,
      Bool.and_false, timers, List.isEmpty_cons, Bool.not_false, if_true]
    rw [← timers, claimed.mpr none]

/-- The wait check ends the call when the earlier of the deadlines is not after the time. -/
theorem waitCheck_cases (now : Nat → TimePoint) (reads : Nat) (loop : Loop) (call : Call) :
    (min call.deadline (TimerSchedule.earliest loop.timers) ≤ now reads ∧
      (loop.waitCheck now reads call).2.2 = { call with control := .leaving }) ∨
    (¬ min call.deadline (TimerSchedule.earliest loop.timers) ≤ now reads ∧
      (loop.waitCheck now reads call).2.2 = { call with control := .waiting }) := by
  by_cases expired : min call.deadline (TimerSchedule.earliest loop.timers) ≤ now reads
  · exact Or.inl ⟨expired, by simp only [Loop.waitCheck, if_pos expired]⟩
  · exact Or.inr ⟨expired, by simp only [Loop.waitCheck, if_neg expired]⟩

/-- A round of `next` sees a request to quit, takes something, starts its pass anew, or comes
to the wait check. -/
theorem next_cases (now : Nat → TimePoint) (reads : Nat) (loop : Loop) (call : Call)
    (refreshed : Bool) :
    (loop.next now reads call refreshed).2.2 = { call with sawQuit := true, control := .leaving } ∨
    (∃ pass, (loop.next now reads call refreshed).2.2 =
      { call with pass := pass, control := .running }) ∨
    (∃ boundary, (loop.next now reads call refreshed).2.2 =
      { call with pass := ⟨boundary, []⟩, control := .next true }) ∨
    (loop.quit = false ∧ loop.pending = [] ∧ (loop.timers = [] ∨ refreshed = true) ∧
      ∀ slot ∈ loop.timers,
        TimerSchedule.due call.pass.boundary call.pass.handled slot = false) := by
  cases quit : loop.quit with
  | true => exact Or.inl (by simp [Loop.next, quit])
  | false =>
    right
    have claimed := @TimerSchedule.takeDue_none loop.timers call.pass.boundary (now reads)
      call.pass.handled
    by_cases none : ∀ slot ∈ loop.timers,
        TimerSchedule.due call.pass.boundary call.pass.handled slot = false
    · cases pending : loop.pending with
      | cons sequence rest =>
        left
        by_cases timers : loop.timers.isEmpty
        · exact ⟨call.pass, by simp [Loop.next, quit, pending, timers]⟩
        · exact ⟨⟨now (reads + 1), []⟩, by
            simp [Loop.next, quit, pending, timers, claimed.mpr none]⟩
      | nil =>
        by_cases stale : loop.timers = [] ∨ refreshed = true
        · exact Or.inr (Or.inr ⟨rfl, rfl, stale, none⟩)
        · rw [not_or, Bool.not_eq_true] at stale
          refine Or.inr (Or.inl ⟨now (reads + 1), ?_⟩)
          simp [Loop.next, quit, pending, stale, claimed.mpr none]
    · left
      cases taken : TimerSchedule.takeDue loop.timers call.pass.boundary (now reads)
          call.pass.handled with
      | none => exact absurd (claimed.mp taken) none
      | some which =>
        have timers : loop.timers.isEmpty = false := by
          rw [List.isEmpty_eq_false_iff]
          rintro empty
          simp [empty] at none
        exact ⟨_, by simp only [Loop.next, quit, timers, taken, Bool.false_eq_true, if_false,
          Bool.not_false, if_true]; rfl⟩

/-! ## What holds of every call -/

structure Sound (call : Call) : Prop where
  /-- Only a call with a timeout has a deadline. -/
  untimed : call.kind ≠ .runFor → call.deadline = noDeadline
  /-- A pass just started anew has handled nothing. -/
  fresh : call.control = .next true → call.pass.handled = []
  /-- `run_pending` never comes to `next`. -/
  drains : call.kind = .runPending → call.control ≠ .looping ∧ call.control ≠ .waiting ∧
    ∀ refreshed, call.control ≠ .next refreshed
  pending : ∀ timersDone, call.control = .draining timersDone → call.kind = .runPending
  /-- A request to quit ends the call that sees it. -/
  quits : call.sawQuit = true → call.control = .leaving ∨ call.control = .returned
  once : call.kind = .runOne → call.ran = 0 ∨ call.control = .leaving ∨ call.control = .returned

theorem Sound.enter {kind : RunKind} {deadline : TimePoint}
    (untimed : kind ≠ .runFor → deadline = noDeadline) : Sound (Runloop.enter kind deadline) :=
  ⟨untimed, (by rintro ⟨⟩), fun _ => ⟨(by rintro ⟨⟩), (by rintro ⟨⟩), (by rintro _ ⟨⟩)⟩,
    (by rintro _ ⟨⟩), (by rintro ⟨⟩), fun _ => Or.inl rfl⟩

/-- A call that is still under way has seen no request to quit, and `run_one` nothing to run. -/
theorem Sound.underway {call : Call} (h : Sound call) {control : Control}
    (at' : call.control = control) (leaving : control ≠ .leaving) (returned : control ≠ .returned) :
    call.sawQuit = false ∧ (call.kind = .runOne → call.ran = 0) := by
  constructor
  · rw [← Bool.not_eq_true]
    intro quit
    rcases h.quits quit with other | other
    · exact leaving (at'.symm.trans other)
    · exact returned (at'.symm.trans other)
  · intro kind
    rcases h.once kind with zero | other | other
    · exact zero
    · exact absurd (at'.symm.trans other) leaving
    · exact absurd (at'.symm.trans other) returned

/-- It stays sound at any point that asks nothing of the call. -/
theorem Sound.goesOn {call : Call} (h : Sound call) (unseen : call.sawQuit = false)
    (once : call.kind = .runOne → call.ran = 0) (control : Control) (pass : Pass)
    (timersDone : Bool) (fresh : control = .next true → pass.handled = [])
    (drains : call.kind = .runPending → control ≠ .looping ∧ control ≠ .waiting ∧
      ∀ refreshed, control ≠ .next refreshed)
    (pending : ∀ done, control = .draining done → call.kind = .runPending) :
    Sound { call with control := control, pass := pass, timersDone := timersDone } :=
  ⟨h.untimed, fresh, drains, pending,
    fun quit => absurd (show call.sawQuit = true from quit) (by simp [unseen]),
    fun kind => Or.inl (once kind)⟩

theorem Sound.condition {now : Nat → TimePoint} {reads : Nat} {loop : Loop} {call : Call}
    (h : Sound call) (looping : call.control = .looping) :
    Sound (loop.condition now reads call).2.2 := by
  obtain ⟨unseen, once⟩ := h.underway looping nofun nofun
  have other : call.kind ≠ .runPending := fun kind => (h.drains kind).1 looping
  unfold Loop.condition
  split
  · exact h.goesOn unseen once _ _ _ nofun (absurd · other) nofun
  · split
    · exact h.goesOn unseen once _ _ _ nofun (absurd · other) nofun
    · exact h.goesOn unseen once _ _ _ nofun (absurd · other) nofun

theorem Sound.next {now : Nat → TimePoint} {reads : Nat} {loop : Loop} {call : Call}
    {refreshed : Bool} (h : Sound call) (at' : call.control = .next refreshed) :
    Sound (loop.next now reads call refreshed).2.2 := by
  obtain ⟨unseen, once⟩ := h.underway at' nofun nofun
  have other : call.kind ≠ .runPending := fun kind => (h.drains kind).2.2 refreshed at'
  rcases next_cases now reads loop call refreshed with eq | ⟨pass, eq⟩ | ⟨boundary, eq⟩ |
      ⟨quit, pending, stale, none⟩
  · rw [eq]
    exact ⟨h.untimed, nofun, (absurd · other), nofun, fun _ => Or.inl rfl, fun kind => Or.inl (once kind)⟩
  · rw [eq]
    exact h.goesOn unseen once _ _ _ nofun (absurd · other) nofun
  · rw [eq]
    exact h.goesOn unseen once _ _ _ (fun _ => rfl) (absurd · other) nofun
  · rw [next_waits quit pending stale none]
    rcases waitCheck_cases now (if loop.timers.isEmpty then reads else reads + 1) loop call with
      ⟨_, eq⟩ | ⟨_, eq⟩
    · rw [eq]
      exact h.goesOn unseen once _ _ _ nofun (absurd · other) nofun
    · rw [eq]
      exact h.goesOn unseen once _ _ _ nofun (absurd · other) nofun

theorem Sound.drain {now : Nat → TimePoint} {reads : Nat} {loop : Loop} {call : Call}
    {timersDone : Bool} (h : Sound call) (at' : call.control = .draining timersDone) :
    Sound (loop.drain now reads call timersDone).2.2 := by
  obtain ⟨unseen, once⟩ := h.underway at' nofun nofun
  have kind := h.pending timersDone at'
  unfold Loop.drain
  split
  · split
    · split
      · exact h.goesOn unseen once _ _ _ nofun (fun _ => ⟨nofun, nofun, nofun⟩) nofun
      · exact h.goesOn unseen once _ _ _ nofun (fun _ => ⟨nofun, nofun, nofun⟩) nofun
    · exact h.goesOn unseen once _ _ _ nofun (fun _ => ⟨nofun, nofun, nofun⟩) nofun
  · split
    · exact h.goesOn unseen once _ _ _ nofun (fun _ => ⟨nofun, nofun, nofun⟩) nofun
    · exact h.goesOn unseen once _ _ _ nofun (fun _ => ⟨nofun, nofun, nofun⟩) (fun _ _ => kind)

theorem Sound.turn {now : Nat → TimePoint} {call : Call} (h : Sound call) :
    Sound (s.turn now call).2.2 := by
  unfold Runloop.turn
  split
  · exact h.condition ‹_›
  · exact h.next ‹_›
  · exact h.drain ‹_›
  · exact h

theorem Sound.start {now : Nat → TimePoint} {call : Call} (h : Sound call)
    (marked : call.control = .marked) : Sound (s.start now call) := by
  obtain ⟨unseen, once⟩ := h.underway marked nofun nofun
  obtain ⟨kind, deadline, outermost, pass, limit, timersDone, ran, control, sawQuit⟩ := call
  cases kind with
  | run | runFor => exact h.goesOn unseen once _ _ _ nofun nofun nofun
  | runOne => exact h.goesOn unseen once _ _ _ nofun nofun nofun
  | runPending =>
    have drains := h.goesOn unseen once (.draining false) ⟨now s.reads, []⟩ timersDone nofun
      (fun _ => ⟨nofun, nofun, nofun⟩) (fun _ _ => rfl)
    exact ⟨drains.untimed, drains.fresh, drains.drains, drains.pending, drains.quits, drains.once⟩

theorem Sound.ranOne {call : Call} (h : Sound call) (running : call.control = .running) :
    Sound (ranOne call) := by
  obtain ⟨unseen, _⟩ := h.underway running nofun nofun
  obtain ⟨kind, deadline, outermost, pass, limit, timersDone, ran, control, sawQuit⟩ := call
  cases unseen
  cases kind with
  | run | runFor => exact ⟨h.untimed, nofun, nofun, nofun, nofun, nofun⟩
  | runOne => exact ⟨h.untimed, nofun, nofun, nofun, nofun, fun _ => Or.inr (Or.inl rfl)⟩
  | runPending =>
    exact ⟨h.untimed, nofun, fun _ => ⟨nofun, nofun, nofun⟩, fun _ _ => rfl, nofun, nofun⟩

theorem Sound.moves {call call' : Call} {reads : Nat} (h : Sound call)
    (moves : Moves source s call reads call') : Sound call' := by
  cases moves with
  | mark outermost entering =>
    obtain ⟨unseen, once⟩ := h.underway entering nofun nofun
    have marked := h.goesOn unseen once .marked call.pass call.timersDone nofun
      (fun _ => ⟨nofun, nofun, nofun⟩) nofun
    exact ⟨marked.untimed, marked.fresh, marked.drains, marked.pending, marked.quits, marked.once⟩
  | start marked => exact h.start marked
  | turn i at' held => exact h.turn
  | wake waiting =>
    obtain ⟨unseen, once⟩ := h.underway waiting nofun nofun
    exact h.goesOn unseen once _ _ _ nofun (fun kind => absurd waiting (h.drains kind).2.1) nofun
  | ran running => exact h.ranOne running
  | throws running =>
    obtain ⟨unseen, once⟩ := h.underway running nofun nofun
    exact h.goesOn unseen once _ _ _ nofun (fun _ => ⟨nofun, nofun, nofun⟩) nofun
  | unmark leaving =>
    exact ⟨h.untimed, nofun, fun _ => ⟨nofun, nofun, nofun⟩, nofun, fun _ => Or.inr rfl,
      fun _ => Or.inr (Or.inr rfl)⟩

theorem Reachable.sound (h : Reachable source s) : ∀ call ∈ s.calls, Sound call := by
  refine Transition.Reachable.invariant (P := fun s => ∀ call ∈ s.calls, Sound call) ?_ ?_ h
  · rintro s rfl
    simp [initial]
  · intro s t sound step call' mem
    rcases step.calls.2 call' mem with old | ⟨kind, deadline, untimed, rfl⟩ | ⟨call, mem, moves⟩
    · exact sound call' old
    · exact Sound.enter untimed
    · exact (sound call mem).moves moves

/-! ## Returning -/

/-- A call at any other point has not ended. -/
theorem not_ended {call : Call} (leaving : call.control ≠ .leaving)
    (returned : call.control ≠ .returned) : ¬ Ended call :=
  fun ended => ended.1.elim leaving returned

theorem Justified.later {call : Call} {reads more : Nat} (h : Justified source reads call)
    (le : reads ≤ more) : Justified source more call := by
  rcases h with quit | ⟨kind, reading, less, passed⟩
  · exact Or.inl quit
  · exact Or.inr ⟨kind, reading, Nat.lt_of_lt_of_le less le, passed⟩

theorem condition_justified {reads : Nat} {loop : Loop} {call : Call} (sound : Sound call)
    (ended : Ended (loop.condition source.now reads call).2.2) :
    Justified source (loop.condition source.now reads call).2.1
      (loop.condition source.now reads call).2.2 := by
  unfold Loop.condition at ended ⊢
  split
  · rename_i none
    rw [if_pos none] at ended
    exact absurd ended (not_ended nofun nofun)
  · rename_i some'
    rw [if_neg some'] at ended
    split
    · rename_i before
      rw [if_pos before] at ended
      exact absurd ended (not_ended nofun nofun)
    · rename_i passed
      have kind : call.kind = .runFor := by
        by_contra other
        exact some' (sound.untimed other)
      exact Or.inr ⟨kind, reads, Nat.lt_succ_self _, Int.not_lt.mp passed⟩

/-- What it means that the wait check finds nothing to wait for. -/
theorem waitDeadline_le {slots : List Slot} {deadline t : TimePoint} :
    min deadline (TimerSchedule.earliest slots) ≤ t ↔
      deadline ≤ t ∨ noDeadline ≤ t ∨ ∃ slot ∈ slots, slot.deadline ≤ t := by
  rw [min_le_iff, TimerSchedule.earliest_le]

theorem waitReading_eq (source : TimeSource) (s : Runloop) : waitReading source s =
    source.now (if s.loop.timers.isEmpty then s.reads else s.reads + 1) := rfl

/-- With a clear wait check, `next` gives up only for a reason. -/
theorem next_justified {call : Call} {refreshed : Bool} (sound : Sound call)
    (at' : call.control = .next refreshed) (clear : AtWaitCheck s call → ClearCheck source s call)
    (ended : Ended (s.loop.next source.now s.reads call refreshed).2.2) :
    Justified source (s.loop.next source.now s.reads call refreshed).2.1
      (s.loop.next source.now s.reads call refreshed).2.2 := by
  rcases next_cases source.now s.reads s.loop call refreshed with eq | ⟨pass, eq⟩ |
      ⟨boundary, eq⟩ | ⟨quit, pending, stale, none⟩
  · rw [eq]
    exact Or.inl rfl
  · rw [eq] at ended
    exact absurd ended (not_ended nofun nofun)
  · rw [eq] at ended
    exact absurd ended (not_ended nofun nofun)
  · have clear := clear ⟨refreshed, at', quit, pending, stale, none⟩
    rw [next_waits quit pending stale none] at ended ⊢
    rcases waitCheck_cases source.now (if s.loop.timers.isEmpty then s.reads else s.reads + 1)
      s.loop call with ⟨expired, eq⟩ | ⟨_, eq⟩
    · have passed : call.kind = .runFor ∧ call.deadline ≤ waitReading source s := by
        rcases clear with passed | ⟨inTime, noneDue⟩
        · exact passed
        rw [← waitReading_eq, waitDeadline_le] at expired
        rcases expired with own | expired | ⟨slot, mem, due⟩
        · refine ⟨?_, own⟩
          by_contra other
          rw [sound.untimed other] at own
          exact absurd inTime (Int.not_lt.mpr own)
        · exact absurd inTime (Int.not_lt.mpr expired)
        · have late := none slot mem
          have refreshed := stale.resolve_left (List.ne_nil_of_mem mem)
          rw [TimerSchedule.due, sound.fresh (by rw [at', refreshed])] at late
          simp only [List.contains_nil, Bool.not_false, Bool.and_true, decide_eq_false_iff_not,
            Int.not_le] at late
          exact absurd ⟨late, due⟩ (noneDue slot mem)
      rw [eq]
      exact Or.inr ⟨passed.1, _, Nat.lt_succ_self _, passed.2⟩
    · rw [eq] at ended
      exact absurd ended (not_ended nofun nofun)

theorem Moves.justified {call call' : Call} {reads : Nat} (sound : Sound call)
    (clear : Clear source s) (moves : Moves source s call reads call')
    (before : Ended call → Justified source s.reads call) (ended : Ended call') :
    Justified source reads call' := by
  cases moves with
  | mark outermost entering => exact absurd ended (not_ended nofun nofun)
  | start marked =>
    unfold Runloop.start at ended
    cases kind : call.kind <;> simp only [kind] at ended <;>
      exact absurd ended (not_ended nofun nofun)
  | turn i at' held =>
    unfold Runloop.turn at ended ⊢
    split
    · rename_i looping
      simp only [looping] at ended
      exact condition_justified sound ended
    · rename_i refreshed next
      simp only [next] at ended
      exact next_justified sound next (clear i call held at') ended
    · rename_i timersDone draining
      simp only [draining] at ended
      have pending : (s.loop.drain source.now s.reads call timersDone).2.2.kind = call.kind := by
        unfold Loop.drain
        split
        · split
          · split <;> rfl
          · rfl
        · split <;> rfl
      exact absurd (pending.trans (sound.pending timersDone draining)) ended.2.1
    · rename_i looping next draining
      split at ended
      · exact absurd ‹_› looping
      · exact absurd ‹_› (next _)
      · exact absurd ‹_› (draining _)
      · exact before ended
  | wake waiting => exact absurd ended (not_ended nofun nofun)
  | ran running =>
    unfold Runloop.ranOne at ended
    cases kind : call.kind with
    | run | runFor | runPending =>
      simp only [kind] at ended
      exact absurd ended (not_ended nofun nofun)
    | runOne =>
      simp only [kind] at ended
      exact absurd (ended.2.2 rfl) (Nat.succ_ne_zero _)
  | throws running => exact absurd ended (not_ended nofun nofun)
  | unmark leaving => exact before ⟨Or.inl leaving, ended.2⟩

theorem ReachableClear.reachable (h : ReachableClear source s) : Reachable source s :=
  Transition.Reachable.mono (fun _ _ step => step.2) h

/-- In a run with clear wait checks, a call that has ended has a reason to. -/
theorem ReachableClear.justified (h : ReachableClear source s) :
    ∀ call ∈ s.calls, Ended call → Justified source s.reads call := by
  obtain ⟨s₀, rfl, run⟩ := h
  induction run with
  | refl => simp [initial]
  | tail run step ih =>
    rename_i s t
    have sound := Reachable.sound (ReachableClear.reachable ⟨initial, rfl, run⟩)
    intro call' mem ended
    obtain ⟨reads, calls⟩ := step.2.calls
    rcases calls call' mem with old | ⟨kind, deadline, _, rfl⟩ | ⟨call, mem, moves⟩
    · exact (ih call' old ended).later reads
    · exact absurd ended (not_ended nofun nofun)
    · exact moves.justified (sound call mem) step.1 (ih call mem) ended

/-- At a wait check that is not clear, the next turn ends the call for no reason. -/
theorem unclear_returns {call : Call} (sound : Sound call) (check : AtWaitCheck s call)
    (unclear : ¬ ClearCheck source s call) :
    Ended (s.turn source.now call).2.2 ∧
      ¬ Justified source (s.turn source.now call).2.1 (s.turn source.now call).2.2 := by
  obtain ⟨refreshed, next, quit, pending, stale, none⟩ := check
  obtain ⟨unseen, once⟩ := sound.underway next nofun nofun
  have turn : s.turn source.now call = s.loop.waitCheck source.now
      (if s.loop.timers.isEmpty then s.reads else s.reads + 1) call := by
    unfold Runloop.turn
    simp only [next]
    exact next_waits quit pending stale none
  obtain ⟨notPassed, late⟩ := not_or.mp unclear
  rw [not_and_or] at late
  have expired : min call.deadline (TimerSchedule.earliest s.loop.timers) ≤ waitReading source s := by
    rw [waitDeadline_le]
    rcases late with late | late
    · exact Or.inr (Or.inl (Int.not_lt.mp late))
    · rw [not_forall] at late
      obtain ⟨slot, late⟩ := late
      rw [Classical.not_imp, not_not] at late
      exact Or.inr (Or.inr ⟨slot, late.1, late.2.2⟩)
  rw [turn]
  rcases waitCheck_cases source.now (if s.loop.timers.isEmpty then s.reads else s.reads + 1)
    s.loop call with ⟨_, eq⟩ | ⟨waits, _⟩
  · rw [eq]
    refine ⟨⟨Or.inl rfl, fun kind => (sound.drains kind).2.2 refreshed next, once⟩, ?_⟩
    rintro (quit | ⟨kind, reading, less, passed⟩)
    · rw [show call.sawQuit = true from quit] at unseen
      cases unseen
    · refine notPassed ⟨kind, Int.le_trans passed (source.monotone _ _ ?_)⟩
      exact Nat.le_of_lt_succ less
  · exact absurd expired waits

/-! ## A timer that becomes due between two readings -/

/-- It reads 0 three times, then 4 ms twice, then 5 ms. -/
def slippingClock : TimeSource where
  now n := if n < 3 then 0 else if n < 5 then 4000000 else 5000000
  monotone m n le := by
    split_ifs <;> first | decide | omega

/-- A timer of 5 ms, made when the clock reads 0. -/
def slippingTimer : Slot := ⟨0, false, 5, Deadline.after 0 5⟩

/-- `run` with this timer alone, holding the lock. -/
def slipping (control : Control) (boundary : TimePoint) (reads : Nat) : Runloop :=
  ⟨⟨[], [slippingTimer], 0, 1, false, false⟩,
    [{ Runloop.enter .run noDeadline with
      outermost := true
      pass := ⟨boundary, []⟩
      control := control }], some 0, reads⟩

/-- It comes to its wait check with a pass that starts at 4 ms. -/
theorem slipping_reachable : Reachable slippingClock (slipping (.next true) 4000000 4) := by
  have made := (@reachable_initial slippingClock).step .read rfl
  have installed := made.step (.installTimer slippingTimer rfl nofun) rfl
  have entered := installed.step (.enter .run (by decide)) rfl
  have marked := entered.step (.mark 0 _ rfl rfl rfl) rfl
  have started : Reachable slippingClock (slipping .looping 0 2) :=
    marked.step (.start 0 _ rfl rfl rfl) (by rfl)
  have looped : Reachable slippingClock (slipping (.next false) 0 2) :=
    started.step (.turn 0 _ rfl rfl) (by rfl)
  exact looped.step (.turn 0 _ rfl rfl) (by rfl)

theorem slipping_unclear : ¬ Clear slippingClock (slipping (.next true) 4000000 4) := by
  intro clear
  have check := clear 0 _ rfl rfl ⟨true, rfl, rfl, rfl, Or.inr rfl, by decide⟩
  rcases check with ⟨kind, _⟩ | ⟨_, noneDue⟩
  · cases kind
  · exact noneDue slippingTimer List.mem_cons_self ⟨by decide, by decide⟩

/-- `run` with nothing to run, once it has seen the request made before it. -/
def asked : Runloop :=
  ⟨⟨[], [], 0, 1, false, false⟩,
    [{ Runloop.enter .run noDeadline with
      outermost := true
      control := .leaving
      sawQuit := true }], none, 1⟩

theorem clear_free (free : s.holder = none) : Clear source s := by
  intro i call held
  rw [free] at held
  cases held

theorem ReachableClear.step {u : Runloop} (h : ReachableClear source s) (clear : Clear source s)
    (step : Step source s t) (same : t = u) : ReachableClear source u :=
  same ▸ Transition.Reachable.next h ⟨clear, step⟩

theorem asked_reachable : ReachableClear slippingClock asked := by
  have start : ReachableClear slippingClock initial := Transition.Reachable.start rfl
  have quit := start.step (clear_free rfl) (.quit rfl) rfl
  have entered := quit.step (clear_free rfl) (.enter .run (by decide)) rfl
  have marked := entered.step (clear_free rfl) (.mark 0 _ rfl rfl rfl) rfl
  have started := marked.step (clear_free rfl) (.start 0 _ rfl rfl rfl) rfl
  have looped := started.step (by
    rintro i call held at' ⟨_, next, _⟩
    cases held
    cases at'
    cases next) (.turn 0 _ rfl rfl) rfl
  refine looped.step ?_ (.turn 0 _ rfl rfl) (by rfl)
  rintro i call held at' ⟨_, _, quit, _⟩
  cases quit

/-- Calls return for the reasons they are to return for in every run whose wait checks are
clear, and for no reason at every one that is not. -/
theorem returns_for_a_reason (source : TimeSource) :
    (∀ s, ReachableClear source s → ∀ call ∈ s.calls, Ended call →
      Justified source s.reads call) ∧
    (∀ s, Reachable source s → ¬ Clear source s → ∃ t, Step source s t ∧
      ∃ call ∈ t.calls, Ended call ∧ ¬ Justified source t.reads call) := by
  constructor
  · exact fun s h => h.justified
  · intro s h unclear
    simp only [Clear, not_forall] at unclear
    obtain ⟨i, call, held, at', check, unclear⟩ := unclear
    have returns := unclear_returns (h.sound call (List.mem_of_getElem? at')) check unclear
    refine ⟨_, .turn i call at' held, _, ?_, returns⟩
    exact List.mem_set (List.getElem?_eq_some_iff.mp at').1 _

theorem returns_for_a_reason_slipping :
    (∀ call ∈ asked.calls, Ended call → Justified slippingClock asked.reads call) ∧
      ∃ t, Step slippingClock (slipping (.next true) 4000000 4) t ∧
        ∃ call ∈ t.calls, Ended call ∧ ¬ Justified slippingClock t.reads call :=
  ⟨(returns_for_a_reason slippingClock).1 _ asked_reachable,
    (returns_for_a_reason slippingClock).2 _ slipping_reachable slipping_unclear⟩

/-- `run` returns, and nobody asked it to. -/
theorem run_returns_early : ∃ s, Reachable slippingClock s ∧ ∃ call ∈ s.calls,
    call.kind = .run ∧ Ended call ∧ ¬ Justified slippingClock s.reads call := by
  refine ⟨_, slipping_reachable.step (.turn 0 _ rfl rfl) rfl, _, List.mem_cons_self, rfl, ?_⟩
  refine ⟨⟨Or.inl rfl, by decide, by decide⟩, ?_⟩
  rintro (quit | ⟨kind, _⟩)
  · exact absurd quit (by decide)
  · exact absurd kind (by decide)

end Runloop

end Dross
