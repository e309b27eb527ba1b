import Dross.Thread.Runloop

/-!
# What a turn takes

A call takes work only in a turn of its own, with the lock: one due timer, or the
front of the queue. Both consumers, `next` and `run_pending`, come down to these
two cases and the one in which nothing is taken.
-/

namespace Dross

namespace Loop

variable {now : Nat → TimePoint} {reads : Nat} {loop : Loop} {call : Call}

/-- What a turn of a call takes from the loop, if anything. -/
inductive Takes (now : Nat → TimePoint) (reads : Nat) (loop : Loop) (call : Call) : Turn → Prop
  | timer {turn : Turn} {which : Slot} {slots : List Slot}
      (due : TimerSchedule.takeDue loop.timers call.pass.boundary (now reads) call.pass.handled =
        some (which, slots))
      (left : turn.1 = { loop with timers := slots }) (running : turn.2.2.control = .running) :
      Takes now reads loop call turn
  | task {turn : Turn} {sequence : Nat} {rest : List Nat}
      (front : loop.pending = sequence :: rest) (left : turn.1 = { loop with pending := rest })
      (running : turn.2.2.control = .running)
      (early : ∀ timersDone, call.control = .draining timersDone → sequence < call.limit) :
      Takes now reads loop call turn
  | nothing {turn : Turn} (quit : Bool) (left : turn.1 = { loop with quit := quit })
      (resting : turn.2.2.control ≠ .running) : Takes now reads loop call turn

theorem takes_condition : Takes now reads loop call (loop.condition now reads call) := by
  unfold condition
  split
  · exact .nothing loop.quit rfl (by intro h; cases h)
  · split
    · exact .nothing loop.quit rfl (by intro h; cases h)
    · exact .nothing loop.quit rfl (by intro h; cases h)

theorem takes_waitCheck : Takes now reads loop call (loop.waitCheck now n call) := by
  refine .nothing loop.quit rfl ?_
  unfold waitCheck
  dsimp only
  split <;> (intro h; cases h)

theorem takes_next {refreshed : Bool} (at' : call.control = .next refreshed) :
    Takes now reads loop call (loop.next now reads call refreshed) := by
  have early : ∀ sequence timersDone,
      call.control = .draining timersDone → sequence < call.limit := by
    intro sequence timersDone draining
    rw [at'] at draining
    cases draining
  unfold next
  split
  · exact .nothing (! call.outermost) rfl (by intro h; cases h)
  · dsimp only
    split
    · next which taken =>
      split at taken
      · exact .timer taken rfl rfl
      · cases taken
    · split
      · next pending => exact .task pending rfl rfl (early _)
      · split
        · exact .nothing loop.quit rfl (by intro h; cases h)
        · exact takes_waitCheck

theorem takes_drain {timersDone : Bool} :
    Takes now reads loop call (loop.drain now reads call timersDone) := by
  unfold drain
  split
  · split
    · next pending =>
      split
      · next below => exact .task pending rfl rfl (fun _ _ => below)
      · exact .nothing loop.quit rfl (by intro h; cases h)
    · exact .nothing loop.quit rfl (by intro h; cases h)
  · split
    · next taken => exact .timer taken rfl rfl
    · exact .nothing loop.quit rfl (by intro h; cases h)

end Loop

namespace Call

/-- Whether a call has come to hold the lock for the first time. -/
def started (call : Call) : Bool :=
  match call.control with
  | .entering | .marked => false
  | _ => true

/-- What a call keeps to its end. -/
structure Keeps (before after : Call) : Prop where
  kind : after.kind = before.kind
  started : before.started = true → after.started = true
  limit : before.started = true → after.limit = before.limit

theorem keeps_refl (call : Call) : Keeps call call := ⟨rfl, id, fun _ => rfl⟩

end Call

namespace Runloop

variable {source : TimeSource} {now : Nat → TimePoint} {s t : Runloop} {call : Call}

theorem turn_takes (holds : call.control.holds = true) :
    Loop.Takes now s.reads s.loop call (s.turn now call) := by
  unfold turn
  cases at' : call.control with
  | looping => exact Loop.takes_condition
  | next refreshed => exact Loop.takes_next at'
  | draining timersDone => exact Loop.takes_drain
  | entering | marked | waiting | running | leaving | returned | thrown =>
    rw [at'] at holds
    cases holds

theorem keeps_waitCheck {reads : Nat} {loop : Loop} :
    call.Keeps (loop.waitCheck now reads call).2.2 := by
  refine ⟨rfl, fun _ => ?_, fun _ => rfl⟩
  unfold Loop.waitCheck
  by_cases expired : min call.deadline (TimerSchedule.earliest loop.timers) ≤ now reads
  · simp [expired, Call.started]
  · simp [expired, Call.started]

theorem keeps_next {reads : Nat} {loop : Loop} {refreshed : Bool} :
    call.Keeps (loop.next now reads call refreshed).2.2 := by
  unfold Loop.next
  split
  · exact ⟨rfl, fun _ => rfl, fun _ => rfl⟩
  · dsimp only
    split
    · exact ⟨rfl, fun _ => rfl, fun _ => rfl⟩
    · split
      · exact ⟨rfl, fun _ => rfl, fun _ => rfl⟩
      · split
        · exact ⟨rfl, fun _ => rfl, fun _ => rfl⟩
        · exact keeps_waitCheck

theorem keeps_drain {reads : Nat} {loop : Loop} {timersDone : Bool} :
    call.Keeps (loop.drain now reads call timersDone).2.2 := by
  unfold Loop.drain
  split
  · split
    · split <;> exact ⟨rfl, fun _ => rfl, fun _ => rfl⟩
    · exact ⟨rfl, fun _ => rfl, fun _ => rfl⟩
  · split <;> exact ⟨rfl, fun _ => rfl, fun _ => rfl⟩

theorem keeps_turn : call.Keeps (s.turn now call).2.2 := by
  unfold turn
  split
  · unfold Loop.condition
    split
    · exact ⟨rfl, fun _ => rfl, fun _ => rfl⟩
    · split <;> exact ⟨rfl, fun _ => rfl, fun _ => rfl⟩
  · exact keeps_next
  · exact keeps_drain
  · exact call.keeps_refl

theorem keeps_start (marked : call.control = .marked) : call.Keeps (s.start now call) := by
  have unstarted : call.started = true → False := by
    intro started
    rw [Call.started, marked] at started
    cases started
  refine ⟨?_, fun started => (unstarted started).elim, fun started => (unstarted started).elim⟩
  unfold start
  cases call.kind with
  | run | runOne | runFor | runPending => rfl

theorem keeps_ranOne : call.Keeps (ranOne call) := by
  unfold ranOne
  split <;> exact ⟨rfl, fun _ => rfl, fun _ => rfl⟩

/-- No call is forgotten. -/
theorem Step.keeps (step : Step source s t) {i : Nat} (at' : s.calls[i]? = some call) :
    ∃ call', t.calls[i]? = some call' ∧ call.Keeps call' := by
  have same : ∃ call', s.calls[i]? = some call' ∧ call.Keeps call' := ⟨call, at', call.keeps_refl⟩
  have put {j : Nat} {before after : Call} (there : s.calls[j]? = some before)
      (keeps : before.Keeps after) :
      ∃ call', (s.calls.set j after)[i]? = some call' ∧ call.Keeps call' := by
    by_cases own : j = i
    · subst own
      obtain rfl := Option.some.inj (there.symm.trans at')
      have bound := (List.getElem?_eq_some_iff.mp at').1
      exact ⟨after, by rw [List.getElem?_set_self bound], keeps⟩
    · exact ⟨call, by rw [List.getElem?_set_ne own, at'], call.keeps_refl⟩
  have more (new : Call) : ∃ call', (s.calls ++ [new])[i]? = some call' ∧ call.Keeps call' :=
    ⟨call, by rw [List.getElem?_append_left (List.getElem?_eq_some_iff.mp at').1, at'],
      call.keeps_refl⟩
  cases step with
  | enqueue | installTimer | removeTimer | quit | clear | finish | read => exact same
  | enter kind untimed => exact more _
  | enterFor timeout => exact more _
  | mark j before there free entering =>
    refine put there ⟨rfl, fun started => ?_, fun _ => rfl⟩
    rw [Call.started, entering] at started
    cases started
  | start j before there free marked => exact put there (keeps_start marked)
  | turn j before there held => exact put there keeps_turn
  | wake j before there free waiting => exact put there ⟨rfl, fun _ => rfl, fun _ => rfl⟩
  | ran j before there free running => exact put there keeps_ranOne
  | throws j before there running free => exact put there ⟨rfl, fun _ => rfl, fun _ => rfl⟩
  | unmark j before there free leaving => exact put there ⟨rfl, fun _ => rfl, fun _ => rfl⟩

/-- The call that holds the lock is at a point at which it does. -/
theorem Reachable.held (h : Reachable source s) {i : Nat} (held : s.holder = some i) :
    ∃ call, s.calls[i]? = some call ∧ call.control.holds = true := by
  revert i
  have put {s : Runloop} {j : Nat} {before after : Call} (there : s.calls[j]? = some before)
      {i : Nat} (held : (s.put j after).holder = some i) :
      ∃ call, (s.put j after).calls[i]? = some call ∧ call.control.holds = true := by
    have bound := (List.getElem?_eq_some_iff.mp there).1
    unfold Runloop.put at held ⊢
    dsimp only at held ⊢
    split at held
    · next holds =>
      obtain rfl := Option.some.inj held
      exact ⟨after, by rw [List.getElem?_set_self bound], holds⟩
    · cases held
  refine @Transition.Reachable.invariant _ (· = initial) (Step source)
    (fun s => ∀ {i : Nat}, s.holder = some i →
      ∃ call, s.calls[i]? = some call ∧ call.control.holds = true) ?_ ?_ s h
  · rintro s rfl i held
    cases held
  · intro s t known step i held
    have unheld {P : Prop} (free : s.holder = none) (held : s.holder = some i) : P := by
      rw [free] at held
      cases held
    have kept {new : Call} (held : s.holder = some i) :
        ∃ call, (s.calls ++ [new])[i]? = some call ∧ call.control.holds = true := by
      obtain ⟨call, at', holds⟩ := known held
      exact ⟨call, by rw [List.getElem?_append_left (List.getElem?_eq_some_iff.mp at').1, at'],
        holds⟩
    cases step with
    | enqueue free | installTimer _ free | removeTimer _ free | quit free | clear free | finish free =>
      exact unheld free held
    | read => exact known held
    | enter kind untimed => exact kept held
    | enterFor timeout => exact kept held
    | mark j before there free entering => exact unheld free held
    | start j before there free marked => exact put there held
    | turn j before there holder => exact put there held
    | wake j before there free waiting => exact put there held
    | ran j before there free running => exact put there held
    | throws j before there running free => exact unheld free held
    | unmark j before there free leaving => exact unheld free held

end Runloop

end Dross
