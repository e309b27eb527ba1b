import Dross.Thread.DeadlineBounds
import Dross.Thread.Passes

/-!
# Waking a waiting call

A call waits with the deadline it has computed once, and without a predicate. What is queued,
installed or requested meanwhile is seen because whoever does it notifies the call.
-/

namespace Dross

/-- A call in and out of `next`, with `wait_deadline` and whether its wait was notified. -/
structure Waiter where
  loop : Loop
  call : Call
  reads : Nat
  waitDeadline : TimePoint
  notified : Bool

namespace Control

/-- Whether a call at this point is inside `next`. -/
def inNext : Control → Bool
  | next _ | waiting => true
  | _ => false

end Control

namespace Waiter

def initial : Waiter := ⟨Loop.initial, Runloop.enter .run noDeadline, 0, noDeadline, false⟩

/-- A round of `next`; a wait that begins was not notified yet. -/
def turn (now : Nat → TimePoint) (s : Waiter) (refreshed : Bool) : Waiter :=
  let round := s.loop.next now s.reads s.call refreshed
  ⟨round.1, round.2.2, round.2.1, min s.call.deadline (TimerSchedule.earliest s.loop.timers), false⟩

/-- What another thread does while no call holds the lock, with the notify that it makes. -/
def operated (s : Waiter) (loop : Loop) (notifies : Bool) : Waiter :=
  { s with loop := loop, notified := s.notified || notifies }

/-- One step: of the call, or of another thread. A timer is installed with the deadline counted
from a reading made before, and waits end whenever they like. -/
inductive Step (source : TimeSource) (s : Waiter) : Waiter → Prop
  | enter (call : Call) (outside : s.call.control.inNext = false) (at' : call.control = .next false)
      (inTime : call.deadline ≤ noDeadline) : Step source s { s with call := call }
  | turn (refreshed : Bool) (at' : s.call.control = .next refreshed) :
      Step source s (s.turn source.now refreshed)
  | wake (waiting : s.call.control = .waiting) :
      Step source s { s with call := { s.call with control := .next false } }
  | read : Step source s { s with reads := s.reads + 1 }
  | enqueue (free : s.call.control.holds = false) :
      Step source s (s.operated s.loop.enqueue (! s.loop.finished))
  | installTimer (id : Nat) (repeats : Bool) (interval : Int) (reading : Nat)
      (made : reading < s.reads) (free : s.call.control.holds = false) :
      Step source s (s.operated
        (s.loop.installTimer ⟨id, repeats, interval, Deadline.after (source.now reading) interval⟩)
        (! s.loop.finished))
  | removeTimer (id : Nat) (free : s.call.control.holds = false) :
      Step source s (s.operated (s.loop.removeTimer id) true)
  | quit (free : s.call.control.holds = false) : Step source s (s.operated s.loop.requestQuit true)
  | clear (free : s.call.control.holds = false) : Step source s (s.operated s.loop.clear false)
  | finish (free : s.call.control.holds = false) : Step source s (s.operated s.loop.finish false)

def Reachable (source : TimeSource) : Waiter → Prop :=
  Transition.Reachable (· = initial) (Step source)

/-- There is nothing that a waiting call should be woken for. -/
structure Quiet (s : Waiter) : Prop where
  empty : s.loop.pending = []
  noQuit : s.loop.quit = false
  timers : ∀ slot ∈ s.loop.timers, s.waitDeadline ≤ slot.deadline
  own : s.waitDeadline ≤ s.call.deadline
  untimed : s.waitDeadline = noDeadline → s.call.deadline = noDeadline ∧ s.loop.timers = []

structure Sound (source : TimeSource) (s : Waiter) : Prop where
  /-- No deadline is the one that stands for none, as long as the clock has not come to it. -/
  inTime : ∀ slot ∈ s.loop.timers, slot.deadline < noDeadline ∨ noDeadline ≤ source.now s.reads
  bounded : s.call.deadline ≤ noDeadline
  quiet : s.call.control = .waiting → s.notified = false → s.Quiet

section Waits

variable {source : TimeSource} {s t : Waiter} {refreshed : Bool}

/-- What a round that ends in a wait has found. -/
theorem turn_waits (waiting : (s.turn source.now refreshed).call.control = .waiting) :
    s.loop.quit = false ∧ s.loop.pending = [] ∧ ∃ reading, s.reads ≤ reading ∧
      s.turn source.now refreshed =
        { s with
          call := { s.call with control := .waiting }
          reads := reading + 1
          waitDeadline := min s.call.deadline (TimerSchedule.earliest s.loop.timers)
          notified := false } ∧
      source.now reading < min s.call.deadline (TimerSchedule.earliest s.loop.timers) := by
  have control (call : Call) (same : (s.loop.next source.now s.reads s.call refreshed).2.2 = call) :
      call.control = .waiting := same ▸ waiting
  rcases Runloop.next_cases source.now s.reads s.loop s.call refreshed with eq | ⟨pass, eq⟩ |
      ⟨boundary, eq⟩ | ⟨quit, pending, stale, none⟩
  · cases control _ eq
  · cases control _ eq
  · cases control _ eq
  · have round := @Runloop.next_waits source.now s.reads s.loop s.call refreshed quit pending stale none
    rcases Runloop.waitCheck_cases source.now (if s.loop.timers.isEmpty then s.reads else s.reads + 1)
      s.loop s.call with ⟨_, eq⟩ | ⟨later, eq⟩
    · rw [← round] at eq
      cases control _ eq
    · refine ⟨quit, pending, _, ?_, ?_, not_le.mp later⟩
      · split
        · exact le_rfl
        · exact Nat.le_succ _
      · rw [turn, round, Loop.waitCheck, if_neg later]

theorem earliest_slot {slots : List Slot} {slot : Slot} (mem : slot ∈ slots) :
    TimerSchedule.earliest slots ≤ slot.deadline :=
  TimerSchedule.earliest_le.mpr (Or.inr ⟨slot, mem, le_rfl⟩)

/-- A wait begins with nothing to be woken for. -/
theorem Sound.turn_quiet (h : Sound source s)
    (waiting : (s.turn source.now refreshed).call.control = .waiting) :
    (s.turn source.now refreshed).Quiet ∧
      source.now ((s.turn source.now refreshed).reads - 1) <
        (s.turn source.now refreshed).waitDeadline := by
  obtain ⟨noQuit, empty, reading, later, eq, before⟩ := turn_waits waiting
  rw [eq]
  refine ⟨⟨empty, noQuit, fun slot mem => ?_, min_le_left _ _, fun untimed => ?_⟩, before⟩
  · exact (min_le_right _ _).trans (earliest_slot mem)
  · dsimp only at untimed ⊢
    refine ⟨h.bounded.antisymm (untimed ▸ min_le_left _ _), List.eq_nil_iff_forall_not_mem.mpr ?_⟩
    intro slot mem
    rcases h.inTime slot mem with inTime | ended
    · have least : noDeadline ≤ slot.deadline :=
        untimed ▸ (min_le_right _ _).trans (earliest_slot mem)
      exact absurd inTime (not_lt.mpr least)
    · have reached := ended.trans (source.monotone _ _ later)
      rw [untimed] at before
      exact absurd before (not_lt.mpr reached)

/-- A deadline that is counted from a reading is no later than the clock can show. -/
theorem after_inTime (source : TimeSource) {reading reads : Nat} (earlier : reading ≤ reads)
    (interval : Int) : Deadline.after (source.now reading) interval < noDeadline ∨
      noDeadline ≤ source.now reads := by
  rcases lt_or_ge (source.now reading) noDeadline with before | ended
  · have most := (Deadline.after_between (Int.le_sub_one_of_lt before) interval).2
    exact Or.inl (Int.lt_of_le_sub_one most)
  · exact Or.inr (ended.trans (source.monotone _ _ earlier))

theorem turn_deadline (now : Nat → TimePoint) (s : Waiter) (refreshed : Bool) :
    (s.turn now refreshed).call.deadline = s.call.deadline := by
  rw [Waiter.turn]
  have round := @Loop.next_round now s.reads s.loop s.call refreshed
  generalize s.loop.nextTakes now s.reads s.call = takes at round
  generalize s.loop.next now s.reads s.call refreshed = turn at round
  cases round <;> rfl

theorem Sound.turn (h : Sound source s) : Sound source (s.turn source.now refreshed) := by
  have later := Runloop.next_reads source.now s.reads s.loop s.call refreshed
  have still (slot : Slot) (mem : slot ∈ s.loop.timers) : slot.deadline < noDeadline ∨
      noDeadline ≤ source.now (s.turn source.now refreshed).reads :=
    (h.inTime slot mem).imp_right fun ended => ended.trans (source.monotone _ _ later)
  refine ⟨?_, ?_, fun waiting _ => (h.turn_quiet waiting).1⟩
  · intro slot mem
    have round := @Loop.next_round source.now s.reads s.loop s.call refreshed
    rw [Waiter.turn] at mem
    generalize s.loop.nextTakes source.now s.reads s.call = takes at round
    generalize s.loop.next source.now s.reads s.call refreshed = turn at round mem
    cases round with
    | timer going due =>
      obtain ⟨-, rfl⟩ := TimerSchedule.takeDue_some due
      rcases TimerSchedule.claim_slot mem with old | ⟨-, again⟩
      · exact still slot old
      · rw [again]
        exact after_inTime source later _
    | _ => exact still slot mem
  · rw [turn_deadline]
    exact h.bounded

theorem Quiet.operated_self (h : s.Quiet) (notifies : Bool) : (s.operated s.loop notifies).Quiet :=
  ⟨h.empty, h.noQuit, h.timers, h.own, h.untimed⟩

theorem Sound.operated (h : Sound source s) {loop : Loop} {notifies : Bool}
    (inTime : ∀ slot ∈ loop.timers, slot ∈ s.loop.timers ∨ slot.deadline < noDeadline ∨
      noDeadline ≤ source.now s.reads)
    (quiet : notifies = false → s.Quiet → (s.operated loop notifies).Quiet) :
    Sound source (s.operated loop notifies) := by
  refine ⟨fun slot mem => ?_, h.bounded, fun waiting unnotified => ?_⟩
  · exact (inTime slot mem).elim (h.inTime slot) id
  · obtain ⟨before, silent⟩ := Bool.or_eq_false_iff.mp unnotified
    exact quiet silent (h.quiet waiting before)

theorem Sound.step (h : Sound source s) (step : Step source s t) : Sound source t := by
  cases step with
  | enter call outside at' inTime =>
    refine ⟨h.inTime, inTime, fun waiting => ?_⟩
    cases at'.symm.trans waiting
  | turn refreshed at' => exact h.turn
  | wake waiting =>
    refine ⟨h.inTime, h.bounded, fun again => ?_⟩
    cases again
  | read =>
    refine ⟨fun slot mem => ?_, h.bounded, fun waiting unnotified => ?_⟩
    · exact (h.inTime slot mem).imp_right fun ended =>
        ended.trans (source.monotone _ _ (Nat.le_succ _))
    · obtain ⟨empty, noQuit, timers, own, untimed⟩ := h.quiet waiting unnotified
      exact ⟨empty, noQuit, timers, own, untimed⟩
  | enqueue free =>
    cases finished : s.loop.finished with
    | true =>
      rw [Loop.enqueue, if_pos finished]
      exact h.operated (fun slot mem => Or.inl mem) fun _ quiet => quiet.operated_self _
    | false =>
      rw [Loop.enqueue, if_neg (by simp [finished])]
      exact h.operated (fun slot mem => Or.inl mem) fun silent => by cases silent
  | installTimer id repeats interval reading made free =>
    cases finished : s.loop.finished with
    | true =>
      rw [Loop.installTimer, if_pos finished]
      exact h.operated (fun slot mem => Or.inl mem) fun _ quiet => quiet.operated_self _
    | false =>
      rw [Loop.installTimer, if_neg (by simp [finished])]
      refine h.operated (fun slot mem => ?_) fun silent => by cases silent
      rcases List.mem_append.mp mem with old | new
      · exact Or.inl old
      · rw [List.mem_singleton.mp new]
        exact Or.inr (after_inTime source made.le interval)
  | removeTimer id free =>
    exact h.operated (fun slot mem => Or.inl (List.mem_of_mem_eraseP mem)) fun silent => by cases silent
  | quit free => exact h.operated (fun slot mem => Or.inl mem) fun silent => by cases silent
  | clear free =>
    refine h.operated (fun slot mem => Or.inl mem) fun _ quiet => ?_
    exact ⟨rfl, quiet.noQuit, quiet.timers, quiet.own, quiet.untimed⟩
  | finish free =>
    refine h.operated (fun slot mem => by cases mem) fun _ quiet => ?_
    exact ⟨rfl, quiet.noQuit, fun slot mem => (by cases mem), quiet.own,
      fun untimed => ⟨(quiet.untimed untimed).1, rfl⟩⟩

theorem sound (reachable : Reachable source s) : Sound source s := by
  refine reachable.invariant ?_ fun _ _ h step => h.step step
  rintro _ rfl
  exact ⟨fun slot mem => (by cases mem), le_rfl, fun waiting => by cases waiting⟩

/-- A call waits only with nothing to be woken for, and is notified of all that comes up. -/
theorem no_lost_wakeup (reachable : Reachable source s) :
    (∀ t, Step source s t → s.call.control ≠ .waiting → t.call.control = .waiting →
      t.notified = false ∧ t.loop.pending = [] ∧ t.loop.quit = false ∧
        (∀ slot ∈ t.loop.timers, source.now (t.reads - 1) < slot.deadline) ∧
        (∀ slot ∈ t.loop.timers, t.waitDeadline ≤ slot.deadline) ∧
        t.waitDeadline ≤ t.call.deadline ∧
        (t.waitDeadline = noDeadline ↔ t.call.deadline = noDeadline ∧ t.loop.timers = [])) ∧
    (∀ t, Step source s t → t.call.control = .waiting → s.Quiet → ¬ t.Quiet →
      t.notified = true) ∧
    ¬ (s.call.control = .waiting ∧ s.notified = false ∧
      (s.loop.pending ≠ [] ∨ s.loop.quit = true ∨
        ∃ slot ∈ s.loop.timers, slot.deadline < s.waitDeadline)) := by
  have h := sound reachable
  refine ⟨fun t step before waiting => ?_, fun t step waiting _ woken => ?_, ?_⟩
  · have begins : ∃ refreshed, s.call.control = .next refreshed ∧
        t = s.turn source.now refreshed := by
      cases step with
      | turn refreshed at' => exact ⟨refreshed, at', rfl⟩
      | enter call outside at' => cases at'.symm.trans waiting
      | wake here => exact absurd here before
      | _ => exact absurd waiting before
    obtain ⟨refreshed, at', rfl⟩ := begins
    obtain ⟨quiet, inTime⟩ := h.turn_quiet waiting
    refine ⟨rfl, quiet.empty, quiet.noQuit, fun slot mem => inTime.trans_le (quiet.timers slot mem),
      quiet.timers, quiet.own, quiet.untimed, ?_⟩
    rintro ⟨own, none⟩
    obtain ⟨-, -, reading, -, eq, -⟩ := turn_waits waiting
    rw [eq] at own none ⊢
    dsimp only at own none ⊢
    rw [own, none]
    rfl
  · by_contra unnotified
    exact woken ((h.step step).quiet waiting (by simpa using unnotified))
  · rintro ⟨waiting, unnotified, missed⟩
    have quiet := h.quiet waiting unnotified
    rcases missed with queued | quit | ⟨slot, mem, earlier⟩
    · exact queued quiet.empty
    · rw [quiet.noQuit] at quit
      cases quit
    · exact absurd earlier (not_lt.mpr (quiet.timers slot mem))

/-- `run` waiting for anything at all. -/
def idle : Waiter :=
  ⟨Loop.initial, { Runloop.enter .run noDeadline with control := .waiting }, 1, noDeadline, false⟩

theorem idle_reachable : Reachable Runloop.stoppedClock idle := by
  have entered := (@Transition.Reachable.start _ (· = initial) (Step Runloop.stoppedClock) _ rfl).next
    (.enter { Runloop.enter .run noDeadline with control := .next false } rfl rfl le_rfl)
  exact entered.next (.turn false rfl)

theorem no_lost_wakeup_idle :
    (idle.operated idle.loop.enqueue true).notified = true ∧
      ¬ (idle.call.control = .waiting ∧ idle.notified = false ∧
        (idle.loop.pending ≠ [] ∨ idle.loop.quit = true ∨
          ∃ slot ∈ idle.loop.timers, slot.deadline < idle.waitDeadline)) := by
  obtain ⟨-, wakes, none⟩ := no_lost_wakeup idle_reachable
  have quiet : idle.Quiet := ⟨rfl, rfl, by simp [idle, Loop.initial], le_rfl, fun _ => ⟨rfl, rfl⟩⟩
  exact ⟨wakes _ (.enqueue rfl) rfl quiet (fun quiet => by cases quiet.empty), none⟩

end Waits

end Waiter

end Dross
