import Dross.Thread.QueueGuarantees
import Dross.Thread.TimerSchedule
import Mathlib.Data.Finset.Max

/-!
# Waiting for an operation queue

`wait_for` looks at the unfinished orders alone, and holds the mutex from one
look to the next unless it waits. What it sees agrees with the results, since a
result is filled in before its task goes through `done` and marked cancelled
under the mutex its task goes under.
-/

namespace Dross

namespace Backlog

/-- Whether the first unfinished task, if there is one, was accepted after `target` others. -/
def settled (b : Backlog) (target : Nat) : Bool :=
  if some : b.unfinished.Nonempty then decide (target ≤ b.unfinished.min' some) else true

theorem settled_iff {b : Backlog} {target : Nat} :
    b.settled target = true ↔ ∀ order ∈ b.unfinished, target ≤ order := by
  unfold settled
  split
  · rw [decide_eq_true_iff, Finset.le_min'_iff]
  · rename_i none
    rw [Finset.not_nonempty_iff_eq_empty] at none
    simp [none]

end Backlog

namespace Run

variable {α : Type} {s t u : Run α}

/-- Whether a task has been through `done` or has been cancelled. -/
def Settled (s : Run α) (order : Nat) : Prop := order ∈ s.finished ∨ order ∈ s.cancelled

/-- Whether the call of a task has returned. -/
def Ran (s : Run α) (order : Nat) : Prop :=
  order ∈ s.finished ∨ ∃ hand ∈ s.hands, hand.entry.order = order ∧ hand.returned = true

/-! ## What is unfinished -/

theorem Valid.settled_or_unfinished (h : s.Valid []) {order : Nat}
    (accepted : order < s.backlog.accepted) :
    s.Settled order ↔ order ∉ s.backlog.unfinished := by
  have accounted := h.books.accounted order
  rw [if_pos accepted] at accounted
  rw [h.books.unfinished, Settled, ← List.count_pos_iff, ← List.count_pos_iff]
  omega

theorem Valid.settled_iff (h : s.Valid []) {target : Nat} (accepted : target ≤ s.backlog.accepted) :
    s.backlog.settled target = true ↔ ∀ order < target, s.Settled order := by
  rw [Backlog.settled_iff]
  constructor
  · intro first order less
    rw [h.settled_or_unfinished (Nat.lt_of_lt_of_le less accepted)]
    intro mem
    have := first order mem
    omega
  · intro all order mem
    by_contra less
    have less : order < target := by omega
    exact (h.settled_or_unfinished (Nat.lt_of_lt_of_le less accepted)).mp (all order less) mem

theorem Step.finished (step : Step s t) : ∀ order ∈ s.finished, order ∈ t.finished := by
  intro order mem
  cases step with
  | take worker =>
    unfold Run.take
    dsimp only
    split <;> exact mem
  | done hand held ran => exact List.mem_cons_of_mem _ mem
  | _ => exact mem

theorem Reachable.finished_later (run : Relation.ReflTransGen Step s t) :
    ∀ order ∈ s.finished, order ∈ t.finished := by
  induction run with
  | refl => exact fun _ mem => mem
  | tail _ step ih => exact fun order mem => step.finished order (ih order mem)

theorem Reachable.settled_later (h : s.Reachable) (run : Relation.ReflTransGen Step s t)
    {order : Nat} (settled : s.Settled order) : t.Settled order := by
  rcases settled with finished | cancelled
  · exact Or.inl (finished_later run order finished)
  · exact Or.inr ((h.extends run).cancelled order cancelled)

theorem Reachable.accepted_later (h : s.Reachable) (run : Relation.ReflTransGen Step s t) :
    s.backlog.accepted ≤ t.backlog.accepted := by
  rw [← h.valid.books.logged, ← (h.later run).valid.books.logged]
  exact (h.extends run).log.length_le

/-! ## What a result says -/

theorem Valid.cancelled_not_ran (h : s.Valid []) {order : Nat} (cancelled : order ∈ s.cancelled) :
    ¬ s.Ran order := by
  have accounted := h.books.accounted order
  have gone := List.count_pos_iff.mpr cancelled
  rintro (finished | ⟨hand, mem, same, _⟩)
  · have := List.count_pos_iff.mpr finished
    split at accounted <;> omega
  · have live : s.Live [] hand.entry := Or.inr (List.mem_map_of_mem (f := Hand.entry) mem)
    have := liveTally_pos.mpr ⟨hand.entry, live, same⟩
    split at accounted <;> omega

/-- A task with a result ran, was cancelled, or neither, and its result says which. -/
theorem Valid.result_state (h : s.Valid []) {order : Nat} {id : OperationId}
    (own : s.resultOf order = some id) :
    (s.Ran order ∧ ∃ value, s.operations.stateOf id = some (.returned value)) ∨
    (order ∈ s.cancelled ∧ ¬ s.Ran order ∧ s.operations.stateOf id = some .cancelled) ∨
    (order ∉ s.cancelled ∧ ¬ s.Ran order ∧ s.operations.stateOf id = some .pending) := by
  by_cases cancelled : order ∈ s.cancelled
  · exact Or.inr (Or.inl ⟨cancelled, h.cancelled_not_ran cancelled,
      h.results.cancelled order cancelled id own⟩)
  by_cases ran : s.Ran order
  · refine Or.inl ⟨ran, ?_⟩
    rcases ran with finished | ⟨hand, mem, rfl, returned⟩
    · exact h.results.finished order finished id own
    · have live : s.Live [] hand.entry := Or.inr (List.mem_map_of_mem (f := Hand.entry) mem)
      have result : hand.entry.result = some id := by rw [← h.books.recorded _ live, own]
      exact (h.results.running hand mem id result).2 returned
  refine Or.inr (Or.inr ⟨cancelled, ran, ?_⟩)
  -- neither, so its task is in a list, aside, or in a hand that has not returned
  have live : 0 < s.liveTally [] order := by
    have accounted := h.books.accounted order
    have accepted : order < s.backlog.accepted := by
      rw [← h.books.logged]
      exact resultOf_lt own
    have := List.count_eq_zero.mpr cancelled
    have := List.count_eq_zero.mpr (fun finished => ran (Or.inl finished))
    rw [if_pos accepted] at accounted
    omega
  obtain ⟨task, place, rfl⟩ := liveTally_pos.mp live
  have result : task.result = some id := by rw [← h.books.recorded task place, own]
  rcases place with idle | held
  · exact h.results.idle task id idle result
  · obtain ⟨hand, mem, rfl⟩ := List.mem_map.mp held
    refine (h.results.running hand mem id result).1 ?_
    cases returned : hand.returned with
    | false => rfl
    | true => exact absurd (Or.inr ⟨hand, mem, rfl, returned⟩) ran

/-- A task comes to have run when its call returns. -/
theorem Step.ran (step : Step s t) {order : Nat} (ran : t.Ran order) :
    s.Ran order ∨ ∃ hand value, hand ∈ s.hands ∧ hand.returned = false ∧
      hand.entry.order = order ∧ t = s.finish hand value := by
  cases step with
  | take worker =>
    unfold Run.take at ran
    dsimp only at ran
    split at ran
    · exact Or.inl ran
    · rcases ran with finished | ⟨hand, mem, same, returned⟩
      · exact Or.inl (Or.inl finished)
      · rcases List.mem_cons.mp mem with rfl | mem
        · cases returned
        · exact Or.inl (Or.inr ⟨hand, mem, same, returned⟩)
  | finish hand value held running =>
    rcases ran with finished | ⟨other, mem, same, returned⟩
    · exact Or.inl (Or.inl finished)
    · rcases List.mem_cons.mp mem with rfl | mem
      · exact Or.inr ⟨hand, value, held, running, same, rfl⟩
      · exact Or.inl (Or.inr ⟨other, List.mem_of_mem_erase mem, same, returned⟩)
  | done hand held returned =>
    rcases ran with finished | ⟨other, mem, same, again⟩
    · rcases List.mem_cons.mp finished with rfl | finished
      · exact Or.inl (Or.inr ⟨hand, held, rfl, returned⟩)
      · exact Or.inl (Or.inl finished)
    · exact Or.inl (Or.inr ⟨other, List.mem_of_mem_erase mem, same, again⟩)
  | _ => exact Or.inl ran

/-- A result leaves pending only for a task whose call returned that value, or with its
task cancelled. -/
theorem Reachable.settles {id : OperationId} {state : ResultState α} (h : s.Reachable)
    (step : Step s t) (own : s.operations.queueOf id = s.backlog.number)
    (pending : s.operations.stateOf id = some .pending)
    (later : t.operations.stateOf id = some state) :
    state = .pending ∨
    (∃ hand value, hand ∈ s.hands ∧ hand.returned = false ∧ hand.entry.result = some id ∧
      state = .returned value ∧ t = s.finish hand value) ∨
    (state = .cancelled ∧ ∃ order ∈ t.cancelled, t.resultOf order = some id) := by
  have valid := h.valid
  obtain ⟨task, live, result⟩ := valid.results.settled id own pending
  have named : s.resultOf task.order = some id := by rw [valid.books.recorded task live, result]
  have still : t.resultOf task.order = some id := by
    rw [(h.extends (.single step)).resultOf (resultOf_lt named), named]
  rcases (h.later (.single step)).valid.result_state still with ⟨ran, value, returned⟩ | ⟨gone, _, cancelled⟩ |
    ⟨_, _, pending'⟩
  · rw [later] at returned
    obtain rfl := Option.some.inj returned
    refine Or.inr (Or.inl ?_)
    -- its task had not run, so it is the one that has now
    have not_ran : ¬ s.Ran task.order := by
      rcases valid.result_state named with ⟨_, _, was⟩ | ⟨_, not_ran, _⟩ | ⟨_, not_ran, _⟩
      · rw [pending] at was
        cases was
      · exact not_ran
      · exact not_ran
    obtain ⟨hand, given, mem, running, same, rfl⟩ := (step.ran ran).resolve_left not_ran
    have own : hand.entry.result = some id := by
      have live : s.Live [] hand.entry := Or.inr (List.mem_map_of_mem (f := Hand.entry) mem)
      rw [← valid.books.recorded hand.entry live, same, named]
    refine ⟨hand, given, mem, running, own, ?_, rfl⟩
    have state : (s.finish hand given).operations.stateOf id = some (.returned given) := by
      change (s.shared.finishResult hand.entry given).operations.stateOf id = _
      simp only [Shared.finishResult, own]
      rw [Operations.finish, Operations.stateOf_settle, if_pos]
      exact ⟨rfl, (Operations.isPending_iff _ _).mpr pending⟩
    rw [later] at state
    exact Option.some.inj state
  · rw [later] at cancelled
    exact Or.inr (Or.inr ⟨Option.some.inj cancelled, task.order, gone, still⟩)
  · rw [later] at pending'
    exact Or.inl (Option.some.inj pending')

end Run

/-! ## Calls of `wait_for` -/

/-- A call of `wait_for`, with no deadline when it only reports. The run it was made in,
and the one it returned in, are only remembered. -/
structure WaitCall (α : Type) where
  asked : Run α
  target : Nat
  deadline : Option TimePoint
  returned : Option (Bool × Run α)

/-- A queue, the calls of `wait_for` on it, and how often the clock has been read. -/
structure Awaited (α : Type) where
  run : Run α
  calls : List (WaitCall α)
  reads : Nat

namespace Awaited

variable {α : Type} {now : Nat → TimePoint} {w v : Awaited α}

/-- What a call does with the mutex: it returns once everything has settled or its
deadline has passed, and otherwise goes on waiting. -/
def look (now : Nat → TimePoint) (run : Run α) (reads : Nat) (call : WaitCall α) :
    WaitCall α × Nat :=
  if run.backlog.settled call.target then ({ call with returned := some (true, run) }, reads)
  else
    match call.deadline with
    | none => ({ call with returned := some (false, run) }, reads)
    | some deadline =>
      if now reads < deadline then (call, reads + 1)
      else ({ call with returned := some (false, run) }, reads + 1)

/-- `wait_for`, which does not wait on one of the queue's own workers. -/
def waitFor (now : Nat → TimePoint) (w : Awaited α) (timeout : Int) (wait : Bool) : Awaited α :=
  let target := w.run.backlog.accepted
  if ! wait || decide (timeout ≤ 0) then
    let looked := look now w.run w.reads ⟨w.run, target, none, none⟩
    { w with calls := w.calls ++ [looked.1], reads := looked.2 }
  else
    let deadline := Deadline.after (now w.reads) timeout
    let looked := look now w.run (w.reads + 1) ⟨w.run, target, some deadline, none⟩
    { w with calls := w.calls ++ [looked.1], reads := looked.2 }

/-- One step: an operation of the queue, a call of `wait_for`, or one that looks again. -/
inductive Step (now : Nat → TimePoint) (w : Awaited α) : Awaited α → Prop
  | run {run : Run α} (step : Run.Step w.run run) : Step now w { w with run := run }
  | waitFor (timeout : Int) (wait : Bool) : Step now w (w.waitFor now timeout wait)
  | wake (i : Nat) (call : WaitCall α) (at' : w.calls[i]? = some call)
      (waiting : call.returned = none) :
      Step now w { w with
        calls := w.calls.set i (look now w.run w.reads call).1
        reads := (look now w.run w.reads call).2 }
  | read : Step now w { w with reads := w.reads + 1 }

def Reachable (now : Nat → TimePoint) : Awaited α → Prop :=
  Transition.Reachable (fun w => w.run.Starts ∧ w.calls = []) (Step now)

/-- What holds of a call in every run: what it waits for, and what its answer meant when
it was given. -/
structure Answers (run : Run α) (call : WaitCall α) : Prop where
  asked : call.asked.Reachable
  target : call.target = call.asked.backlog.accepted
  since : Relation.ReflTransGen Run.Step call.asked run
  returned : ∀ value then_, call.returned = some (value, then_) →
    Relation.ReflTransGen Run.Step call.asked then_ ∧ Relation.ReflTransGen Run.Step then_ run ∧
      (value = true ↔ ∀ order < call.target, then_.Settled order)

theorem Answers.later {run later : Run α} {call : WaitCall α} (h : Answers run call)
    (step : Run.Step run later) : Answers later call where
  asked := h.asked
  target := h.target
  since := h.since.tail step
  returned := by
    intro value then_ eq
    obtain ⟨before, after, answer⟩ := h.returned value then_ eq
    exact ⟨before, after.tail step, answer⟩

theorem Answers.look {run : Run α} {call : WaitCall α} {reads : Nat} (h : Answers run call) :
    Answers run (look now run reads call).1 := by
  have reachable := h.asked.later h.since
  have accepted : call.target ≤ run.backlog.accepted := by
    rw [h.target]
    exact h.asked.accepted_later h.since
  have settled := reachable.valid.settled_iff accepted
  have answered (value : Bool) (answer : value = true ↔ run.backlog.settled call.target = true) :
      Answers run { call with returned := some (value, run) } := by
    refine ⟨h.asked, h.target, h.since, fun value' then_ eq => ?_⟩
    obtain ⟨rfl, rfl⟩ : value = value' ∧ run = then_ := by simpa using eq
    exact ⟨h.since, .refl, answer.trans settled⟩
  unfold Awaited.look
  split
  · rename_i done
    exact answered true (by simp [done])
  · rename_i open_
    split
    · exact answered false (by simpa using open_)
    · split
      · exact h
      · exact answered false (by simpa using open_)

end Awaited

end Dross
