import Dross.Library.Monitor
import Dross.Thread.QueueWaits

/-!
# Waking those who wait for an operation queue or for a result

`done` notifies everyone who waits for the queue, and so does a `cancel` that found its
task, both after the mutex is released. Whoever fills a result in or marks it cancelled
notifies everyone who waits for it. Nothing else settles what a caller waits for.
-/

namespace Dross

namespace Run

variable {α : Type} {s t : Run α}

/-- The steps after which `_settled` is notified. -/
def Settles (s t : Run α) : Prop :=
  (∃ hand ∈ s.hands, hand.returned = true ∧ t = s.done hand) ∨
    ∃ id, (s.shared.cancel id).1 = true ∧ t = s.cancel id

theorem cancel_missed {id : OperationId} (missed : ¬ (s.shared.cancel id).1 = true) :
    s.cancel id = s := by
  have nothing : s.shared.cancel id = (false, [], s.shared) := by
    unfold Shared.cancel at missed ⊢
    dsimp only at missed ⊢
    split
    · rfl
    · rename_i found
      rw [found] at missed
      exact absurd rfl missed
  unfold Run.cancel
  rw [nothing]
  simp

theorem Step.quiet (step : Step s t) (silent : ¬ Settles s t) :
    t.finished = s.finished ∧ t.cancelled = s.cancelled := by
  cases step with
  | take worker =>
    unfold Run.take
    dsimp only
    split <;> exact ⟨rfl, rfl⟩
  | cancel id =>
    by_cases found : (s.shared.cancel id).1 = true
    · exact absurd (Or.inr ⟨id, found, rfl⟩) silent
    · rw [cancel_missed found]
      exact ⟨rfl, rfl⟩
  | done hand held ran => exact absurd (Or.inl ⟨hand, held, ran, rfl⟩) silent
  | _ => exact ⟨rfl, rfl⟩

theorem Settles.changes (settles : Settles s t) :
    ¬ (t.finished = s.finished ∧ t.cancelled = s.cancelled) := by
  rintro ⟨finished, cancelled⟩
  rcases settles with ⟨hand, _, _, rfl⟩ | ⟨id, found, rfl⟩
  · have := congrArg List.length finished
    simp [Run.done] at this
  · have same := congrArg List.length cancelled
    have nothing : (s.shared.cancel id).2.1 = [] := by simpa [Run.cancel] using same
    unfold Shared.cancel at found nothing
    dsimp only at found nothing
    split at found
    · cases found
    · rename_i task taken
      simp only [taken, Shared.cancelRemoved] at nothing
      split at nothing <;> cases nothing

/-- What callers of `backlog::wait_for` wait for: the tasks accepted before the call. -/
def settling : Monitor.Rules (Run α) Nat where
  init := Starts
  step := Step
  announces := Settles
  admits := fun s target => target ≤ s.backlog.accepted
  holds := fun s target => s.backlog.settled target

theorem settling_lawful : (settling : Monitor.Rules (Run α) Nat).Lawful where
  admitted := by
    intro s t target reachable step admitted
    exact Nat.le_trans admitted (Reachable.accepted_later reachable (.single step))
  announced := by
    intro s t target reachable step admitted holds
    by_cases loud : Settles s t
    · exact Or.inr loud
    · refine Or.inl ?_
      have grown := Reachable.accepted_later reachable (.single step)
      have later : t.Reachable := Transition.Reachable.next reachable step
      have all := (later.valid.settled_iff (Nat.le_trans admitted grown)).mp holds
      refine (Reachable.valid reachable).settled_iff admitted |>.mpr fun order less => ?_
      obtain ⟨finished, cancelled⟩ := step.quiet loud
      have settled := all order less
      rw [Settled, finished, cancelled] at settled
      exact settled

theorem settling_steady : (settling : Monitor.Rules (Run α) Nat).Steady := by
  intro s t target reachable step admitted holds
  have grown := Reachable.accepted_later reachable (.single step)
  have later : t.Reachable := Transition.Reachable.next reachable step
  have all := ((Reachable.valid reachable).settled_iff admitted).mp holds
  exact (later.valid.settled_iff (Nat.le_trans admitted grown)).mpr fun order less =>
    Reachable.settled_later reachable (.single step) (all order less)

variable {now : Nat → TimePoint} {run : Nat → Monitor.System (Run α) Nat TimePoint}

/-- A call of `wait_for` does not sleep on once what it waits for has settled and everyone
has been notified; it returns true when everything settles before it gives up, and gives
up, with a deadline the clock reaches, when nothing does. -/
theorem wait_for_wakes (h : Monitor.Fair settling now run) {n i : Nat}
    {call : Monitor.Call (Run α) Nat TimePoint} (at_ : (run n).calls[i]? = some call) :
    (call.phase = .asleep → (run n).owed = 0 →
      ∃ order < call.goal, ¬ (run n).state.Settled order) ∧
    ((∀ order < call.goal, (run n).state.Settled order) →
      (∀ answer seen, call.phase ≠ .returned answer seen) →
        ∃ m later seen, n ≤ m ∧ (run m).calls[i]? = some later ∧ later.goal = call.goal ∧
          later.phase = .returned true seen) ∧
    ∀ deadline, call.patience = .until_ deadline → (∃ k, ∀ j, k ≤ j → deadline ≤ now j) →
      ∃ m later answer seen, n ≤ m ∧ (run m).calls[i]? = some later ∧
        later.phase = .returned answer seen ∧
          (answer = true ↔ ∀ order < call.goal, seen.Settled order) := by
  obtain ⟨reachable, sound⟩ := (h.reachable n).sound settling_lawful
  have own := sound call (List.mem_of_getElem? at_)
  have settled := (Reachable.valid reachable).settled_iff own.admitted
  refine ⟨fun sleeps none => ?_, fun all waits => ?_, fun deadline timed passes => ?_⟩
  · by_contra all
    push Not at all
    have := own.woken sleeps (settled.mpr all)
    omega
  · exact h.returns settling_lawful settling_steady at_ (settled.mpr all) waits
  · obtain ⟨m, later, answer, seen, le, found, goal, returned⟩ :=
      h.returns_in_time at_ timed passes
    obtain ⟨_, still⟩ := (h.reachable m).sound settling_lawful
    obtain ⟨reached, _, admitted, same, _⟩ :=
      (still later (List.mem_of_getElem? found)).answered answer seen returned
    refine ⟨m, later, answer, seen, le, found, returned, ?_⟩
    rw [same, ← goal]
    exact (Reachable.valid reached).settled_iff admitted

/-- A clock that moves on by one at each reading. -/
def ticking (reads : Nat) : TimePoint := reads

theorem quiet_of {s t : Run Nat} (same : t.finished = s.finished ∧ t.cancelled = s.cancelled) :
    ¬ Settles s t := fun settles => settles.changes same

/-- A queue with one task, and a caller with a deadline asleep. -/
def asking : Monitor.System (Run Nat) Nat TimePoint :=
  Monitor.System.arrive settling ticking ⟨(initial 1 1 .initial).enqueue {}, [], 0, 0⟩ 1
    (.until_ 5)

/-- The task has been through `done`, and the caller is still to be notified. -/
def restless : Monitor.System (Run Nat) Nat TimePoint :=
  { asking with
    state := ((asking.state.take 0).finish ⟨0, ⟨0, some 1⟩, false⟩ 7).done ⟨0, ⟨0, some 1⟩, true⟩
    owed := 1 }

theorem restless_reachable : Monitor.Reachable settling ticking restless := by
  have start : Monitor.Reachable settling ticking
      (⟨initial 1 1 .initial, [], 0, 0⟩ : Monitor.System (Run Nat) Nat TimePoint) :=
    Transition.Reachable.start ⟨initial_starts 1 1, rfl, rfl⟩
  have accepted := Transition.Reachable.next start
    (.quiet _ (Step.enqueue {} (fun _ mem => nomatch mem)) (quiet_of ⟨rfl, rfl⟩))
  have asked : Monitor.Reachable settling ticking asking := Transition.Reachable.next accepted
    (.arrive 1 (.until_ 5) (Nat.le_refl 1))
  have taken := Transition.Reachable.next asked (.quiet _ (Step.take 0) (quiet_of ⟨rfl, rfl⟩))
  have returned := Transition.Reachable.next taken
    (.quiet _ (Step.finish ⟨0, ⟨0, some 1⟩, false⟩ 7 (by decide) rfl) (quiet_of ⟨rfl, rfl⟩))
  exact Transition.Reachable.next returned
    (.announce _ (Step.done ⟨0, ⟨0, some 1⟩, true⟩ (by decide) rfl)
      (Or.inl ⟨_, by decide, rfl, rfl⟩))

theorem wait_for_wakes_restless : ∃ m later seen, 0 ≤ m ∧
    (Monitor.settles settling ticking restless 1 (.until_ 5) m).calls[0]? = some later ∧
      later.goal = 1 ∧ later.phase = .returned true seen := by
  have fair : Monitor.Fair settling ticking
      (Monitor.settles settling ticking restless 1 (.until_ 5)) :=
    Monitor.settles_fair restless_reachable rfl rfl rfl
  have at_ : (Monitor.settles settling ticking restless 1 (.until_ 5) 0).calls[0]? =
      some ⟨1, .until_ 5, .asleep⟩ := rfl
  refine (wait_for_wakes fair at_).2.1 (fun order less => ?_) (fun _ _ same => nomatch same)
  rw [Nat.lt_one_iff.mp less]
  exact Or.inl List.mem_cons_self

/-! ## Results -/

/-- The steps after which `_changed` of a result is notified. -/
def Fills (id : OperationId) (s t : Run α) : Prop :=
  (∃ hand value, hand ∈ s.hands ∧ hand.returned = false ∧ hand.entry.result = some id ∧
    t = s.finish hand value) ∨
  ∃ other, t = s.cancel other ∧ ∃ task ∈ (s.shared.cancel other).2.1, task.result = some id

/-- What callers of `operation_result::wait_for` wait for, on a result this queue made: one
of a task it accepted, or one cancelled as it was made. -/
def filling (id : OperationId) : Monitor.Rules (Run α) Unit where
  init := Starts
  step := Step
  announces := Fills id
  admits := fun s _ =>
    (∃ order, s.resultOf order = some id) ∨ s.operations.stateOf id = some .cancelled
  holds := fun s _ => ! s.operations.isPending id

theorem Step.cancels (step : Step s t) {order : Nat} (gone : order ∈ t.cancelled) :
    order ∈ s.cancelled ∨ ∃ other, t = s.cancel other ∧
      ∃ task ∈ (s.shared.cancel other).2.1, task.order = order := by
  cases step with
  | cancel other =>
    rcases List.mem_append.mp gone with old | new
    · exact Or.inl old
    · obtain ⟨task, mem, same⟩ := List.mem_map.mp new
      exact Or.inr ⟨other, rfl, task, mem, same⟩
  | take worker =>
    unfold Run.take at gone
    dsimp only at gone
    split at gone <;> exact Or.inl gone
  | _ => exact Or.inl gone

variable {id : OperationId}

theorem Valid.removed_recorded (h : s.Valid []) {other : OperationId} {task : Entry}
    (mem : task ∈ (s.shared.cancel other).2.1) : s.resultOf task.order = task.result := by
  cases found : (s.backlog.takeOut other).1 with
  | none =>
    have nothing : (s.shared.cancel other).2.1 = [] := by
      unfold Shared.cancel
      simp [found]
    rw [nothing] at mem
    cases mem
  | some first => exact h.books.recorded task (Or.inl ((h.cancel_removed found task).mp mem).1)

theorem filling_lawful (id : OperationId) : (filling id : Monitor.Rules (Run α) Unit).Lawful where
  admitted := by
    rintro s t _ reachable step (⟨order, own⟩ | cancelled)
    · refine Or.inl ⟨order, ?_⟩
      have extends_ := Reachable.extends reachable (.single step)
      rw [extends_.resultOf (resultOf_lt own), own]
    · exact Or.inr ((Reachable.extends reachable (.single step)).settled id _ cancelled (by simp))
  announced := by
    intro s t _ reachable step own holds
    have valid := Reachable.valid reachable
    have filled : t.operations.isPending id = false := by simpa [filling] using holds
    by_cases pending : s.operations.stateOf id = some .pending
    · refine Or.inr ?_
      obtain ⟨order, own⟩ : ∃ order, s.resultOf order = some id := by
        rcases own with own | cancelled
        · exact own
        · rw [pending] at cancelled
          cases cancelled
      cases state : t.operations.stateOf id with
      | none =>
        have still := (Reachable.extends reachable (.single step)).resultOf (resultOf_lt own)
        have later : t.Reachable := Transition.Reachable.next reachable step
        exact absurd state (later.valid.results.owned order id (still.trans own)).2
      | some left =>
        have queue := (valid.results.owned order id own).1
        rcases Reachable.settles reachable step queue pending state with
          rfl | ⟨hand, value, mem, running, result, _, rfl⟩ | ⟨_, order', gone, named⟩
        · rw [(Operations.isPending_iff _ _).mpr state] at filled
          cases filled
        · exact Or.inl ⟨hand, value, mem, running, result, rfl⟩
        · -- the order was not cancelled before, so this step is the call of `cancel` that did
          have extends_ := Reachable.extends reachable (.single step)
          have later : t.Reachable := Transition.Reachable.next reachable step
          have same : order' = order := by
            refine later.valid.books.distinct order' order id named ?_
            rw [extends_.resultOf (resultOf_lt own), own]
          subst same
          rcases step.cancels gone with before | ⟨other, rfl, task, mem, same⟩
          · have cancelled := valid.results.cancelled order' before id own
            rw [pending] at cancelled
            cases cancelled
          · exact Or.inr ⟨other, rfl, task, mem, by rw [← valid.removed_recorded mem, same, own]⟩
    · refine Or.inl ?_
      have open_ : ¬ s.operations.isPending id = true :=
        fun is => pending ((Operations.isPending_iff _ _).mp is)
      simpa [filling] using open_

/-- What is announced of a result has happened to it. -/
theorem Fills.settled {id : OperationId} (fills : Fills id s t) (reachable : s.Reachable) :
    t.operations.stateOf id ≠ some .pending := by
  have valid := reachable.valid
  rcases fills with ⟨hand, value, mem, running, result, rfl⟩ | ⟨other, rfl, task, mem, result⟩
  · have pending := (valid.results.running hand mem id result).1 running
    have state : (s.finish hand value).operations.stateOf id = some (.returned value) := by
      change (s.shared.finishResult hand.entry value).operations.stateOf id = _
      simp only [Shared.finishResult, result]
      rw [Operations.finish, Operations.stateOf_settle, if_pos]
      exact ⟨rfl, (Operations.isPending_iff _ _).mpr pending⟩
    rw [state]
    simp
  · have gone : task.order ∈ (s.cancel other).cancelled :=
      List.mem_append_right _ (List.mem_map_of_mem (f := Entry.order) mem)
    have named : (s.cancel other).resultOf task.order = some id :=
      (valid.removed_recorded mem).trans result
    rw [(valid.cancel other).results.cancelled task.order gone id named]
    simp

theorem filling_holds {id : OperationId} : (filling id : Monitor.Rules (Run α) Unit).holds s () =
    true ↔ s.operations.stateOf id ≠ some .pending := by
  rw [ne_eq, ← Operations.isPending_iff]
  simp [filling]

theorem filling_steady (id : OperationId) :
    (filling id : Monitor.Rules (Run α) Unit).Steady := by
  intro s t _ reachable step own holds
  have settled := filling_holds.mp holds
  refine filling_holds.mpr fun pending => ?_
  have extends_ := Reachable.extends reachable (.single step)
  cases state : s.operations.stateOf id with
  | none =>
    rcases own with ⟨order, own⟩ | cancelled
    · exact (Reachable.valid reachable).results.owned order id own |>.2 state
    · rw [state] at cancelled
      cases cancelled
  | some left =>
    have still := extends_.settled id left state (fun same => settled (same ▸ state))
    rw [pending] at still
    exact settled (Option.some.inj still ▸ state)

variable {filled : Nat → Monitor.System (Run α) Unit TimePoint}

/-- A call of `wait_for` on a result does not sleep on once the result is filled in or
cancelled and everyone has been notified; it returns true when that happens before it gives
up, and gives up, with a deadline the clock reaches, when it does not. -/
theorem result_wait_wakes {id : OperationId} (h : Monitor.Fair (filling id) now filled) {n i : Nat}
    {call : Monitor.Call (Run α) Unit TimePoint} (at_ : (filled n).calls[i]? = some call) :
    (call.phase = .asleep → (filled n).owed = 0 →
      (filled n).state.operations.stateOf id = some .pending) ∧
    ((filled n).state.operations.stateOf id ≠ some .pending →
      (∀ answer seen, call.phase ≠ .returned answer seen) →
        ∃ m later seen, n ≤ m ∧ (filled m).calls[i]? = some later ∧
          later.phase = .returned true seen) ∧
    ∀ deadline, call.patience = .until_ deadline → (∃ k, ∀ j, k ≤ j → deadline ≤ now j) →
      ∃ m later answer seen, n ≤ m ∧ (filled m).calls[i]? = some later ∧
        later.phase = .returned answer seen ∧
          (answer = true ↔ seen.operations.stateOf id ≠ some .pending) := by
  obtain ⟨reachable, sound⟩ := (h.reachable n).sound (filling_lawful id)
  have own := sound call (List.mem_of_getElem? at_)
  refine ⟨fun sleeps none => ?_, fun settled waits => ?_, fun deadline timed passes => ?_⟩
  · by_contra settled
    have := own.woken sleeps (filling_holds.mpr settled)
    omega
  · obtain ⟨m, later, seen, le, found, _, returned⟩ :=
      h.returns (filling_lawful id) (filling_steady id) at_ (filling_holds.mpr settled) waits
    exact ⟨m, later, seen, le, found, returned⟩
  · obtain ⟨m, later, answer, seen, le, found, _, returned⟩ := h.returns_in_time at_ timed passes
    obtain ⟨_, still⟩ := (h.reachable m).sound (filling_lawful id)
    obtain ⟨_, _, _, same, _⟩ :=
      (still later (List.mem_of_getElem? found)).answered answer seen returned
    refine ⟨m, later, answer, seen, le, found, returned, ?_⟩
    rw [same]
    exact filling_holds

/-- The same caller, waiting for the task's result, which has just been filled in. -/
def restlessResult : Monitor.System (Run Nat) Unit TimePoint :=
  { Monitor.System.arrive (filling 1) ticking ⟨(initial 1 1 .initial).enqueue {}, [], 0, 0⟩ ()
      (.until_ 5) with
    state := (((initial 1 1 .initial).enqueue {}).take 0).finish ⟨0, ⟨0, some 1⟩, false⟩ 7
    owed := 1 }

theorem restlessResult_reachable : Monitor.Reachable (filling 1) ticking restlessResult := by
  have start : Monitor.Reachable (filling 1) ticking
      (⟨initial 1 1 .initial, [], 0, 0⟩ : Monitor.System (Run Nat) Unit TimePoint) :=
    Transition.Reachable.start ⟨initial_starts 1 1, rfl, rfl⟩
  have begun : (initial 1 1 .initial : Run Nat).Reachable :=
    Transition.Reachable.start (initial_starts 1 1)
  have enqueue : Step (initial 1 1 .initial : Run Nat) ((initial 1 1 .initial).enqueue {}) :=
    .enqueue {} (fun _ mem => nomatch mem)
  have one : ((initial 1 1 .initial : Run Nat).enqueue {}).Reachable :=
    Transition.Reachable.next begun enqueue
  have accepted := Transition.Reachable.next start
    (.quiet _ enqueue (fun fills => fills.settled begun rfl))
  have asked := Transition.Reachable.next accepted (.arrive () (.until_ 5) (Or.inl ⟨0, rfl⟩))
  have taken := Transition.Reachable.next asked
    (.quiet _ (Step.take 0) (fun fills => fills.settled one rfl))
  exact Transition.Reachable.next taken
    (.announce _ (Step.finish ⟨0, ⟨0, some 1⟩, false⟩ 7 (by decide) rfl)
      (Or.inl ⟨_, 7, by decide, rfl, rfl, rfl⟩))

theorem result_wait_wakes_restless : ∃ m later seen, 0 ≤ m ∧
    (Monitor.settles (filling 1) ticking restlessResult () (.until_ 5) m).calls[0]? = some later ∧
      later.phase = .returned true seen := by
  have fair : Monitor.Fair (filling 1) ticking
      (Monitor.settles (filling 1) ticking restlessResult () (.until_ 5)) :=
    Monitor.settles_fair restlessResult_reachable rfl rfl rfl
  have at_ : (Monitor.settles (filling 1) ticking restlessResult () (.until_ 5) 0).calls[0]? =
      some ⟨(), .until_ 5, .asleep⟩ := rfl
  exact (result_wait_wakes fair at_).2.1 (by decide) (fun _ _ same => nomatch same)

end Run

end Dross
