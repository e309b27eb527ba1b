import Dross.Thread.DeadlineBounds
import Dross.Thread.QueueDrains
import Dross.Thread.ThreadJoins
import Mathlib.Data.Int.ConditionallyCompleteOrder
import Mathlib.Order.ConditionallyCompleteLattice.Basic

/-!
# Shutting an operation queue down

`shutdown` stops the queue and joins one worker after another, each with what is left to
one deadline. The crew and the process are two views of the same workers: a worker's
thread goes to its end once its loop's run has returned.
-/

namespace Dross

/-! ## A queue and its threads -/

/-- Where a caller of `shutdown` is. -/
inductive ClosingPhase where
  | idle
  /-- The queue has stopped, and the deadline is to be set. -/
  | stopped (timeout : Int)
  /-- What is left to the deadline is to be computed. -/
  | asking
  /-- In `join_for`, given so many milliseconds. -/
  | joining (timeout : Int)
  /-- In `join_for`, waiting. -/
  | waiting (deadline : TimePoint)
  | returned (answer : Bool)
  deriving DecidableEq, Repr

/-- A queue with the records of its workers, and one caller of `shutdown` at a time, with the
records it has not joined yet. -/
structure Closing (α : Type) where
  crew : Crew α
  process : Process
  workers : List Nat
  caller : Nat
  deadline : TimePoint
  left : List Nat
  reads : Nat
  phase : ClosingPhase

namespace Closing

variable {α : Type}

/-- `std::chrono::ceil<std::chrono::milliseconds>`. -/
def ceilMillis (duration : Int) : Int := -(-duration / 1000000)

def onAWorker (s : Closing α) : Bool := s.workers.any (s.process.isCurrent s.caller)

def stop (s : Closing α) (caller : Nat) (timeout : Int) : Closing α :=
  { s with crew := s.crew.stop, caller := caller, phase := .stopped timeout }

def setDeadline (now : Nat → TimePoint) (s : Closing α) (timeout : Int) : Closing α :=
  { s with
    deadline := Deadline.after (now s.reads) (if s.onAWorker then 0 else timeout)
    left := s.workers
    reads := s.reads + 1
    phase := .asking }

def ask (now : Nat → TimePoint) (s : Closing α) : Closing α :=
  { s with
    reads := s.reads + 1
    phase := .joining (ceilMillis (s.deadline - now s.reads)) }

/-- What the loop of `shutdown` does with the answer of one `join_for`. -/
def answer (s : Closing α) (finished : Bool) (rest : List Nat) : Closing α :=
  if finished then { s with left := rest, phase := .asking }
  else { s with phase := .returned false }

def join (now : Nat → TimePoint) (s : Closing α) (timeout : Int) (r : Nat) (rest : List Nat) :
    Closing α :=
  if s.process.isCurrent s.caller r ∨ timeout ≤ 0 then
    s.answer (s.process.records r).finished rest
  else
    { s with
      reads := s.reads + 1
      phase := .waiting (Deadline.after (now s.reads) timeout) }

def look (now : Nat → TimePoint) (s : Closing α) (deadline : TimePoint) (r : Nat)
    (rest : List Nat) : Closing α :=
  if (s.process.records r).finished then s.answer true rest
  else if now s.reads < deadline then { s with reads := s.reads + 1 }
  else { s with reads := s.reads + 1, phase := .returned false }

/-- Whether the threads of the workers go to their ends only after their loops. -/
def Follows (s : Closing α) (p : Process) : Prop :=
  ∀ w r, s.workers[w]? = some r → ∀ u, (s.process.records r).ofThread = some u →
    (p.threads u).leaving = true → (s.process.threads u).leaving = false →
      (s.crew.workers w).ended = true

/-- One step: of the queue, of a thread, of the clock, or of the caller. It looks again
whenever it is woken, for whatever reason. The workers are those of `Crew.Step`, which leave
their loops by their finish items alone: a task's `quit` on its worker, or a `run` that
returns early, is no step here. -/
inductive Step (asksMain : Bool) (now : Nat → TimePoint) (s : Closing α) : Closing α → Prop
  | crew {crew : Crew α} (step : Crew.Step s.crew crew) : Step asksMain now s { s with crew := crew }
  | process {p : Process} (step : Process.Step asksMain s.process p) (follows : s.Follows p) :
      Step asksMain now s { s with process := p }
  | read (n : Nat) : Step asksMain now s { s with reads := s.reads + n }
  | stop (caller : Nat) (timeout : Int) (runs : s.process.Runs caller)
      (free : s.phase = .idle ∨ ∃ answer, s.phase = .returned answer) :
      Step asksMain now s (s.stop caller timeout)
  | setDeadline (timeout : Int) (at_ : s.phase = .stopped timeout) :
      Step asksMain now s (s.setDeadline now timeout)
  | ask (at_ : s.phase = .asking) (more : s.left ≠ []) : Step asksMain now s (s.ask now)
  | join (timeout : Int) (r : Nat) (rest : List Nat) (at_ : s.phase = .joining timeout)
      (front : s.left = r :: rest) : Step asksMain now s (s.join now timeout r rest)
  | look (deadline : TimePoint) (r : Nat) (rest : List Nat) (at_ : s.phase = .waiting deadline)
      (front : s.left = r :: rest) : Step asksMain now s (s.look now deadline r rest)
  | finish (at_ : s.phase = .asking) (all : s.left = []) :
      Step asksMain now s { s with phase := .returned true }

/-- A queue as made, with one started thread for each worker. -/
structure Starts (asksMain : Bool) (s : Closing α) : Prop where
  crew : s.crew.Starts
  process : s.process.Reachable asksMain
  staff : s.workers.length = s.crew.count
  started : ∀ r ∈ s.workers, r < s.process.recordCount ∧ (s.process.records r).nativeId ≠ none ∧
    ∃ u, (s.process.records r).ofThread = some u ∧ (s.process.threads u).leaving = false
  idle : s.phase = .idle

def Reachable (asksMain : Bool) (now : Nat → TimePoint) : Closing α → Prop :=
  Transition.Reachable (Starts asksMain) (Step asksMain now)

end Closing

/-! ## What holds of it -/

namespace Process

variable {asksMain : Bool} {p q : Process} {t r : Nat}

/-- Which thread a record that knows its id calls current does not change. -/
theorem Extends.isCurrent (h : p.Extends q) (among : t < p.threadCount) (less : r < p.recordCount)
    (known : (p.records r).nativeId ≠ none) : q.isCurrent t r = p.isCurrent t r := by
  obtain ⟨id, named⟩ := Option.ne_none_iff_exists'.mp known
  have record := h.records r less
  have thread := h.threads t among
  unfold Process.isCurrent
  rw [record.isMain, record.nativeId id named, named, thread.isMain, thread.id]

end Process

namespace Crew

variable {α : Type} {s t : Crew α}

/-- A worker that has ended stays so. -/
theorem Sound.step_ended (h : s.Sound) (step : Step s t) : t.count = s.count ∧
    ∀ w, (s.workers w).ended = true → (t.workers w).ended = true := by
  have handed (workers : Nat → Worker) (item : WorkItem) (ws : List Nat) (w : Nat)
      (ended : (workers w).ended = true) : (hand workers item ws w).ended = true := by
    rw [hand_eq]
    exact ended
  have moved {v : Nat} {frame : Frame} {frames : List Frame} {worker : Worker}
      (top : (s.workers v).frames = frame :: frames) (w : Nat)
      (ended : (s.workers w).ended = true) :
      (Function.update s.workers v worker w).ended = true := by
    have apart : w ≠ v := by
      rintro rfl
      rw [h.gone w ended] at top
      cases top
    rw [Function.update_of_ne apart]
    exact ended
  cases step with
  | submit options made => exact ⟨rfl, handed _ _ _⟩
  | enqueue options made => exact ⟨rfl, handed _ _ _⟩
  | cancel id => exact ⟨rfl, fun _ ended => ended⟩
  | stop => exact ⟨rfl, handed _ _ _⟩
  | elsewhereMakes queue other => exact ⟨rfl, fun _ ended => ended⟩
  | elsewhereSettles id state other => exact ⟨rfl, fun _ ended => ended⟩
  | perform w => exact ⟨rfl, handed _ _ _⟩
  | take w top =>
    unfold Crew.take
    dsimp only
    split <;> exact ⟨rfl, moved top⟩
  | done v top => exact ⟨rfl, fun w ended => handed _ _ _ w (moved top w ended)⟩
  | next w front top awake => exact ⟨rfl, moved top⟩
  | timer w top awake => exact ⟨rfl, moved top⟩
  | nest w top nests => exact ⟨rfl, moved top⟩
  | leave w top => exact ⟨rfl, moved top⟩
  | back w top => exact ⟨rfl, moved top⟩
  | finish w value top => exact ⟨rfl, moved top⟩
  | check w top => exact ⟨rfl, moved top⟩
  | requeue w top => exact ⟨rfl, moved top⟩
  | quit w top => exact ⟨rfl, moved top⟩
  | ended w top told => exact ⟨rfl, moved top⟩

/-- A stopped queue whose workers have all ended has nothing left. -/
theorem Sound.emptied (h : s.Sound) (valid : s.run.Valid [])
    (stopped : s.run.backlog.accepting = false) (ended : ∀ w < s.count, (s.workers w).ended = true) :
    s.run.backlog.unfinished = ∅ ∧ ∀ order < s.run.backlog.accepted,
      s.run.finished.count order + s.run.cancelled.count order = 1 := by
  have frames (w : Nat) : (s.workers w).frames = [] := by
    by_cases less : w < s.count
    · exact h.gone w (ended w less)
    · exact h.staffed w (Nat.le_of_not_lt less)
  refine valid.emptied (fun p => ?_) (List.eq_nil_iff_forall_not_mem.mpr fun hand mem => ?_)
  · by_contra some
    obtain ⟨w, less, ⟨frame, mem, _⟩ | mem⟩ := h.swept stopped ⟨p, some⟩
    · rw [frames] at mem
      cases mem
    · have tokens := h.tokens w less
      have queued := List.count_pos_iff.mpr mem
      rw [stopped, Worker.tokens, ended w less] at tokens
      simp only [Bool.false_eq_true, if_false, Bool.toNat_true] at tokens
      omega
  · have held := List.count_pos_iff.mpr mem
    rw [h.hands, Worker.held, frames] at held
    cases held

end Crew

namespace Closing

variable {α : Type} {asksMain : Bool} {now : Nat → TimePoint} {s t : Closing α}

/-- What a caller knows while it joins one worker after another. -/
structure Joining (now : Nat → TimePoint) (s : Closing α) : Prop where
  within : s.deadline ≤ noDeadline - 1
  left : ∀ r ∈ s.left, r ∈ s.workers
  joined : ∀ r ∈ s.workers, r ∈ s.left ∨ (s.process.records r).finished = true
  current : ∀ r ∈ s.workers, s.process.isCurrent s.caller r = true →
    ∃ k < s.reads, s.deadline ≤ now k

/-- What is known where the caller is. Between the reading of what is left and the one a join
sets its own deadline by, time goes on. -/
def Knows (now : Nat → TimePoint) (s : Closing α) : Prop :=
  match s.phase with
  | .idle => True
  | .stopped _ => s.caller < s.process.threadCount
  | .asking => s.caller < s.process.threadCount ∧ s.Joining now
  | .joining timeout => s.caller < s.process.threadCount ∧ s.Joining now ∧
    ∃ j < s.reads, timeout = ceilMillis (s.deadline - now j)
  | .waiting deadline => s.caller < s.process.threadCount ∧ s.Joining now ∧
    s.deadline ≤ deadline ∧ ∃ j k, j ≤ k ∧ k < s.reads ∧
      (deadline = noDeadline - 1 ∨ deadline < s.deadline + 1000000 + (now k - now j))
  | .returned true => ∀ r ∈ s.workers, (s.process.records r).finished = true
  | .returned false => ∃ k < s.reads, s.deadline ≤ now k

structure Sound (asksMain : Bool) (now : Nat → TimePoint) (s : Closing α) : Prop where
  crew : s.crew.Reachable
  process : s.process.Reachable asksMain
  staff : s.workers.length = s.crew.count
  workers : ∀ r ∈ s.workers, r < s.process.recordCount ∧ (s.process.records r).nativeId ≠ none ∧
    ∃ u < s.process.threadCount, (s.process.records r).ofThread = some u
  follows : ∀ w r, s.workers[w]? = some r → ∀ u, (s.process.records r).ofThread = some u →
    (s.process.threads u).leaving = true → (s.crew.workers w).ended = true
  closed : s.phase ≠ .idle → s.crew.run.backlog.accepting = false
  knows : s.Knows now

theorem Joining.later {crew : Crew α} {p : Process} {reads : Nat} {phase : ClosingPhase}
    (h : s.Joining now)
    (caller : s.caller < s.process.threadCount) (extends_ : s.process.Extends p)
    (workers : ∀ r ∈ s.workers, r < s.process.recordCount ∧
      (s.process.records r).nativeId ≠ none) (more : s.reads ≤ reads) :
    Joining now { s with crew := crew, process := p, reads := reads, phase := phase } where
  within := h.within
  left := h.left
  joined := fun r mem =>
    (h.joined r mem).imp (fun left => left) (extends_.records r (workers r mem).1).finished
  current := by
    intro r mem current
    obtain ⟨less, known⟩ := workers r mem
    rw [extends_.isCurrent caller less known] at current
    obtain ⟨k, before, passed⟩ := h.current r mem current
    exact ⟨k, Nat.lt_of_lt_of_le before more, passed⟩

/-- What a caller knows stays so while others take their steps. -/
theorem Knows.later {crew : Crew α} {p : Process} {reads : Nat} (h : s.Knows now)
    (extends_ : s.process.Extends p) (workers : ∀ r ∈ s.workers, r < s.process.recordCount ∧
      (s.process.records r).nativeId ≠ none) (more : s.reads ≤ reads) :
    Knows now { s with crew := crew, process := p, reads := reads } := by
  have counted {t : Nat} (less : t < s.process.threadCount) : t < p.threadCount :=
    Nat.lt_of_lt_of_le less extends_.threadCount
  unfold Knows at h ⊢
  dsimp only
  cases phase : s.phase with
  | idle => trivial
  | stopped timeout =>
    rw [phase] at h
    exact counted h
  | asking =>
    rw [phase] at h
    obtain ⟨caller, joining⟩ := h
    exact ⟨counted caller, joining.later caller extends_ workers more⟩
  | joining timeout =>
    rw [phase] at h
    obtain ⟨caller, joining, j, before, same⟩ := h
    exact ⟨counted caller, joining.later caller extends_ workers more, j,
      Nat.lt_of_lt_of_le before more, same⟩
  | waiting deadline =>
    rw [phase] at h
    obtain ⟨caller, joining, least, j, k, order, before, most⟩ := h
    exact ⟨counted caller, joining.later caller extends_ workers more, least, j, k, order,
      Nat.lt_of_lt_of_le before more, most⟩
  | returned answer =>
    rw [phase] at h
    cases answer with
    | true => exact fun r mem => (extends_.records r (workers r mem).1).finished (h r mem)
    | false =>
      obtain ⟨k, before, passed⟩ := h
      exact ⟨k, Nat.lt_of_lt_of_le before more, passed⟩

/-! ## The caller's own steps -/

/-- What is left rounds up to no more than nothing only once the deadline has passed. -/
theorem ceilMillis_none {deadline time : Int} (none : ceilMillis (deadline - time) ≤ 0) :
    deadline ≤ time := by
  unfold ceilMillis at none
  omega

theorem ceilMillis_least {deadline time later : Int} (order : time ≤ later) :
    deadline ≤ later + Deadline.nanoseconds (ceilMillis (deadline - time)) := by
  unfold ceilMillis Deadline.nanoseconds
  omega

theorem ceilMillis_most (deadline time later : Int) :
    later + Deadline.nanoseconds (ceilMillis (deadline - time)) <
      deadline + 1000000 + (later - time) := by
  unfold ceilMillis Deadline.nanoseconds
  omega

theorem Knows.setDeadline {timeout : Int} (inTime : ∀ k, now k ≤ noDeadline - 1)
    (h : s.Knows now) (at_ : s.phase = .stopped timeout) :
    (s.setDeadline now timeout).Knows now := by
  unfold Knows at h
  rw [at_] at h
  refine ⟨h, ⟨(Deadline.after_between (inTime _) _).2, fun r mem => mem, fun r mem => Or.inl mem,
    fun r mem current => ⟨s.reads, Nat.lt_succ_self _, ?_⟩⟩⟩
  have worker : s.onAWorker = true := List.any_eq_true.mpr ⟨r, mem, current⟩
  change Deadline.after (now s.reads) (if s.onAWorker then 0 else timeout) ≤ now s.reads
  rw [if_pos worker, Deadline.after_nonpositive le_rfl]

theorem Knows.ask (h : s.Knows now) (at_ : s.phase = .asking) : (s.ask now).Knows now := by
  unfold Knows at h
  rw [at_] at h
  obtain ⟨caller, joining⟩ := h
  refine ⟨caller, ⟨joining.within, joining.left, joining.joined, fun r mem current => ?_⟩,
    s.reads, Nat.lt_succ_self _, rfl⟩
  obtain ⟨k, before, passed⟩ := joining.current r mem current
  exact ⟨k, Nat.lt_succ_of_lt before, passed⟩

theorem Joining.answered {r : Nat} {rest : List Nat} (h : s.Joining now)
    (caller : s.caller < s.process.threadCount) (front : s.left = r :: rest)
    (finished : (s.process.records r).finished = true) : (s.answer true rest).Knows now := by
  refine ⟨caller, h.within, fun r' mem => h.left r' ?_, fun r' mem => ?_, h.current⟩
  · rw [front]
    exact List.mem_cons_of_mem r mem
  · rcases h.joined r' mem with left | done
    · rw [front] at left
      rcases List.mem_cons.mp left with rfl | left
      · exact Or.inr finished
      · exact Or.inl left
    · exact Or.inr done

theorem Knows.join {timeout : Int} {r : Nat} {rest : List Nat} (steady : Monotone now)
    (inTime : ∀ k, now k ≤ noDeadline - 1) (h : s.Knows now) (at_ : s.phase = .joining timeout)
    (front : s.left = r :: rest) : (s.join now timeout r rest).Knows now := by
  unfold Knows at h
  rw [at_] at h
  obtain ⟨caller, joining, j, before, same⟩ := h
  have mem : r ∈ s.workers := joining.left r (by rw [front]; exact List.mem_cons_self)
  unfold Closing.join
  split
  · rename_i once
    cases finished : (s.process.records r).finished with
    | true => exact joining.answered caller front finished
    | false =>
      change ∃ k < s.reads, s.deadline ≤ now k
      rcases once with current | none
      · exact joining.current r mem current
      · exact ⟨j, before, ceilMillis_none (same ▸ none)⟩
  · rename_i waits
    rw [not_or, not_le] at waits
    have within := joining.within
    have below := inTime s.reads
    have later := steady before.le
    refine ⟨caller, ⟨within, joining.left, joining.joined, fun r' mem' current => ?_⟩, ?_,
      j, s.reads, before.le, Nat.lt_succ_self _, ?_⟩
    · obtain ⟨k, less, passed⟩ := joining.current r' mem' current
      exact ⟨k, Nat.lt_succ_of_lt less, passed⟩
    · refine le_trans ?_ (Deadline.after_least below waits.2)
      rw [same]
      exact le_min (ceilMillis_least later) within
    · dsimp only
      rcases Deadline.after_cases below waits.2 with ⟨fits, _⟩ | clamped
      · refine Or.inr ?_
        rw [fits, same]
        exact ceilMillis_most s.deadline (now j) (now s.reads)
      · exact Or.inl clamped

theorem Knows.look {deadline : TimePoint} {r : Nat} {rest : List Nat} (h : s.Knows now)
    (at_ : s.phase = .waiting deadline) (front : s.left = r :: rest) :
    (s.look now deadline r rest).Knows now := by
  unfold Knows at h
  rw [at_] at h
  obtain ⟨caller, joining, least, j, k, order, before, most⟩ := h
  unfold Closing.look
  split
  · rename_i finished
    exact joining.answered caller front finished
  · split
    · unfold Knows
      dsimp only
      rw [at_]
      refine ⟨caller, ⟨joining.within, joining.left, joining.joined, fun r' mem' current => ?_⟩,
        least, j, k, order, Nat.lt_succ_of_lt before, most⟩
      obtain ⟨k', less, passed⟩ := joining.current r' mem' current
      exact ⟨k', Nat.lt_succ_of_lt less, passed⟩
    · rename_i passed
      exact ⟨s.reads, Nat.lt_succ_self _, le_trans least (not_lt.mp passed)⟩

/-! ## Every run -/

theorem answer_keeps (s : Closing α) (finished : Bool) (rest : List Nat) :
    (s.answer finished rest).crew = s.crew ∧ (s.answer finished rest).process = s.process ∧
      (s.answer finished rest).workers = s.workers := by
  unfold answer
  split <;> exact ⟨rfl, rfl, rfl⟩

theorem join_keeps (now : Nat → TimePoint) (s : Closing α) (timeout : Int) (r : Nat) (rest : List Nat) :
    (s.join now timeout r rest).crew = s.crew ∧ (s.join now timeout r rest).process = s.process ∧
      (s.join now timeout r rest).workers = s.workers := by
  unfold Closing.join
  split
  · exact s.answer_keeps _ rest
  · exact ⟨rfl, rfl, rfl⟩

theorem look_keeps (now : Nat → TimePoint) (s : Closing α) (deadline : TimePoint) (r : Nat) (rest : List Nat) :
    (s.look now deadline r rest).crew = s.crew ∧ (s.look now deadline r rest).process = s.process ∧
      (s.look now deadline r rest).workers = s.workers := by
  unfold Closing.look
  split
  · exact s.answer_keeps _ rest
  · split <;> exact ⟨rfl, rfl, rfl⟩

/-- A step of the caller, which changes nothing but what it knows. -/
theorem Sound.own (h : s.Sound asksMain now) (crew : t.crew = s.crew)
    (process : t.process = s.process) (workers : t.workers = s.workers) (busy : s.phase ≠ .idle)
    (knows : t.Knows now) : t.Sound asksMain now where
  crew := crew ▸ h.crew
  process := process ▸ h.process
  staff := by
    rw [workers, crew]
    exact h.staff
  workers := by
    rw [workers, process]
    exact h.workers
  follows := by
    rw [workers, process, crew]
    exact h.follows
  closed := by
    rw [crew]
    exact fun _ => h.closed busy
  knows := knows

theorem Sound.crewStep {crew : Crew α} (h : s.Sound asksMain now) (step : Crew.Step s.crew crew) :
    Sound asksMain now { s with crew := crew } := by
  obtain ⟨count, ended⟩ := h.crew.sound.2.step_ended step
  refine ⟨Transition.Reachable.next h.crew step, h.process, h.staff.trans count.symm, h.workers,
    fun w r at_ u own leaving => ended w (h.follows w r at_ u own leaving), fun busy => ?_,
    h.knows.later (.refl _) (fun r mem => ?_) (Nat.le_refl _)⟩
  · exact (Crew.LooseStep.step step).stopped (h.closed busy)
  · obtain ⟨less, known, _⟩ := h.workers r mem
    exact ⟨less, known⟩

theorem Sound.processStep {p : Process} (h : s.Sound asksMain now)
    (step : Process.Step asksMain s.process p) (follows : s.Follows p) :
    Sound asksMain now { s with process := p } := by
  have extends_ := h.process.sound.extends_step step
  refine ⟨h.crew, Transition.Reachable.next h.process step, h.staff, fun r mem => ?_,
    fun w r at_ u own leaving => ?_, h.closed, h.knows.later extends_ (fun r mem => ?_)
      (Nat.le_refl _)⟩
  · obtain ⟨less, known, u, among, own⟩ := h.workers r mem
    have later := extends_.records r less
    obtain ⟨id, named⟩ := Option.ne_none_iff_exists'.mp known
    refine ⟨Nat.lt_of_lt_of_le less extends_.recordCount, ?_, u,
      Nat.lt_of_lt_of_le among extends_.threadCount, later.ofThread.trans own⟩
    rw [later.nativeId id named]
    simp
  · obtain ⟨less, _, _⟩ := h.workers r (List.mem_of_getElem? at_)
    have was : (s.process.records r).ofThread = some u :=
      (extends_.records r less).ofThread.symm.trans own
    cases before : (s.process.threads u).leaving with
    | true => exact h.follows w r at_ u was before
    | false => exact follows w r at_ u was leaving before
  · obtain ⟨less, known, _⟩ := h.workers r mem
    exact ⟨less, known⟩

theorem Sound.stop {caller : Nat} {timeout : Int} (h : s.Sound asksMain now)
    (runs : s.process.Runs caller) : (s.stop caller timeout).Sound asksMain now := by
  obtain ⟨count, ended⟩ := h.crew.sound.2.step_ended .stop
  refine ⟨Transition.Reachable.next h.crew .stop, h.process, h.staff.trans count.symm, h.workers,
    fun w r at_ u own leaving => ended w (h.follows w r at_ u own leaving), fun _ => ?_, runs.1⟩
  change s.crew.run.shared.stop.1.backlog.accepting = false
  unfold Shared.stop
  split
  · rename_i stopped
    simpa using stopped
  · rfl

theorem Sound.step (steady : Monotone now) (inTime : ∀ k, now k ≤ noDeadline - 1)
    (h : s.Sound asksMain now) (step : Step asksMain now s t) : t.Sound asksMain now := by
  cases step with
  | crew step => exact h.crewStep step
  | process step follows => exact h.processStep step follows
  | read n =>
    refine ⟨h.crew, h.process, h.staff, h.workers, h.follows, h.closed,
      h.knows.later (.refl _) (fun r mem => ?_) (Nat.le_add_right _ _)⟩
    obtain ⟨less, known, _⟩ := h.workers r mem
    exact ⟨less, known⟩
  | stop caller timeout runs free => exact h.stop runs
  | setDeadline timeout at_ =>
    exact h.own rfl rfl rfl (by rw [at_]; simp) (h.knows.setDeadline inTime at_)
  | ask at_ more => exact h.own rfl rfl rfl (by rw [at_]; simp) (h.knows.ask at_)
  | join timeout r rest at_ front =>
    obtain ⟨crew, process, workers⟩ := s.join_keeps now timeout r rest
    exact h.own crew process workers (by rw [at_]; simp) (h.knows.join steady inTime at_ front)
  | look deadline r rest at_ front =>
    obtain ⟨crew, process, workers⟩ := s.look_keeps now deadline r rest
    exact h.own crew process workers (by rw [at_]; simp) (h.knows.look at_ front)
  | finish at_ all =>
    have knows := h.knows
    unfold Knows at knows
    rw [at_] at knows
    refine h.own rfl rfl rfl (by rw [at_]; simp) (fun r mem => ?_)
    rcases knows.2.joined r mem with left | finished
    · rw [all] at left
      cases left
    · exact finished

theorem Starts.sound (h : s.Starts asksMain) : s.Sound asksMain now := by
  have workers (r : Nat) (mem : r ∈ s.workers) : r < s.process.recordCount ∧
      (s.process.records r).nativeId ≠ none ∧ ∃ u < s.process.threadCount,
        (s.process.records r).ofThread = some u := by
    obtain ⟨less, known, u, own, _⟩ := h.started r mem
    exact ⟨less, known, u, (h.process.sound.fits r less u own).1, own⟩
  refine ⟨Transition.Reachable.start h.crew, h.process, h.staff, workers,
    fun w r at_ u own leaving => ?_, fun busy => absurd h.idle busy, ?_⟩
  · obtain ⟨_, _, v, own', staying⟩ := h.started r (List.mem_of_getElem? at_)
    rw [own] at own'
    obtain rfl := Option.some.inj own'
    rw [leaving] at staying
    cases staying
  · unfold Knows
    rw [h.idle]
    trivial

theorem Reachable.sound (steady : Monotone now) (inTime : ∀ k, now k ≤ noDeadline - 1)
    (h : s.Reachable asksMain now) : s.Sound asksMain now :=
  Transition.Reachable.invariant (fun _ starts => starts.sound)
    (fun _ _ sound step => sound.step steady inTime step) h

/-- When `shutdown` returns true, every worker has ended, its record is finished and in no
list of threads, and no task is left. It returns false only once the clock has reached its
deadline, which on a worker it has at once. It waits for each worker to that one deadline:
not short of it, and past it only by the rounding to a millisecond and the time between two
readings, however many workers it has joined before. -/
theorem shutdown_settles (steady : Monotone now) (inTime : ∀ k, now k ≤ noDeadline - 1)
    (h : s.Reachable asksMain now) :
    (s.phase = .returned true →
      (∀ r ∈ s.workers, (s.process.records r).finished = true ∧ r ∉ s.process.registry) ∧
      (∀ w < s.crew.count, (s.crew.workers w).ended = true) ∧
      s.crew.run.backlog.unfinished = ∅ ∧ ∀ order < s.crew.run.backlog.accepted,
        s.crew.run.finished.count order + s.crew.run.cancelled.count order = 1) ∧
    (s.phase = .returned false → ∃ k < s.reads, s.deadline ≤ now k) ∧
    ∀ deadline, s.phase = .waiting deadline → s.deadline ≤ deadline ∧
      ∃ j k, j ≤ k ∧ k < s.reads ∧ (deadline = noDeadline - 1 ∨
        deadline < s.deadline + 1000000 + (now k - now j)) := by
  have sound := h.sound steady inTime
  have knows := sound.knows
  unfold Knows at knows
  refine ⟨fun at_ => ?_, fun at_ => ?_, fun deadline at_ => ?_⟩ <;> rw [at_] at knows
  · have ended (w : Nat) (less : w < s.crew.count) : (s.crew.workers w).ended = true := by
      obtain ⟨r, at_⟩ : ∃ r, s.workers[w]? = some r :=
        ⟨_, List.getElem?_eq_getElem (sound.staff.symm ▸ less)⟩
      have mem := List.mem_of_getElem? at_
      obtain ⟨made, _, u, _, own⟩ := sound.workers r mem
      exact sound.follows w r at_ u own (sound.process.finished_leaving made own (knows r mem))
    obtain ⟨run, crew⟩ := sound.crew.sound
    have stopped := sound.closed (by rw [at_]; simp)
    obtain ⟨unfinished, once⟩ := crew.emptied run.valid stopped ended
    refine ⟨fun r mem => ⟨knows r mem, ?_⟩, ended, unfinished, once⟩
    exact sound.process.sound.finished_unlisted (sound.workers r mem).1 (knows r mem)
  · exact knows
  · obtain ⟨_, _, least, j, k, order, before, most⟩ := knows
    exact ⟨least, j, k, order, before, most⟩

/-! ## A queue shut down while it works -/

/-- The steps of the crew are steps of the whole. -/
theorem crewSteps {crew : Crew α} (steps : Relation.ReflTransGen Crew.Step s.crew crew) :
    Relation.ReflTransGen (Step asksMain now) s { s with crew := crew } :=
  steps.lift (fun crew => { s with crew := crew }) fun _ _ step => .crew step

/-- The main thread has started two workers. -/
def staffed : Process :=
  let first := ((((Process.initial 1).start 0 2 true).begin_ 1 0 true).publish 1 0).goTo 1 .outside
  let second := ((((first.goTo 0 .outside).start 0 3 true).begin_ 2 1 true).publish 2 1).goTo 2
    .outside
  second.goTo 0 .outside

def opened : Closing Nat := ⟨Crew.pair, staffed, [0, 1], 0, 0, [], 0, .idle⟩

theorem staffed_reachable : staffed.Reachable true := by
  have start : (Process.initial 1).Reachable true := Transition.Reachable.start ⟨1, rfl⟩
  have started := Transition.Reachable.next start
    (.start 0 2 true ⟨by decide, rfl⟩ (fun t less _ => by
      obtain rfl : t = 0 := Nat.lt_one_iff.mp less
      decide))
  have begun := Transition.Reachable.next started (.begin_ 1 0 true rfl)
  have published := Transition.Reachable.next begun (.publish 1 0 rfl)
  have notified := Transition.Reachable.next published (.notifyReady 1 0 rfl)
  have first := Transition.Reachable.next notified (.started 0 0 rfl rfl)
  have started' := Transition.Reachable.next first
    (.start 0 3 true ⟨by decide, rfl⟩ (fun t less _ => by
      rcases t with _ | _ | t
      · decide
      · decide
      · exact absurd less (Nat.not_lt.mpr (Nat.le_add_left 2 t))))
  have begun' := Transition.Reachable.next started' (.begin_ 2 1 true rfl)
  have published' := Transition.Reachable.next begun' (.publish 2 1 rfl)
  have notified' := Transition.Reachable.next published' (.notifyReady 2 1 rfl)
  exact Transition.Reachable.next notified' (.started 0 1 rfl rfl)

theorem opened_starts : opened.Starts true where
  crew := Crew.pair_starts
  process := staffed_reachable
  staff := rfl
  started := by
    intro r mem
    rcases List.mem_cons.mp mem with rfl | mem
    · exact ⟨by decide, by decide, 1, rfl, rfl⟩
    · rw [List.mem_singleton.mp mem]
      exact ⟨by decide, by decide, 2, rfl, rfl⟩
  idle := rfl

theorem follows_ended (staff : s.workers.length = s.crew.count)
    (ended : ∀ w < s.crew.count, (s.crew.workers w).ended = true) (p q : Process) :
    Follows { s with process := p } q :=
  fun _ _ at_ _ _ _ _ => ended _ (staff ▸ (List.getElem?_eq_some_iff.mp at_).1)

/-- What the end of a thread does to its record. -/
def retire (p : Process) (t r : Nat) : Process :=
  ((p.setThread t { p.threads t with leaving := true }).deregister t r).markFinished t r

theorem retires (t r : Nat) (staff : s.workers.length = s.crew.count)
    (ended : ∀ w < s.crew.count, (s.crew.workers w).ended = true) (runs : s.process.Runs t)
    (held : (s.process.threads t).holder = some r)
    (kept : (s.process.threads t).tornDown = false) :
    Relation.ReflTransGen (Step asksMain now) s { s with process := retire s.process t r } := by
  have follows := follows_ended staff ended
  have leaves : Step asksMain now s _ := .process (.leave t runs) (follows s.process _)
  have gone := (Relation.ReflTransGen.single leaves).tail
    (.process (.deregister t r ⟨runs.1, ?_⟩ ?_ ?_ ?_) (follows _ _))
  · refine gone.tail (.process (.markFinished t r ?_) (follows _ _))
    simp [Process.deregister, Process.goTo, Process.setThread]
  · simpa [Process.setThread] using runs.2
  · simp [Process.setThread]
  · simpa [Process.setThread] using held
  · simpa [Process.setThread] using kept

/-- One of three tasks runs when the queue is shut down, another is to run after it, and the
third was cancelled. -/
theorem shutdown_settles_pair : ∃ s : Closing Nat, s.Reachable true (fun _ => 0) ∧
    s.phase = .returned true ∧ s.workers = [0, 1] ∧ s.crew.run.backlog.accepted = 3 ∧
    s.crew.run.finished = [1, 0] ∧ s.crew.run.cancelled = [2] ∧
    s.crew.run.backlog.unfinished = ∅ ∧
    ∀ r ∈ s.workers, (s.process.records r).finished = true ∧ r ∉ s.process.registry := by
  obtain ⟨crew, steps, -, accepted, finished, cancelled, count, ended⟩ := Crew.pairBusy_ends
  have start : opened.Reachable true (fun _ => 0) := Transition.Reachable.start opened_starts
  have busy := Transition.Reachable.later start (crewSteps Crew.pairBusy_steps)
  have stopped := Transition.Reachable.next busy (.stop 0 5 ⟨by decide, rfl⟩ (Or.inl rfl))
  have set := Transition.Reachable.next stopped (.setDeadline 5 rfl)
  have asked := Transition.Reachable.next set (.ask rfl (by decide))
  have joined := Transition.Reachable.next asked (.join 5 0 [1] rfl rfl)
  have worked : Reachable true (fun _ => 0)
      ⟨crew, staffed, [0, 1], 0, 5000000, [0, 1], 3, .waiting 5000000⟩ :=
    Transition.Reachable.later joined (crewSteps steps)
  have retired := Transition.Reachable.later worked
    (retires 1 0 count.symm ended ⟨(by decide : 1 < 3), rfl⟩ rfl rfl)
  have looked := Transition.Reachable.next retired (.look 5000000 0 [1] rfl rfl)
  have asked' := Transition.Reachable.next looked (.ask rfl (List.cons_ne_nil 1 []))
  have waits : Reachable true (fun _ => 0)
      ⟨crew, retire staffed 1 0, [0, 1], 0, 5000000, [1], 5, .waiting 5000000⟩ :=
    Transition.Reachable.next asked' (.join 5 1 [] rfl rfl)
  have retired' := Transition.Reachable.later waits
    (retires 2 1 count.symm ended ⟨(by decide : 2 < 3), rfl⟩ rfl rfl)
  have looked' := Transition.Reachable.next retired' (.look 5000000 1 [] rfl rfl)
  have reached := Transition.Reachable.next looked' (.finish rfl rfl)
  obtain ⟨recorded, _, unfinished, _⟩ :=
    (shutdown_settles (fun _ _ _ => le_rfl) (fun _ => by decide) reached).1 rfl
  exact ⟨_, reached, rfl, rfl, accepted, finished, cancelled, unfinished, recorded⟩

end Closing

end Dross
