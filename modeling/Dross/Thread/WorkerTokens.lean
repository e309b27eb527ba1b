import Dross.Thread.QueueWorkers

/-!
# The finish item of a stopped queue

Once a queue has stopped, each worker has one finish item left: queued on its
loop, in one of its calls, or spent on the `quit` that ends the worker. What a
task may do to the loop it runs on keeps it, but for a `clear` that discards it
while it is queued.
-/

namespace Dross

namespace Crew

variable {α : Type} {s t : Crew α}

def clear (s : Crew α) (w : Nat) : Crew α := s.set w { s.workers w with items := [] }

/-- A step of a crew whose tasks also clear loops, and whose loops may end with nothing
queued and no `quit`, as `next` does when a timer becomes due as it is about to wait. -/
inductive LooseStep (s : Crew α) : Crew α → Prop
  | step {t : Crew α} (step : Step s t) : LooseStep s t
  | clear (w : Nat) : LooseStep s (s.clear w)
  | endsEarly (w : Nat) (top : (s.workers w).frames = [.loop]) (idle : (s.workers w).items = [])
      (untold : (s.workers w).quit = false) :
      LooseStep s (s.set w { items := [], quit := false, frames := [], ended := true })

/-- Whether every worker still in its loop has something that will end it. -/
def Covered (s : Crew α) : Prop :=
  ∀ w < s.count, (s.workers w).ended = false → .finish ∈ (s.workers w).items ∨
    (∃ frame ∈ (s.workers w).frames, frame.finishes = true) ∨ (s.workers w).quit = true

/-- Whether a step clears no loop that has a finish item queued. -/
def Spares (s t : Crew α) : Prop := ∀ w, t = s.clear w → .finish ∉ (s.workers w).items

/-- The states of the runs in which no finish item is cleared away. -/
def ReachableSparing : Crew α → Prop :=
  Transition.Reachable Starts (fun s t => LooseStep s t ∧ Spares s t)

/-- What a run that spares the finish items keeps of a worker, of the queue's or of no one's. -/
structure Keeps (accepting : Bool) (staff : Prop) (worker : Worker) : Prop where
  stranger : ¬ staff → worker.frames = [] ∧ .finish ∉ worker.items
  gone : worker.ended = true → worker.frames = []
  tokens : staff → worker.tokens = if accepting then worker.ended.toNat else 1

/-- What such a run keeps. -/
structure Told (s : Crew α) : Prop where
  workers : ∀ w, Keeps s.run.backlog.accepting (w < s.count) (s.workers w)
  crewed : s.run.backlog.accepting = true → s.run.backlog.workers = s.count

theorem Keeps.staff {accepting : Bool} {staff : Prop} {worker : Worker} {frame : Frame}
    {rest : List Frame} (h : Keeps accepting staff worker) (top : worker.frames = frame :: rest) :
    staff := by
  by_contra out
  rw [(h.stranger out).1] at top
  cases top

theorem Keeps.not_ended {accepting : Bool} {staff : Prop} {worker : Worker} {frame : Frame}
    {rest : List Frame} (h : Keeps accepting staff worker) (top : worker.frames = frame :: rest) :
    worker.ended = false := by
  rw [Bool.eq_false_iff]
  intro ended
  rw [h.gone ended] at top
  cases top

theorem Keeps.tokens_le_one {accepting : Bool} {staff : Prop} {worker : Worker}
    (h : Keeps accepting staff worker) (member : staff) : worker.tokens ≤ 1 := by
  rw [h.tokens member]
  split
  · exact Bool.toNat_le _
  · exact Nat.le_refl _

/-- A worker in its loop keeps what it kept as long as its tokens are as many. -/
theorem Keeps.reframe {accepting : Bool} {staff : Prop} {worker : Worker} {frame : Frame}
    {rest : List Frame} (h : Keeps accepting staff worker) (top : worker.frames = frame :: rest)
    {items : List WorkItem} {quit : Bool} {frames : List Frame}
    (tokens : items.count .finish + frames.countP Frame.finishes + quit.toNat =
      worker.items.count .finish + (frame :: rest).countP Frame.finishes + worker.quit.toNat) :
    Keeps accepting staff ⟨items, quit, frames, worker.ended⟩ where
  stranger := fun out => absurd (h.staff top) out
  gone := by
    intro ended
    rw [h.not_ended top] at ended
    cases ended
  tokens := by
    intro member
    have was := h.tokens member
    rw [Worker.tokens, top] at was
    rw [← was, Worker.tokens, tokens]

theorem Keeps.handed {workers : Nat → Worker} {item : WorkItem} {accepting : Bool} {staff : Prop}
    {w : Nat} (h : Keeps accepting staff (workers w)) (other : item ≠ .finish) (ws : List Nat) :
    Keeps accepting staff (hand workers item ws w) where
  stranger := by
    intro out
    obtain ⟨frames, none⟩ := h.stranger out
    rw [hand_eq]
    refine ⟨frames, fun mem => ?_⟩
    rcases List.mem_append.mp mem with mem | mem
    · exact none mem
    · exact other (List.mem_replicate.mp mem).2.symm
  gone := by
    rw [hand_eq]
    exact h.gone
  tokens := by
    intro member
    rw [hand_tokens other, h.tokens member, hand_eq]

/-- One worker moves, and the run may with it. -/
theorem Told.move {run : Run α} {w : Nat} {worker : Worker} (h : s.Told)
    (accepting : run.backlog.accepting = s.run.backlog.accepting)
    (crew : run.backlog.workers = s.run.backlog.workers)
    (keeps : Keeps s.run.backlog.accepting (w < s.count) worker) :
    Told ⟨run, s.count, Function.update s.workers w worker⟩ where
  workers := by
    intro other
    dsimp only
    rw [accepting]
    by_cases same : other = w
    · rw [same, Function.update_self]
      exact keeps
    · rw [Function.update_of_ne same]
      exact h.workers other
  crewed := by
    dsimp only
    rw [accepting, crew]
    exact h.crewed

/-- Items but the finish item change nothing the invariant speaks of. -/
theorem Told.handed {run : Run α} {item : WorkItem} (h : s.Told) (other : item ≠ .finish)
    (ws : List Nat) (accepting : run.backlog.accepting = s.run.backlog.accepting)
    (crew : run.backlog.workers = s.run.backlog.workers) :
    Told ⟨run, s.count, hand s.workers item ws⟩ where
  workers := by
    intro w
    dsimp only
    rw [accepting]
    exact (h.workers w).handed other ws
  crewed := by
    dsimp only
    rw [accepting, crew]
    exact h.crewed

theorem Told.stop (h : s.Told) : s.stop.Told := by
  cases open_ : s.run.backlog.accepting with
  | false =>
    rw [stop_stopped open_]
    exact h
  | true =>
    have out : s.run.shared.stop = (⟨{ s.run.backlog with accepting := false, workers := 0 },
        s.run.operations⟩, List.range s.run.backlog.workers) := by
      simp [Shared.stop, open_]
    have closed : s.stop.run.backlog.accepting = false := by
      simp [Crew.stop, Run.stop, out, Run.backlog]
    refine ⟨fun w => ?_, fun accepting => ?_⟩
    · have keeps := h.workers w
      have workers : s.stop.workers w = hand s.workers .finish (List.range s.count) w := by
        rw [← h.crewed open_]
        simp [Crew.stop, out]
      rw [closed, workers, hand_eq]
      refine ⟨fun out => ?_, keeps.gone, fun member => ?_⟩
      · obtain ⟨frames, none⟩ := keeps.stranger out
        refine ⟨frames, fun mem => ?_⟩
        have zero : (List.range s.count).count w = 0 :=
          List.count_eq_zero.mpr (fun mem => out (List.mem_range.mp mem))
        rw [zero, ite_self] at mem
        simpa using none (by simpa using mem)
      · have was := keeps.tokens member
        rw [open_, if_pos rfl] at was
        have once : (List.range s.count).count w = 1 :=
          List.count_eq_one_of_mem List.nodup_range (List.mem_range.mpr member)
        rw [Worker.tokens] at was ⊢
        simp only [List.count_append, List.count_replicate_self, once]
        cases ended : (s.workers w).ended with
        | true =>
          rw [ended, Bool.toNat_true] at was
          simp only [if_true, Bool.toNat_true, Bool.false_eq_true, if_false]
          omega
        | false =>
          rw [ended, Bool.toNat_false] at was
          simp only [Bool.false_eq_true, if_false, Bool.toNat_false]
          omega
    · rw [closed] at accepting
      cases accepting

theorem cancelRemoved_keeps (fuel : Nat) (left : List Entry) (shared : Shared α) :
    (Shared.cancelRemoved fuel left shared).2.backlog.accepting = shared.backlog.accepting ∧
    (Shared.cancelRemoved fuel left shared).2.backlog.workers = shared.backlog.workers := by
  induction fuel generalizing left shared with
  | zero => exact ⟨rfl, rfl⟩
  | succ fuel ih =>
    cases left with
    | nil => exact ⟨rfl, rfl⟩
    | cons task left =>
      cases result : task.result with
      | none =>
        simp only [Shared.cancelRemoved, result]
        exact ih left _
      | some id =>
        simp only [Shared.cancelRemoved, result]
        obtain ⟨accepting, workers⟩ := ih (left ++ _) _
        rw [accepting, workers, Backlog.takeDependents, Backlog.takeWaiting_left]
        exact ⟨rfl, rfl⟩

theorem takeOut_keeps (b : Backlog) (id : OperationId) :
    (b.takeOut id).2.accepting = b.accepting ∧ (b.takeOut id).2.workers = b.workers := by
  unfold Backlog.takeOut
  split
  · exact ⟨rfl, rfl⟩
  · split <;> exact ⟨rfl, rfl⟩

theorem cancel_keeps (run : Run α) (id : OperationId) :
    (run.cancel id).backlog.accepting = run.backlog.accepting ∧
    (run.cancel id).backlog.workers = run.backlog.workers := by
  change (run.shared.cancel id).2.2.backlog.accepting = _ ∧
    (run.shared.cancel id).2.2.backlog.workers = _
  unfold Shared.cancel
  dsimp only
  split
  · exact ⟨rfl, rfl⟩
  · obtain ⟨accepting, workers⟩ := takeOut_keeps run.backlog id
    obtain ⟨accepting', workers'⟩ := cancelRemoved_keeps
      ((run.backlog.takeOut id).2.waiting.length + 1) [_]
      ⟨(run.backlog.takeOut id).2, run.operations⟩
    exact ⟨accepting'.trans accepting, workers'.trans workers⟩

theorem take_keeps (run : Run α) (w : Nat) :
    (run.take w).backlog.accepting = run.backlog.accepting ∧
    (run.take w).backlog.workers = run.backlog.workers := by
  rcases run.backlog.take_cases w with ⟨task, p, left, front, eq⟩ | ⟨empty, eq⟩
  · simp [Run.take, eq]
  · simp [Run.take, eq]

theorem Told.step (h : s.Told) (step : Step s t) : t.Told := by
  cases step with
  | submit options made =>
    obtain ⟨_, accepting, workers, _⟩ := submit_keeps s.run options
    exact h.handed (by simp) _ accepting workers
  | enqueue options made =>
    obtain ⟨_, accepting, workers, _⟩ := enqueue_keeps s.run options
    exact h.handed (by simp) _ accepting workers
  | cancel id =>
    obtain ⟨accepting, workers⟩ := cancel_keeps s.run id
    refine ⟨fun w => ?_, ?_⟩
    · dsimp only
      rw [accepting]
      exact h.workers w
    · dsimp only
      rw [accepting, workers]
      exact h.crewed
  | stop => exact h.stop
  | elsewhereMakes queue other => exact ⟨h.workers, h.crewed⟩
  | elsewhereSettles id state other => exact ⟨h.workers, h.crewed⟩
  | perform w => exact h.handed (by simp) [w] rfl rfl
  | @next w item items frames front top awake =>
    refine h.move rfl rfl ((h.workers w).reframe top ?_)
    rw [front]
    cases item <;> simp [WorkItem.frame, List.countP_cons, Frame.finishes]
    omega
  | timer w top awake =>
    exact h.move rfl rfl ((h.workers w).reframe top (by simp [Frame.finishes]))
  | @nest w frame frames top nests =>
    exact h.move rfl rfl ((h.workers w).reframe top
      (by rw [List.countP_cons_of_neg (by decide)]))
  | leave w top =>
    exact h.move rfl rfl ((h.workers w).reframe top
      (by rw [@List.countP_cons_of_neg _ _ Frame.loop _ (by decide)]))
  | back w top =>
    exact h.move rfl rfl ((h.workers w).reframe top (by simp [Frame.finishes]))
  | @take w last frames top =>
    obtain ⟨accepting, workers⟩ := take_keeps s.run w
    unfold Crew.take
    dsimp only
    split
    · refine h.move accepting workers ((h.workers w).reframe top ?_)
      cases last <;> simp [List.countP_cons, Frame.finishes]
    · refine h.move accepting workers ((h.workers w).reframe top ?_)
      cases last <;> simp [List.countP_cons, Frame.finishes]
  | @finish w last task frames value top =>
    refine h.move ?_ ?_ ((h.workers w).reframe top ?_)
    · rw [Run.finish_backlog]
    · rw [Run.finish_backlog]
    · cases last <;> simp [List.countP_cons, Frame.finishes]
  | @done w last task frames top =>
    obtain ⟨accepting, workers⟩ := Run.done_keeps s.run.backlog task
    have moved : Told ⟨s.run.done ⟨w, task, true⟩, s.count, Function.update s.workers w
        { s.workers w with frames := .draining last none :: frames }⟩ :=
      h.move accepting workers ((h.workers w).reframe top
        (by cases last <;> simp [List.countP_cons, Frame.finishes]))
    exact moved.handed (by simp) _ rfl rfl
  | check w top =>
    refine h.move rfl rfl ((h.workers w).reframe top ?_)
    split <;> simp [List.countP_cons, Frame.finishes]
  | @requeue w frames top =>
    have ended := (h.workers w).not_ended top
    have out : ({ s.workers w with frames := frames } : Worker).perform .finish =
        ⟨(s.workers w).items ++ [.finish], (s.workers w).quit, frames, (s.workers w).ended⟩ := by
      simp [Worker.perform, ended]
    rw [out]
    refine h.move rfl rfl ((h.workers w).reframe top ?_)
    simp [List.countP_cons, Frame.finishes, List.count_append]
    omega
  | @quit w frames top =>
    have member := (h.workers w).staff top
    -- the item in this call is the worker's only one, so it was not told to quit before
    have quit : (s.workers w).quit = false := by
      have one := (h.workers w).tokens_le_one member
      rw [Worker.tokens, top, List.countP_cons_of_pos rfl] at one
      cases quit : (s.workers w).quit with
      | false => rfl
      | true =>
        rw [quit, Bool.toNat_true] at one
        omega
    refine h.move rfl rfl ((h.workers w).reframe top ?_)
    simp [quit, List.countP_cons, Frame.finishes]
    omega
  | ended w top told =>
    have member := (h.workers w).staff top
    have one := (h.workers w).tokens_le_one member
    have was := (h.workers w).tokens member
    rw [Worker.tokens, told, Bool.toNat_true] at one was
    refine h.move rfl rfl ⟨fun out => absurd member out, fun _ => rfl, fun _ => ?_⟩
    rw [(h.workers w).not_ended top, Bool.toNat_false] at was
    cases accepting : s.run.backlog.accepting with
    | true =>
      rw [accepting, if_pos rfl] at was
      omega
    | false => rfl

theorem Told.clear (h : s.Told) {w : Nat} (spared : .finish ∉ (s.workers w).items) :
    (s.clear w).Told := by
  have keeps := h.workers w
  refine h.move rfl rfl ⟨fun out => ⟨(keeps.stranger out).1, List.not_mem_nil⟩, keeps.gone, ?_⟩
  intro member
  have was := keeps.tokens member
  rw [Worker.tokens, List.count_eq_zero.mpr spared] at was
  exact was

theorem Told.endsEarly (h : s.Told) {w : Nat} (top : (s.workers w).frames = [.loop])
    (idle : (s.workers w).items = []) (untold : (s.workers w).quit = false) :
    (s.set w { items := [], quit := false, frames := [], ended := true }).Told := by
  have member := (h.workers w).staff top
  have was := (h.workers w).tokens member
  rw [Worker.tokens, top, idle, untold, (h.workers w).not_ended top] at was
  refine h.move rfl rfl ⟨fun out => absurd member out, fun _ => rfl, fun _ => ?_⟩
  cases accepting : s.run.backlog.accepting with
  | true => rfl
  | false =>
    -- the one token of a worker of a stopped queue is in its loop
    rw [accepting] at was
    cases was

theorem Starts.told (h : s.Starts) : s.Told := by
  obtain ⟨⟨number, workers, operations, run, _⟩, staff, crewed, idle⟩ := h
  have open_ : s.run.backlog.accepting = true := by rw [run]; rfl
  refine ⟨fun w => ?_, fun _ => crewed⟩
  rw [idle, open_]
  refine ⟨fun out => ?_, fun ended => ?_, fun member => ?_⟩
  · rw [if_neg out]
    exact ⟨rfl, List.not_mem_nil⟩
  · cases ended
  · rw [if_pos member]
    rfl

theorem ReachableSparing.told (h : s.ReachableSparing) : s.Told := by
  refine @Transition.Reachable.invariant _ Starts (fun s t => LooseStep s t ∧ Spares s t)
    Told (fun _ starts => starts.told) (fun s t told both => ?_) s h
  obtain ⟨step, spares⟩ := both
  cases step with
  | step step => exact told.step step
  | clear w => exact told.clear (spares w rfl)
  | endsEarly w top idle untold => exact told.endsEarly top idle untold

theorem Told.covered (h : s.Told) (stopped : s.run.backlog.accepting = false) : s.Covered := by
  intro w hw going
  have one := (h.workers w).tokens hw
  rw [stopped, Worker.tokens, going, Bool.toNat_false, if_neg (by decide)] at one
  by_cases queued : .finish ∈ (s.workers w).items
  · exact Or.inl queued
  by_cases calling : ∃ frame ∈ (s.workers w).frames, frame.finishes = true
  · exact Or.inr (Or.inl calling)
  · have none := List.count_eq_zero.mpr queued
    have never : (s.workers w).frames.countP Frame.finishes = 0 :=
      List.countP_eq_zero.mpr (fun frame mem finishes => calling ⟨frame, mem, finishes⟩)
    refine Or.inr (Or.inr ?_)
    cases quit : (s.workers w).quit with
    | true => rfl
    | false =>
      rw [quit, Bool.toNat_false] at one
      omega

theorem LooseStep.stopped (step : LooseStep s t) (stopped : s.run.backlog.accepting = false) :
    t.run.backlog.accepting = false := by
  cases step with
  | step step =>
    cases step with
    | submit options made => exact (submit_keeps s.run options).2.1.trans stopped
    | enqueue options made => exact (enqueue_keeps s.run options).2.1.trans stopped
    | cancel id => exact (cancel_keeps s.run id).1.trans stopped
    | stop =>
      rw [stop_stopped stopped]
      exact stopped
    | take w top =>
      unfold Crew.take
      dsimp only
      split <;> exact (take_keeps s.run w).1.trans stopped
    | @finish w last task frames value top =>
      change (s.run.shared.finishResult task value).backlog.accepting = false
      unfold Shared.finishResult
      split <;> exact stopped
    | @done w last task frames top => exact (Run.done_keeps s.run.backlog task).1.trans stopped
    | _ => exact stopped
  | clear w => exact stopped
  | endsEarly w top idle untold => exact stopped

/-- A clear that discards the finish item leaves a worker with nothing to end it. -/
theorem Told.clear_uncovers (h : s.Told) (stopped : s.run.backlog.accepting = false) {w : Nat}
    (queued : .finish ∈ (s.workers w).items) : ¬ (s.clear w).Covered := by
  have member : w < s.count := by
    by_contra out
    exact ((h.workers w).stranger out).2 queued
  have one := (h.workers w).tokens member
  have count := List.count_pos_iff.mpr queued
  rw [stopped, if_neg (by decide), Worker.tokens] at one
  have going : (s.workers w).ended = false := by
    cases ended : (s.workers w).ended with
    | false => rfl
    | true =>
      rw [ended, Bool.toNat_true] at one
      omega
  have workers : (s.clear w).workers w = { s.workers w with items := [] } :=
    Function.update_self _ _ _
  intro covered
  have some := covered w member (by rw [workers]; exact going)
  rw [workers] at some
  rcases some with none | calling | quit
  · cases none
  · have := List.countP_pos_iff.mpr calling
    dsimp only at this
    omega
  · dsimp only at quit
    rw [quit, Bool.toNat_true] at one
    omega

/-- Along the runs that clear no finish item away, every worker of a stopped queue that is
still in its loop has something that will end it; the first step that does leaves one
without. -/
theorem stopped_workers_end :
    (∀ s : Crew α, s.ReachableSparing → s.run.backlog.accepting = false → s.Covered) ∧
    ∀ s t : Crew α, s.ReachableSparing → s.run.backlog.accepting = false → LooseStep s t →
      (t.Covered ↔ Spares s t) := by
  refine ⟨fun s h stopped => h.told.covered stopped, fun s t h stopped step => ?_⟩
  constructor
  · rintro covered w rfl queued
    exact h.told.clear_uncovers stopped queued covered
  · intro spares
    have next : t.ReachableSparing := Transition.Reachable.next h ⟨step, spares⟩
    exact next.told.covered (step.stopped stopped)

/-- While the queue accepts tasks there is no finish item to clear away. -/
theorem Told.spares (h : s.Told) (accepts : s.run.backlog.accepting = true) : Spares s t := by
  rintro w - queued
  by_cases staff : w < s.count
  · have one := (h.workers w).tokens staff
    have some := List.count_pos_iff.mpr queued
    rw [accepts, if_pos rfl, Worker.tokens] at one
    omega
  · exact ((h.workers w).stranger staff).2 queued

/-- A task posts to the loop it runs on, clears it and posts again, and then the queue stops. -/
theorem stopped_workers_end_posting : ∃ s : Crew Nat, s.ReachableSparing ∧
    s.run.backlog.accepting = false ∧ s.run.taken = [0] ∧
    (s.workers 0).items = [.user, .finish] ∧ s.Covered := by
  have next {s t : Crew Nat} (h : s.ReachableSparing) (accepts : s.run.backlog.accepting = true)
      (step : LooseStep s t) : t.ReachableSparing :=
    Transition.Reachable.next h ⟨step, h.told.spares accepts⟩
  have start : lone.ReachableSparing := Transition.Reachable.start lone_starts
  have submitted := next start rfl (.step (.submit {} (by simp)))
  have swept := next submitted rfl (.step (@Step.next _ _ 0 .sweep [] [] rfl rfl (fun _ => rfl)))
  have taken := next swept rfl (.step (@Step.take _ _ 0 false [.loop] rfl))
  have posted := next taken rfl (.step (.perform 0))
  have cleared := next posted rfl (.clear 0)
  have again := next cleared rfl (.step (.perform 0))
  have stopped := next again rfl (.step .stop)
  exact ⟨_, stopped, rfl, rfl, rfl, stopped_workers_end.1 _ stopped rfl⟩

/-- A task that stops its queue and then clears the loop it runs on. -/
def emptied : Crew Nat :=
  ((((lone.submit {}).set 0 ⟨[], false, [.draining false none, .loop], false⟩).take
    0 false [.loop]).stop).clear 0

/-- The task's worker is left to wait with nothing that will end it. -/
theorem cleared_finish_item : ∃ s : Crew Nat, Transition.Reachable Starts LooseStep s ∧
    s.run.backlog.accepting = false ∧ ¬ s.Covered := by
  have start : Transition.Reachable Starts LooseStep lone := Transition.Reachable.start lone_starts
  have submitted := Transition.Reachable.next start (.step (.submit {} (by simp)))
  have swept := Transition.Reachable.next submitted
    (.step (@Step.next _ _ 0 .sweep [] [] rfl rfl (fun _ => rfl)))
  have taken := Transition.Reachable.next swept (.step (@Step.take _ _ 0 false [.loop] rfl))
  have stopped := Transition.Reachable.next taken (.step .stop)
  refine ⟨emptied, Transition.Reachable.next stopped (.clear 0), rfl, fun covered => ?_⟩
  rcases covered 0 Nat.one_pos rfl with queued | ⟨frame, mem, finishes⟩ | quit
  · exact absurd queued (by decide)
  · have mem : frame ∈ [Frame.draining false (some (⟨0, none⟩, false)), .loop] := mem
    simp only [List.mem_cons, List.not_mem_nil, or_false] at mem
    rcases mem with rfl | rfl
    · cases finishes
    · cases finishes
  · exact absurd quit (by decide)

end Crew

end Dross
