import Dross.Thread.QueueWorkers

/-!
# Sweeps on their way

While the queue accepts tasks, a worker's mark counts the sweeps on its loop and
in its calls, and every worker is marked as long as a task is ready. A worker
clears its mark under the mutex it saw the lists empty under, so a task made
ready after that hands it another sweep.
-/

namespace Dross

namespace Backlog

/-- The mark of a worker, none past the last. -/
def swept (b : Backlog) (w : Nat) : Bool := b.sweeping.getD w false

theorem handSweeps_length (is : List Nat) (sweeping : List Bool) :
    (handSweeps is sweeping).1.length = sweeping.length := by
  induction is generalizing sweeping with
  | nil => rfl
  | cons i rest ih =>
    rw [handSweeps]
    split
    · exact ih sweeping
    · rw [ih, List.length_set]

/-- A worker is handed a sweep exactly when it is marked for it. -/
theorem handSweeps_marks (is : List Nat) (sweeping : List Bool)
    (inside : ∀ i ∈ is, i < sweeping.length) (w : Nat) :
    ((handSweeps is sweeping).1.getD w false).toNat =
      (sweeping.getD w false).toNat + (handSweeps is sweeping).2.count w := by
  induction is generalizing sweeping with
  | nil => rfl
  | cons i rest ih =>
    have later : ∀ j ∈ rest, j < sweeping.length :=
      fun j mem => inside j (List.mem_cons_of_mem _ mem)
    rw [handSweeps]
    split
    · exact ih sweeping later
    · rename_i unmarked
      rw [ih (sweeping.set i true) (by simpa using later), List.count_cons]
      by_cases same : i = w
      · subst same
        have bound := inside i List.mem_cons_self
        have was : sweeping.getD i false = false := by simpa using unmarked
        rw [was]
        simp [List.getD_eq_getElem?_getD, List.getElem?_set_self bound]
        omega
      · simp [List.getD_eq_getElem?_getD, List.getElem?_set_ne same, same]

theorem handSweeps_covers (is : List Nat) (sweeping : List Bool)
    (inside : ∀ i ∈ is, i < sweeping.length) {w : Nat} (mem : w ∈ is) :
    (handSweeps is sweeping).1.getD w false = true := by
  induction is generalizing sweeping with
  | nil => cases mem
  | cons i rest ih =>
    have later : ∀ j ∈ rest, j < sweeping.length :=
      fun j mem => inside j (List.mem_cons_of_mem _ mem)
    have kept (marks : List Bool) (bound : ∀ j ∈ rest, j < marks.length)
        (marked : marks.getD w false = true) : (handSweeps rest marks).1.getD w false = true := by
      have counts := handSweeps_marks rest marks bound w
      rw [marked, Bool.toNat_true] at counts
      cases now : (handSweeps rest marks).1.getD w false with
      | true => rfl
      | false =>
        rw [now, Bool.toNat_false] at counts
        omega
    rw [handSweeps]
    split
    · rename_i marked
      rcases List.mem_cons.mp mem with rfl | mem
      · exact kept sweeping later marked
      · exact ih sweeping later mem
    · have bound : ∀ j ∈ rest, j < (sweeping.set i true).length := by simpa using later
      rcases List.mem_cons.mp mem with rfl | mem
      · refine kept _ bound ?_
        simp [List.getD_eq_getElem?_getD, List.getElem?_set_self (inside w List.mem_cons_self)]
      · exact ih _ bound mem

/-- What an operation that hands out sweeps does: it marks each worker it hands one, and
leaves a task ready only if one was or every worker is marked. -/
structure Hands (b b' : Backlog) (ws : List Nat) : Prop where
  length : b'.sweeping.length = b.sweeping.length
  workers : b'.workers = b.workers
  accepting : b'.accepting = b.accepting
  marks : ∀ w, (b'.swept w).toNat = (b.swept w).toNat + ws.count w
  covers : (∃ p, b'.tasks p ≠ []) → (∃ p, b.tasks p ≠ []) ∨ ∀ w < b.workers, b'.swept w = true

variable {b b' b'' : Backlog} {ws ws' : List Nat}

theorem Hands.marked (h : Hands b b' ws) {w : Nat} (marked : b.swept w = true) :
    b'.swept w = true := by
  have marks := h.marks w
  rw [marked, Bool.toNat_true] at marks
  cases now : b'.swept w with
  | true => rfl
  | false =>
    rw [now, Bool.toNat_false] at marks
    omega

theorem Hands.trans (h : Hands b b' ws) (h' : Hands b' b'' ws') : Hands b b'' (ws ++ ws') where
  length := h'.length.trans h.length
  workers := h'.workers.trans h.workers
  accepting := h'.accepting.trans h.accepting
  marks := fun w => by
    rw [h'.marks, h.marks, List.count_append]
    omega
  covers := fun ready => by
    rcases h'.covers ready with ready | all
    · rcases h.covers ready with ready | all
      · exact Or.inl ready
      · exact Or.inr fun w hw => h'.marked (all w hw)
    · exact Or.inr fun w hw => all w (by rw [h.workers]; exact hw)

/-- An operation that hands out nothing and makes nothing ready. -/
theorem Hands.quiet (sweeping : b'.sweeping = b.sweeping) (workers : b'.workers = b.workers)
    (accepting : b'.accepting = b.accepting) (tasks : ∀ p, b'.tasks p ≠ [] → b.tasks p ≠ []) :
    Hands b b' [] where
  length := by rw [sweeping]
  workers := workers
  accepting := accepting
  marks := fun w => by simp [swept, sweeping]
  covers := fun ready => Or.inl (ready.imp tasks)

theorem Hands.refl (b : Backlog) : Hands b b [] := .quiet rfl rfl rfl (fun _ ready => ready)

theorem Hands.after (h : Hands b b' []) (h' : Hands b' b'' ws) : Hands b b'' ws := h.trans h'

theorem makeReady_hands (staffed : b.workers ≤ b.sweeping.length) (task : Entry)
    (priority : OperationPriority) :
    Hands b (b.makeReady task priority).1 (b.makeReady task priority).2 := by
  have inside : ∀ i ∈ List.range b.workers, i < b.sweeping.length :=
    fun i mem => Nat.lt_of_lt_of_le (List.mem_range.mp mem) staffed
  refine ⟨handSweeps_length _ _, rfl, rfl, handSweeps_marks _ _ inside, fun _ => Or.inr ?_⟩
  exact fun w hw => handSweeps_covers _ _ inside (List.mem_range.mpr hw)

theorem Hands.ready (h : Hands b b' []) (staffed : b.workers ≤ b.sweeping.length) (task : Entry)
    (priority : OperationPriority) :
    Hands b (b'.makeReady task priority).1 (b'.makeReady task priority).2 :=
  h.after (makeReady_hands (by rw [h.workers, h.length]; exact staffed) task priority)

theorem queue_hands (staffed : b.workers ≤ b.sweeping.length) (priority : OperationPriority)
    (after : List OperationId) (result : Option OperationId) :
    Hands b (b.queue priority after result).1 (b.queue priority after result).2 := by
  unfold queue
  cases result with
  | none =>
    dsimp only
    split
    · exact .quiet rfl rfl rfl (fun _ ready => ready)
    · refine Hands.ready ?_ staffed _ _
      exact .quiet rfl rfl rfl (fun _ ready => ready)
  | some id =>
    dsimp only
    split
    · exact .quiet rfl rfl rfl (fun _ ready => ready)
    · refine Hands.ready ?_ staffed _ _
      exact .quiet rfl rfl rfl (fun _ ready => ready)

theorem countOff_hands (staffed : b.workers ≤ b.sweeping.length) (order : Nat) :
    Hands b (b.countOff order).1 (b.countOff order).2 := by
  unfold countOff
  split
  · exact .refl b
  · split
    · refine Hands.ready ?_ staffed _ _
      exact .quiet rfl rfl rfl (fun _ ready => ready)
    · exact .quiet rfl rfl rfl (fun _ ready => ready)

theorem countOffAll_hands (orders : List Nat) (staffed : b.workers ≤ b.sweeping.length) :
    Hands b (b.countOffAll orders).1 (b.countOffAll orders).2 := by
  induction orders generalizing b with
  | nil => exact .refl b
  | cons order rest ih =>
    have first := countOff_hands staffed order
    exact first.trans (ih (by rw [first.workers, first.length]; exact staffed))

theorem done_hands (staffed : b.workers ≤ b.sweeping.length) (task : Entry) :
    Hands b (b.done task).1 (b.done task).2 := by
  unfold done
  dsimp only
  split
  · exact .quiet rfl rfl rfl (fun _ ready => ready)
  · refine Hands.after ?_ (countOffAll_hands _ ?_)
    · exact .quiet rfl rfl rfl (fun _ ready => ready)
    · exact staffed

end Backlog

theorem Run.Admits.hands {b b' : Backlog} {woken : List Nat} (h : Run.Admits b b' woken)
    (staffed : b.workers ≤ b.sweeping.length) : Backlog.Hands b b' woken := by
  cases h with
  | same => exact .refl b
  | queued priority after result accepting => exact Backlog.queue_hands staffed _ _ _

/-- The sweeps of a worker: queued on its loop, or in `run_until_empty` and yet to see the
lists empty. -/
def Worker.sweeps (w : Worker) : Nat := w.items.count .sweep + w.frames.countP Frame.drains

namespace Crew

variable {α : Type} {s t : Crew α}

/-- While the queue accepts, a mark is one sweep, and every worker has one as long as a
task is ready. -/
structure Swept (s : Crew α) : Prop where
  length : s.run.backlog.sweeping.length = s.count
  staffed : s.run.backlog.workers ≤ s.run.backlog.sweeping.length
  marks : s.run.backlog.accepting = true → ∀ w < s.count,
    (s.workers w).sweeps = (s.run.backlog.swept w).toNat
  covered : s.run.backlog.accepting = true → (∃ p, s.run.backlog.tasks p ≠ []) →
    ∀ w < s.count, s.run.backlog.swept w = true

theorem hand_sweeps {item : WorkItem} (workers : Nat → Worker) (ws : List Nat) (w : Nat) :
    (hand workers item ws w).sweeps = (workers w).sweeps +
      if item = .sweep ∧ (workers w).ended = false then ws.count w else 0 := by
  rw [hand_eq]
  simp only [Worker.sweeps, List.count_append, List.count_replicate, beq_iff_eq]
  cases (workers w).ended with
  | true => simp
  | false =>
    simp only [Bool.false_eq_true, if_false, and_true]
    omega

theorem Sound.untold (h : s.Sound) (accepting : s.run.backlog.accepting = true) {w : Nat}
    (hw : w < s.count) : (s.workers w).items.count .finish = 0 ∧
      (s.workers w).frames.countP Frame.finishes = 0 ∧ (s.workers w).quit = false ∧
      (s.workers w).ended = false := by
  have tokens := h.tokens w hw
  rw [accepting, if_pos rfl, Worker.tokens] at tokens
  have toNat {b : Bool} (zero : b.toNat = 0) : b = false := by cases b <;> simp_all
  exact ⟨by omega, by omega, toNat (by omega), toNat (by omega)⟩

/-- An operation that hands out its sweeps as it marks the workers. -/
theorem Swept.move {ws : List Nat} (h : s.Swept) (sound : s.Sound) (count : t.count = s.count)
    (hands : Backlog.Hands s.run.backlog t.run.backlog ws)
    (sweeps : s.run.backlog.accepting = true → ∀ w < s.count, (s.workers w).ended = false →
      (t.workers w).sweeps = (s.workers w).sweeps + ws.count w) : t.Swept where
  length := by rw [hands.length, h.length, count]
  staffed := by rw [hands.workers, hands.length]; exact h.staffed
  marks := by
    intro accepting w hw
    rw [hands.accepting] at accepting
    rw [count] at hw
    rw [hands.marks, ← h.marks accepting w hw]
    exact sweeps accepting w hw (sound.untold accepting hw).2.2.2
  covered := by
    intro accepting ready w hw
    rw [hands.accepting] at accepting
    rw [count] at hw
    rcases hands.covers ready with ready | all
    · exact hands.marked (h.covered accepting ready w hw)
    · exact all w (by rw [sound.crewed accepting]; exact hw)

theorem top_sweeps {w : Nat} {frame frame' : Frame} {frames : List Frame}
    (top : (s.workers w).frames = frame :: frames) (same : frame'.drains = frame.drains) :
    ({ s.workers w with frames := frame' :: frames } : Worker).sweeps = (s.workers w).sweeps := by
  rw [Worker.sweeps, Worker.sweeps, top, List.countP_cons, List.countP_cons, same]

theorem update_sweeps {w : Nat} {worker : Worker} (same : worker.sweeps = (s.workers w).sweeps)
    (other : Nat) : (Function.update s.workers w worker other).sweeps = (s.workers other).sweeps := by
  by_cases own : other = w
  · rw [own, Function.update_self, same]
  · rw [Function.update_of_ne own]

/-- A step that only moves the calls of one worker, and its items that are no sweeps. -/
theorem Swept.set {w : Nat} {worker : Worker} (h : s.Swept) (sound : s.Sound)
    (sweeps : s.run.backlog.accepting = true → w < s.count → worker.sweeps = (s.workers w).sweeps) :
    (s.set w worker).Swept := by
  refine h.move sound rfl (.refl _) (fun accepting other hw _ => ?_)
  change (Function.update s.workers w worker other).sweeps = _
  by_cases same : other = w
  · subst same
    rw [Function.update_self, sweeps accepting hw]
    rfl
  · rw [Function.update_of_ne same]
    rfl

theorem submit_hands {run : Run α} (options : OperationOptions)
    (staffed : run.backlog.workers ≤ run.backlog.sweeping.length) :
    Backlog.Hands run.backlog (run.submit options).backlog (run.shared.submit options).2.2 :=
  (Run.submit_admits run options).hands staffed

theorem enqueue_hands {run : Run α} (options : OperationOptions)
    (staffed : run.backlog.workers ≤ run.backlog.sweeping.length) :
    Backlog.Hands run.backlog (run.enqueue options).backlog (run.shared.enqueue options).2.2 :=
  (Run.enqueue_admits run options).hands staffed

theorem Swept.take {w : Nat} {last : Bool} {frames : List Frame} (h : s.Swept) (sound : s.Sound)
    (top : (s.workers w).frames = .draining last none :: frames) : (s.take w last frames).Swept := by
  have was : (s.workers w).sweeps =
      (s.workers w).items.count .sweep + (frames.countP Frame.drains + 1) := by
    rw [Worker.sweeps, top, List.countP_cons_of_pos rfl]
  rcases s.run.backlog.take_cases w with ⟨task, p, left, front, eq⟩ | ⟨empty, eq⟩
  · have run : s.run.take w = { s.run with
        shared := ⟨{ s.run.backlog with tasks := Function.update s.run.backlog.tasks p left },
          s.run.operations⟩
        hands := ⟨w, task, false⟩ :: s.run.hands
        taken := task.order :: s.run.taken } := by
      simp only [Run.take, eq]
    unfold Crew.take
    simp only [eq, run]
    refine @Swept.move _ s _ [] h sound rfl ?_ (fun _ other _ _ => ?_)
    · refine .quiet rfl rfl rfl (fun other ready => ?_)
      change Function.update s.run.backlog.tasks p left other ≠ [] at ready
      by_cases same : other = p
      · rw [same, front]
        exact List.cons_ne_nil _ _
      · rwa [Function.update_of_ne same] at ready
    · refine update_sweeps (top_sweeps top ?_) other
      rfl
  · have run : s.run.take w = s.run.withBacklog
        { s.run.backlog with sweeping := s.run.backlog.sweeping.set w false } := by
      simp only [Run.take, eq, Run.withBacklog]
    have hw : w < s.count := sound.used_lt (by rw [top]; exact List.cons_ne_nil _ _)
    unfold Crew.take
    simp only [eq, run]
    refine ⟨List.length_set.trans h.length, ?_, fun accepting other bound => ?_, ?_⟩
    · exact Nat.le_trans h.staffed (Nat.le_of_eq List.length_set.symm)
    · change (Function.update s.workers w _ other).sweeps =
        ((s.run.backlog.sweeping.set w false).getD other false).toNat
      by_cases same : other = w
      · rw [same, Function.update_self]
        -- its one sweep was the call that saw the lists empty
        have one := Bool.toNat_le (s.run.backlog.swept w)
        rw [← h.marks accepting w hw, was] at one
        have unmarked : (s.run.backlog.sweeping.set w false).getD w false = false := by
          rw [List.getD_eq_getElem?_getD, List.getElem?_set_self (by rw [h.length]; exact hw)]
          rfl
        rw [unmarked, Bool.toNat_false, Worker.sweeps]
        cases last with
        | false => simp only [Bool.false_eq_true, if_false]; omega
        | true => rw [if_pos rfl, List.countP_cons_of_neg (by decide)]; dsimp only; omega
      · rw [Function.update_of_ne same, h.marks accepting other bound]
        simp [Backlog.swept, List.getD_eq_getElem?_getD, List.getElem?_set_ne (Ne.symm same)]
    · rintro - ⟨p, ready⟩
      exact absurd (empty p) ready

theorem Swept.stop (h : s.Swept) : s.stop.Swept := by
  cases open_ : s.run.backlog.accepting with
  | false =>
    rw [stop_stopped open_]
    exact h
  | true =>
    have out : s.run.stop.backlog = { s.run.backlog with accepting := false, workers := 0 } := by
      simp [Run.stop, Shared.stop, open_, Run.backlog]
    have closed : s.stop.run.backlog.accepting = false := by
      change s.run.stop.backlog.accepting = false
      rw [out]
    refine ⟨?_, ?_, fun accepting => ?_, fun accepting => ?_⟩
    · change s.run.stop.backlog.sweeping.length = s.count
      rw [out]
      exact h.length
    · change s.run.stop.backlog.workers ≤ _
      rw [out]
      exact Nat.zero_le _
    · rw [closed] at accepting
      cases accepting
    · rw [closed] at accepting
      cases accepting

theorem Swept.step (h : s.Swept) (sound : s.Sound) (valid : s.run.Valid []) (step : Step s t) :
    t.Swept := by
  cases step with
  | submit options made =>
    refine h.move sound rfl (submit_hands options h.staffed) (fun _ w _ going => ?_)
    exact (hand_sweeps _ _ w).trans (by simp [going])
  | enqueue options made =>
    refine h.move sound rfl (enqueue_hands options h.staffed) (fun _ w _ going => ?_)
    exact (hand_sweeps _ _ w).trans (by simp [going])
  | cancel id =>
    cases found : (s.run.backlog.takeOut id).1 with
    | none =>
      rw [(Run.cancel_none found).2]
      exact h
    | some task =>
      have frame := valid.cancel_frame found
      refine @Swept.move _ s _ [] h sound rfl ?_ (fun _ w _ _ => rfl)
      rw [frame]
      exact .quiet rfl rfl rfl (fun p ready none => ready (by
        change (s.run.backlog.tasks p).filter _ = []
        rw [none]
        rfl))
  | stop => exact h.stop
  | elsewhereMakes queue other => exact h.move sound rfl (.refl _) (fun _ w _ _ => rfl)
  | elsewhereSettles id state other => exact h.move sound rfl (.refl _) (fun _ w _ _ => rfl)
  | perform w =>
    refine h.move sound rfl (.refl _) (fun _ other _ _ => ?_)
    exact (hand_sweeps _ _ other).trans (by simp)
  | @next w item items frames front top awake =>
    refine h.set sound (fun accepting hw => ?_)
    have none := (sound.untold accepting hw).1
    rw [front] at none
    simp only [Worker.sweeps, front, top, List.countP_cons, List.count_cons]
    cases item with
    | sweep => simp [WorkItem.frame, Frame.drains]; omega
    | user => simp [WorkItem.frame, Frame.drains]
    | finish => simp at none
  | timer w top awake =>
    exact h.set sound (fun _ _ => by simp [Worker.sweeps, top, Frame.drains])
  | nest w top nests =>
    exact h.set sound (fun _ _ => by simp [Worker.sweeps, top, Frame.drains])
  | leave w top =>
    exact h.set sound (fun _ _ => by simp [Worker.sweeps, top, Frame.drains])
  | back w top =>
    exact h.set sound (fun _ _ => by simp [Worker.sweeps, top, Frame.drains])
  | take w top => exact h.take sound top
  | @finish w last task frames value top =>
    refine @Swept.move _ s _ [] h sound rfl ?_ (fun _ other _ _ => ?_)
    · change Backlog.Hands _ (s.run.finish ⟨w, task, false⟩ value).backlog _
      rw [Run.finish_backlog]
      exact .refl _
    · refine update_sweeps (top_sweeps top ?_) other
      rfl
  | @done w last task frames top =>
    have same : ∀ other, (Function.update s.workers w
        { s.workers w with frames := .draining last none :: frames } other).sweeps =
        (s.workers other).sweeps :=
      update_sweeps (top_sweeps top rfl)
    refine h.move sound rfl (Backlog.done_hands h.staffed task) (fun _ other _ going => ?_)
    have ended : (Function.update s.workers w
        { s.workers w with frames := .draining last none :: frames } other).ended = false := by
      by_cases own : other = w
      · rw [own, Function.update_self]
        rwa [own] at going
      · rwa [Function.update_of_ne own]
    refine (hand_sweeps _ _ other).trans ?_
    rw [same, if_pos ⟨rfl, ended⟩]
  | check w top =>
    refine h.set sound (fun _ _ => ?_)
    simp only [Worker.sweeps, top, List.countP_cons]
    split <;> rfl
  | @requeue w frames top =>
    refine h.set sound (fun _ _ => ?_)
    unfold Worker.perform
    split <;> simp [Worker.sweeps, top, Frame.drains, List.count_append]
  | quit w top =>
    exact h.set sound (fun _ _ => by simp [Worker.sweeps, top, Frame.drains])
  | ended w top told =>
    refine h.set sound (fun accepting hw => ?_)
    have untold := (sound.untold accepting hw).2.2.1
    rw [told] at untold
    cases untold

theorem Starts.swept (h : s.Starts) : s.Swept := by
  obtain ⟨⟨number, workers, operations, run, _⟩, _, crewed, idle⟩ := h
  have count : workers = s.count := by
    rw [← crewed, run]
    rfl
  have sweeping : s.run.backlog.sweeping = List.replicate s.count false := by
    rw [run, ← count]
    rfl
  refine ⟨?_, ?_, fun _ w hw => ?_, fun _ ready => ?_⟩
  · rw [sweeping, List.length_replicate]
  · rw [sweeping, List.length_replicate, crewed]
  · rw [idle, if_pos hw, Backlog.swept, sweeping]
    simp [List.getD_eq_getElem?_getD, hw, Worker.sweeps, Frame.drains]
  · obtain ⟨p, ready⟩ := ready
    rw [run] at ready
    exact absurd rfl ready

theorem Reachable.swept (h : s.Reachable) : s.Swept := by
  refine (@Transition.Reachable.invariant _ Starts Step
    (fun s => s.Reachable ∧ s.Swept) (fun s starts => ⟨.start starts, starts.swept⟩) ?_ s h).2
  rintro s t ⟨reachable, swept⟩ step
  obtain ⟨run, sound⟩ := reachable.sound
  exact ⟨Transition.Reachable.next reachable step, swept.step sound run.valid step⟩

/-- While the queue accepts, a marked worker has one sweep, queued or yet to see the lists
empty, and once a task is ready every worker is marked and has its loop to run. -/
theorem no_lost_sweep (h : s.Reachable) (accepting : s.run.backlog.accepting = true) :
    (∀ w < s.count, s.run.backlog.swept w = true ↔
      ((s.workers w).items.count .sweep = 1 ∧ ∀ frame ∈ (s.workers w).frames, ¬ frame.drains) ∨
      ((s.workers w).items.count .sweep = 0 ∧
        (s.workers w).frames.countP Frame.drains = 1)) ∧
    ((∃ p, s.run.backlog.tasks p ≠ []) → ∀ w < s.count, s.run.backlog.swept w = true ∧
      (s.workers w).quit = false ∧ (s.workers w).ended = false ∧
      (.sweep ∈ (s.workers w).items ∨ ∃ frame ∈ (s.workers w).frames, frame.drains)) := by
  obtain ⟨_, sound⟩ := h.sound
  have swept := h.swept
  have marks := swept.marks accepting
  constructor
  · intro w hw
    have one := marks w hw
    rw [Worker.sweeps] at one
    rw [← List.countP_eq_zero]
    cases marked : s.run.backlog.swept w with
    | true =>
      rw [marked, Bool.toNat_true] at one
      simp only [true_iff]
      omega
    | false =>
      rw [marked, Bool.toNat_false] at one
      simp only [Bool.false_eq_true, false_iff]
      omega
  · intro ready w hw
    have marked := swept.covered accepting ready w hw
    have one := marks w hw
    rw [marked, Bool.toNat_true, Worker.sweeps] at one
    obtain ⟨_, _, quit, ended⟩ := sound.untold accepting hw
    refine ⟨marked, quit, ended, ?_⟩
    by_cases queued : .sweep ∈ (s.workers w).items
    · exact Or.inl queued
    · have none := List.count_eq_zero.mpr queued
      exact Or.inr (List.countP_pos_iff.mp (by omega))

theorem no_lost_sweep_lone : (lone.submit {}).run.backlog.swept 0 = true := by
  have start : lone.Reachable := Transition.Reachable.start lone_starts
  have submitted := Transition.Reachable.next start (.submit {} (by simp))
  exact ((no_lost_sweep submitted rfl).2 ⟨.normal, List.cons_ne_nil _ _⟩ 0 Nat.one_pos).1

end Crew

end Dross
