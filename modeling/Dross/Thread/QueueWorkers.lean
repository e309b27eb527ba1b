import Dross.Thread.QueueGuarantees

/-!
# The workers of an operation queue

A worker's loop is first in, first out, and what it runs is a stack of calls: a
task may run the loop it is on again, so a sweep, or the finish item `stop`
hands out, may run inside a task of an earlier one. Tasks neither throw nor call
`quit` or `clear` on a worker's loop, and no timer falls due between the two
readings of a wait check, so a worker leaves its loop by its finish item alone:
what the source does otherwise is left out here.
-/

namespace Dross

/-- What is queued on a worker's loop: an item of the backlog, or anything else. -/
inductive WorkItem where
  | sweep
  | finish
  | user
  deriving DecidableEq, Repr

/-- A call a worker is in. `draining` is `run_until_empty`, for a sweep or for
the `last` time, with the task it has taken and whether that has returned; the
three after it are what a finish item does once the lists are empty. -/
inductive Frame where
  | loop
  | user
  | draining (last : Bool) (next : Option (Entry × Bool))
  | checking
  | requeueing
  | quitting
  deriving DecidableEq, Repr

def WorkItem.frame : WorkItem → Frame
  | .sweep => .draining false none
  | .finish => .draining true none
  | .user => .user

/-- Whether a call may run the loop it is on again: a task, or any other item. -/
def Frame.nests : Frame → Bool
  | .user => true
  | .draining _ (some (_, false)) => true
  | _ => false

def Frame.held : Frame → Option (Entry × Bool)
  | .draining _ next => next
  | _ => none

/-- A call of the finish item, which ends by queueing it again or by `quit`. -/
def Frame.finishes : Frame → Bool
  | .draining last _ => last
  | .checking => true
  | .requeueing => true
  | .quitting => true
  | _ => false

def Frame.drains : Frame → Bool
  | .draining _ _ => true
  | _ => false

structure Worker where
  items : List WorkItem
  quit : Bool
  frames : List Frame
  ended : Bool

namespace Worker

/-- A loop that has ended refuses what is queued on it. -/
def perform (w : Worker) (item : WorkItem) : Worker :=
  if w.ended then w else { w with items := w.items ++ [item] }

def held (w : Worker) : List (Entry × Bool) := w.frames.filterMap Frame.held

/-- The finish item of a worker: queued, in a call, or spent on a `quit`. -/
def tokens (w : Worker) : Nat :=
  w.items.count .finish + w.frames.countP Frame.finishes + w.quit.toNat + w.ended.toNat

/-- A worker that takes tasks, or will before it ends. -/
def Busy (w : Worker) : Prop := (∃ frame ∈ w.frames, frame.drains = true) ∨ .finish ∈ w.items

end Worker

structure Crew (α : Type) where
  run : Run α
  count : Nat
  workers : Nat → Worker

namespace Crew

variable {α : Type}

/-- Each worker named is handed an item, in turn. -/
def hand (workers : Nat → Worker) (item : WorkItem) : List Nat → Nat → Worker
  | [] => workers
  | w :: rest => hand (Function.update workers w ((workers w).perform item)) item rest

def set (s : Crew α) (w : Nat) (worker : Worker) : Crew α :=
  { s with workers := Function.update s.workers w worker }

def submit (s : Crew α) (options : OperationOptions) : Crew α :=
  { s with
    run := s.run.submit options
    workers := hand s.workers .sweep (s.run.shared.submit options).2.2 }

def enqueue (s : Crew α) (options : OperationOptions) : Crew α :=
  { s with
    run := s.run.enqueue options
    workers := hand s.workers .sweep (s.run.shared.enqueue options).2.2 }

def stop (s : Crew α) : Crew α :=
  { s with
    run := s.run.stop
    workers := hand s.workers .finish s.run.shared.stop.2 }

/-- `take` in `run_until_empty`, which returns once there is nothing to take. -/
def take (s : Crew α) (w : Nat) (last : Bool) (frames : List Frame) : Crew α :=
  let worker := s.workers w
  match (s.run.backlog.take w).1 with
  | some task =>
    { s with
      run := s.run.take w
      workers := Function.update s.workers w
        { worker with frames := .draining last (some (task, false)) :: frames } }
  | none =>
    { s with
      run := s.run.take w
      workers := Function.update s.workers w
        { worker with frames := if last then .checking :: frames else frames } }

def finish (s : Crew α) (w : Nat) (last : Bool) (task : Entry) (value : α)
    (frames : List Frame) : Crew α :=
  { s with
    run := s.run.finish ⟨w, task, false⟩ value
    workers := Function.update s.workers w
      { s.workers w with frames := .draining last (some (task, true)) :: frames } }

def done (s : Crew α) (w : Nat) (last : Bool) (task : Entry) (frames : List Frame) : Crew α :=
  { s with
    run := s.run.done ⟨w, task, true⟩
    workers := hand (Function.update s.workers w
      { s.workers w with frames := .draining last none :: frames }) .sweep
      (s.run.backlog.done task).2 }

/-- One step of some thread. The constructors up to `perform` are any thread's,
the others those of worker `w`, for the call on top of its stack. -/
inductive Step (s : Crew α) : Crew α → Prop
  | submit (options : OperationOptions)
      (made : ∀ id ∈ options.after, s.run.operations.stateOf id ≠ none) : Step s (s.submit options)
  | enqueue (options : OperationOptions)
      (made : ∀ id ∈ options.after, s.run.operations.stateOf id ≠ none) :
      Step s (s.enqueue options)
  | cancel (id : OperationId) : Step s { s with run := s.run.cancel id }
  | stop : Step s s.stop
  | elsewhereMakes (queue : Nat) (other : queue ≠ s.run.backlog.number) :
      Step s { s with run := s.run.withOperations (s.run.operations.make queue).2 }
  | elsewhereSettles (id : OperationId) (state : ResultState α)
      (other : s.run.operations.queueOf id ≠ s.run.backlog.number) :
      Step s { s with run := s.run.withOperations (s.run.operations.settle id state) }
  | perform (w : Nat) : Step s { s with workers := hand s.workers .user [w] }
  | next (w : Nat) {item : WorkItem} {items : List WorkItem} {frames : List Frame}
      (front : (s.workers w).items = item :: items) (top : (s.workers w).frames = .loop :: frames)
      (awake : frames = [] → (s.workers w).quit = false) :
      Step s (s.set w
        { s.workers w with items := items, frames := item.frame :: .loop :: frames })
  | timer (w : Nat) {frames : List Frame} (top : (s.workers w).frames = .loop :: frames)
      (awake : frames = [] → (s.workers w).quit = false) :
      Step s (s.set w { s.workers w with frames := .user :: .loop :: frames })
  | nest (w : Nat) {frame : Frame} {frames : List Frame}
      (top : (s.workers w).frames = frame :: frames) (nests : frame.nests = true) :
      Step s (s.set w { s.workers w with frames := .loop :: frame :: frames })
  | leave (w : Nat) {frame : Frame} {frames : List Frame}
      (top : (s.workers w).frames = .loop :: frame :: frames) :
      Step s (s.set w { s.workers w with frames := frame :: frames })
  | back (w : Nat) {frames : List Frame} (top : (s.workers w).frames = .user :: frames) :
      Step s (s.set w { s.workers w with frames := frames })
  | take (w : Nat) {last : Bool} {frames : List Frame}
      (top : (s.workers w).frames = .draining last none :: frames) : Step s (s.take w last frames)
  | finish (w : Nat) {last : Bool} {task : Entry} {frames : List Frame} (value : α)
      (top : (s.workers w).frames = .draining last (some (task, false)) :: frames) :
      Step s (s.finish w last task value frames)
  | done (w : Nat) {last : Bool} {task : Entry} {frames : List Frame}
      (top : (s.workers w).frames = .draining last (some (task, true)) :: frames) :
      Step s (s.done w last task frames)
  | check (w : Nat) {frames : List Frame} (top : (s.workers w).frames = .checking :: frames) :
      Step s (s.set w { s.workers w with
        frames := (if 0 < (s.workers w).items.length then .requeueing else .quitting) :: frames })
  | requeue (w : Nat) {frames : List Frame} (top : (s.workers w).frames = .requeueing :: frames) :
      Step s (s.set w ({ s.workers w with frames := frames }.perform .finish))
  | quit (w : Nat) {frames : List Frame} (top : (s.workers w).frames = .quitting :: frames) :
      Step s (s.set w { s.workers w with quit := true, frames := frames })
  | ended (w : Nat) (top : (s.workers w).frames = [.loop]) (told : (s.workers w).quit = true) :
      Step s (s.set w { items := [], quit := false, frames := [], ended := true })

/-- A queue with at least one worker, each in its loop. -/
def Starts (s : Crew α) : Prop :=
  s.run.Starts ∧ 0 < s.count ∧ s.run.backlog.workers = s.count ∧
    ∀ w, s.workers w = ⟨[], false, if w < s.count then [.loop] else [], false⟩

def Reachable : Crew α → Prop := Transition.Reachable Starts Step

/-- What holds of the workers in every run. -/
structure Sound (s : Crew α) : Prop where
  staff : 0 < s.count
  hands : ∀ hand, s.run.hands.count hand =
    (s.workers hand.worker).held.count (hand.entry, hand.returned)
  staffed : ∀ w, s.count ≤ w → (s.workers w).frames = []
  gone : ∀ w, (s.workers w).ended = true → (s.workers w).frames = []
  tokens : ∀ w < s.count, (s.workers w).tokens = if s.run.backlog.accepting then 0 else 1
  crewed : s.run.backlog.accepting = true → s.run.backlog.workers = s.count
  swept : s.run.backlog.accepting = false → (∃ p, s.run.backlog.tasks p ≠ []) →
    ∃ w < s.count, (s.workers w).Busy

theorem hand_eq (workers : Nat → Worker) (item : WorkItem) (ws : List Nat) (w : Nat) :
    hand workers item ws w = { workers w with
      items := (workers w).items ++
        List.replicate (if (workers w).ended then 0 else ws.count w) item } := by
  induction ws generalizing workers with
  | nil => simp [hand]
  | cons first rest ih =>
    rw [hand, ih]
    by_cases same : w = first
    · subst same
      rw [Function.update_self]
      cases ended : (workers w).ended with
      | false => simp [Worker.perform, ended, List.replicate_succ]
      | true => simp [Worker.perform, ended]
    · simp [Function.update_of_ne same, List.count_cons_of_ne (Ne.symm same)]

variable {s : Crew α}

theorem hand_held (workers : Nat → Worker) (item : WorkItem) (ws : List Nat) (w : Nat) :
    (hand workers item ws w).held = (workers w).held := by
  rw [hand_eq]
  rfl

theorem hand_tokens {item : WorkItem} (other : item ≠ .finish) (workers : Nat → Worker)
    (ws : List Nat) (w : Nat) : (hand workers item ws w).tokens = (workers w).tokens := by
  rw [hand_eq]
  simp only [Worker.tokens, List.count_append]
  rw [List.count_eq_zero.mpr (fun mem => other (List.mem_replicate.mp mem).2.symm)]
  omega

theorem hand_busy {item : WorkItem} {workers : Nat → Worker} {ws : List Nat} {w : Nat}
    (busy : (workers w).Busy) : (hand workers item ws w).Busy := by
  rw [hand_eq]
  exact busy.imp (fun h => h) (fun h => List.mem_append_left _ h)

/-- Items but the finish item change nothing the invariant speaks of. -/
theorem Sound.handed {item : WorkItem} (h : s.Sound) (other : item ≠ .finish) (ws : List Nat) :
    Sound { s with workers := hand s.workers item ws } where
  staff := h.staff
  hands := fun hand => by
    rw [hand_held]
    exact h.hands hand
  staffed := fun w hw => by
    change (hand s.workers item ws w).frames = []
    rw [hand_eq]
    exact h.staffed w hw
  gone := fun w => by
    change (hand s.workers item ws w).ended = true → (hand s.workers item ws w).frames = []
    rw [hand_eq]
    exact h.gone w
  tokens := fun w hw => by
    change (hand s.workers item ws w).tokens = _
    rw [hand_tokens other]
    exact h.tokens w hw
  crewed := h.crewed
  swept := fun stopped ready => by
    obtain ⟨w, hw, busy⟩ := h.swept stopped ready
    exact ⟨w, hw, hand_busy busy⟩

theorem Sound.used_lt {w : Nat} (h : s.Sound) (used : (s.workers w).frames ≠ []) :
    w < s.count := by
  by_contra out
  exact used (h.staffed w (by omega))

/-- The run goes on, and worker `w` with it. -/
theorem Sound.move {run : Run α} {w : Nat} {worker : Worker} (h : s.Sound)
    (used : (s.workers w).frames ≠ [])
    (hands : ∀ task returned, run.hands.count ⟨w, task, returned⟩ =
      worker.held.count (task, returned))
    (others : ∀ hand : Hand, hand.worker ≠ w → run.hands.count hand = s.run.hands.count hand)
    (accepting : run.backlog.accepting = s.run.backlog.accepting)
    (workers : run.backlog.workers = s.run.backlog.workers)
    (tokens : worker.tokens = (s.workers w).tokens)
    (gone : worker.ended = true → worker.frames = [])
    (swept : s.run.backlog.accepting = false → (∃ p, run.backlog.tasks p ≠ []) →
      worker.Busy ∨ ((∃ p, s.run.backlog.tasks p ≠ []) ∧ ((s.workers w).Busy → worker.Busy))) :
    Sound ⟨run, s.count, Function.update s.workers w worker⟩ where
  staff := h.staff
  hands := fun hand => by
    obtain ⟨own, task, returned⟩ := hand
    change run.hands.count _ = (Function.update s.workers w worker own).held.count (task, returned)
    by_cases same : own = w
    · subst same
      rw [Function.update_self]
      exact hands task returned
    · rw [Function.update_of_ne same]
      exact (others ⟨own, task, returned⟩ same).trans (h.hands ⟨own, task, returned⟩)
  staffed := fun v hv => by
    have ne : v ≠ w := by
      rintro rfl
      exact used (h.staffed v hv)
    change (Function.update s.workers w worker v).frames = []
    rw [Function.update_of_ne ne]
    exact h.staffed v hv
  gone := fun v => by
    change (Function.update s.workers w worker v).ended = true →
      (Function.update s.workers w worker v).frames = []
    by_cases same : v = w
    · subst same
      rw [Function.update_self]
      exact gone
    · rw [Function.update_of_ne same]
      exact h.gone v
  tokens := fun v hv => by
    change (Function.update s.workers w worker v).tokens = if run.backlog.accepting then 0 else 1
    rw [accepting]
    by_cases same : v = w
    · subst same
      rw [Function.update_self, tokens]
      exact h.tokens v hv
    · rw [Function.update_of_ne same]
      exact h.tokens v hv
  crewed := fun open_ => by
    change run.backlog.workers = s.count
    rw [workers]
    exact h.crewed (accepting ▸ open_)
  swept := fun stopped ready => by
    change run.backlog.accepting = false at stopped
    rw [accepting] at stopped
    rcases swept stopped ready with busy | ⟨before, busy⟩
    · refine ⟨w, h.used_lt used, ?_⟩
      change (Function.update s.workers w worker w).Busy
      rw [Function.update_self]
      exact busy
    · obtain ⟨v, hv, was⟩ := h.swept stopped before
      refine ⟨v, hv, ?_⟩
      change (Function.update s.workers w worker v).Busy
      by_cases same : v = w
      · subst same
        rw [Function.update_self]
        exact busy was
      · rw [Function.update_of_ne same]
        exact was

/-- A step of worker `w` alone. -/
theorem Sound.set {w : Nat} {worker : Worker} (h : s.Sound) (used : (s.workers w).frames ≠ [])
    (held : worker.held = (s.workers w).held) (tokens : worker.tokens = (s.workers w).tokens)
    (gone : worker.ended = true → worker.frames = [])
    (busy : (s.workers w).Busy → worker.Busy) : (s.set w worker).Sound := by
  refine h.move used ?_ (fun _ _ => rfl) rfl rfl tokens gone (fun _ ready => Or.inr ⟨ready, busy⟩)
  intro task returned
  rw [held]
  exact h.hands ⟨w, task, returned⟩

/-- The run goes on without the workers, and nothing becomes ready once it has
stopped. -/
theorem Sound.rerun {run : Run α} (h : s.Sound) (hands : run.hands = s.run.hands)
    (accepting : run.backlog.accepting = s.run.backlog.accepting)
    (workers : run.backlog.workers = s.run.backlog.workers)
    (ready : s.run.backlog.accepting = false → ∀ p, run.backlog.tasks p ≠ [] →
      s.run.backlog.tasks p ≠ []) : Sound { s with run := run } where
  staff := h.staff
  hands := fun hand => by
    change run.hands.count hand = _
    rw [hands]
    exact h.hands hand
  staffed := h.staffed
  gone := h.gone
  tokens := fun w hw => by
    change (s.workers w).tokens = if run.backlog.accepting then 0 else 1
    rw [accepting]
    exact h.tokens w hw
  crewed := fun open_ => by
    change run.backlog.workers = s.count
    rw [workers]
    exact h.crewed (accepting ▸ open_)
  swept := fun stopped some => by
    change run.backlog.accepting = false at stopped
    rw [accepting] at stopped
    obtain ⟨p, hp⟩ := some
    exact h.swept stopped ⟨p, ready stopped p hp⟩

theorem submit_keeps (run : Run α) (options : OperationOptions) :
    (run.submit options).hands = run.hands ∧
    (run.submit options).backlog.accepting = run.backlog.accepting ∧
    (run.submit options).backlog.workers = run.backlog.workers ∧
    (run.backlog.accepting = false → (run.submit options).backlog = run.backlog) :=
  ⟨rfl, (Run.submit_admits run options).keeps⟩

theorem enqueue_keeps (run : Run α) (options : OperationOptions) :
    (run.enqueue options).hands = run.hands ∧
    (run.enqueue options).backlog.accepting = run.backlog.accepting ∧
    (run.enqueue options).backlog.workers = run.backlog.workers ∧
    (run.backlog.accepting = false → (run.enqueue options).backlog = run.backlog) :=
  ⟨rfl, (Run.enqueue_admits run options).keeps⟩

/-- The call of a worker that holds a task has a hand in the run. -/
theorem Sound.hand_mem {w : Nat} {last returned : Bool} {task : Entry} {frames : List Frame}
    (h : s.Sound) (top : (s.workers w).frames = .draining last (some (task, returned)) :: frames) :
    (⟨w, task, returned⟩ : Hand) ∈ s.run.hands := by
  rw [← List.count_pos_iff, h.hands]
  apply List.count_pos_iff.mpr
  simp [Worker.held, top, Frame.held]

theorem Sound.not_ended {w : Nat} {frame : Frame} {frames : List Frame} (h : s.Sound)
    (top : (s.workers w).frames = frame :: frames) : (s.workers w).ended = false := by
  rw [Bool.eq_false_iff]
  intro ended
  rw [h.gone w ended] at top
  cases top

/-- A step of the workers is a step of the run, or leaves it as it was. -/
theorem Sound.step_run {t : Crew α} (h : s.Sound) (step : Step s t) :
    t.run = s.run ∨ Run.Step s.run t.run := by
  cases step with
  | submit options made => exact Or.inr (.submit options made)
  | enqueue options made => exact Or.inr (.enqueue options made)
  | cancel id => exact Or.inr (.cancel id)
  | stop => exact Or.inr .stop
  | elsewhereMakes queue other => exact Or.inr (.elsewhereMakes queue other)
  | elsewhereSettles id state other => exact Or.inr (.elsewhereSettles id state other)
  | take w top =>
    refine Or.inr ?_
    unfold Crew.take
    dsimp only
    split <;> exact .take w
  | finish w value top => exact Or.inr (.finish _ value (h.hand_mem top) rfl)
  | done w top => exact Or.inr (.done _ (h.hand_mem top) rfl)
  | perform w => exact Or.inl rfl
  | next w front top awake => exact Or.inl rfl
  | timer w top awake => exact Or.inl rfl
  | nest w top nests => exact Or.inl rfl
  | leave w top => exact Or.inl rfl
  | back w top => exact Or.inl rfl
  | check w top => exact Or.inl rfl
  | requeue w top => exact Or.inl rfl
  | quit w top => exact Or.inl rfl
  | ended w top told => exact Or.inl rfl

theorem stop_stopped (stopped : s.run.backlog.accepting = false) : s.stop = s := by
  have same : s.run.shared.stop = (s.run.shared, []) := by simp [Shared.stop, stopped]
  simp [Crew.stop, Run.stop, same, hand]

theorem Sound.stop (h : s.Sound) : s.stop.Sound := by
  cases open_ : s.run.backlog.accepting with
  | false =>
    rw [stop_stopped open_]
    exact h
  | true =>
    have out : s.run.shared.stop = (⟨{ s.run.backlog with accepting := false, workers := 0 },
        s.run.operations⟩, List.range s.run.backlog.workers) := by
      simp [Shared.stop, open_]
    rw [h.crewed open_] at out
    have workers : ∀ w < s.count, (s.workers w).ended = false ∧
        hand s.workers .finish (List.range s.count) w =
          { s.workers w with items := (s.workers w).items ++ [.finish] } := by
      intro w hw
      have tokens := h.tokens w hw
      rw [open_, if_pos rfl] at tokens
      have ended : (s.workers w).ended = false := by
        unfold Worker.tokens at tokens
        cases ended : (s.workers w).ended with
        | false => rfl
        | true => simp [ended] at tokens
      have one : (List.range s.count).count w = 1 :=
        List.count_eq_one_of_mem List.nodup_range (List.mem_range.mpr hw)
      refine ⟨ended, ?_⟩
      rw [hand_eq, ended, one]
      rfl
    unfold Crew.stop Run.stop
    rw [out]
    exact {
      staff := h.staff
      hands := fun hand => by
        rw [hand_held]
        exact h.hands hand
      staffed := fun w hw => by
        change (hand s.workers .finish _ w).frames = []
        rw [hand_eq]
        exact h.staffed w hw
      gone := fun w => by
        change (hand s.workers .finish _ w).ended = true → (hand s.workers .finish _ w).frames = []
        rw [hand_eq]
        exact h.gone w
      tokens := fun w hw => by
        have tokens := h.tokens w hw
        rw [open_, if_pos rfl] at tokens
        change (hand s.workers .finish _ w).tokens = 1
        rw [(workers w hw).2]
        unfold Worker.tokens at tokens ⊢
        simp only [List.count_append, List.count_singleton_self]
        omega
      crewed := fun open_ => by cases open_
      swept := fun _ _ => by
        refine ⟨0, h.staff, Or.inr ?_⟩
        change _ ∈ (hand s.workers .finish _ 0).items
        rw [(workers 0 h.staff).2]
        simp }

theorem Sound.take {w : Nat} {last : Bool} {frames : List Frame} (h : s.Sound)
    (top : (s.workers w).frames = .draining last none :: frames) : (s.take w last frames).Sound := by
  have used : (s.workers w).frames ≠ [] := by rw [top]; exact List.cons_ne_nil _ _
  have held : (s.workers w).held = frames.filterMap Frame.held := by
    simp [Worker.held, top, List.filterMap_cons, Frame.held]
  have ended := h.not_ended top
  rcases s.run.backlog.take_cases w with ⟨task, p, left, front, eq⟩ | ⟨empty, eq⟩
  · have run : s.run.take w = { s.run with
        shared := ⟨{ s.run.backlog with tasks := Function.update s.run.backlog.tasks p left },
          s.run.operations⟩
        hands := ⟨w, task, false⟩ :: s.run.hands
        taken := task.order :: s.run.taken } := by
      simp only [Run.take, eq]
    unfold Crew.take
    simp only [eq, run]
    apply h.move used
    · intro e returned
      have was := h.hands ⟨w, e, returned⟩
      rw [held] at was
      simp only [Worker.held, List.filterMap_cons, Frame.held, List.count_cons, was]
      congr 1
      simp only [beq_iff_eq, Hand.mk.injEq, Prod.mk.injEq, true_and]
    · intro hand other
      exact List.count_cons_of_ne (fun same => other (by rw [← same]))
    · rfl
    · rfl
    · unfold Worker.tokens
      rw [top]
      rfl
    · intro gone
      rw [ended] at gone
      cases gone
    · exact fun _ _ => Or.inl (Or.inl ⟨_, List.mem_cons_self, rfl⟩)
  · have run : s.run.take w = s.run.withBacklog
        { s.run.backlog with sweeping := s.run.backlog.sweeping.set w false } := by
      simp only [Run.take, eq, Run.withBacklog]
    unfold Crew.take
    simp only [eq, run]
    apply h.move used
    · intro e returned
      have was := h.hands ⟨w, e, returned⟩
      rw [held] at was
      refine was.trans ?_
      cases last <;> rfl
    · intro hand other
      rfl
    · rfl
    · rfl
    · unfold Worker.tokens
      rw [top]
      cases last <;> rfl
    · intro gone
      rw [ended] at gone
      cases gone
    · rintro - ⟨p, ready⟩
      exact absurd (empty p) ready

theorem Sound.finish {w : Nat} {last : Bool} {task : Entry} {frames : List Frame} (h : s.Sound)
    (value : α) (top : (s.workers w).frames = .draining last (some (task, false)) :: frames) :
    (s.finish w last task value frames).Sound := by
  have used : (s.workers w).frames ≠ [] := by rw [top]; exact List.cons_ne_nil _ _
  have ended := h.not_ended top
  have mem := h.hand_mem top
  have counts : ∀ hand, (s.run.finish ⟨w, task, false⟩ value).hands.count hand =
      (s.run.hands.erase ⟨w, task, false⟩).count hand +
        if (⟨w, task, true⟩ : Hand) = hand then 1 else 0 := by
    intro hand
    simp [Run.finish, List.count_cons]
  apply h.move used
  · intro e returned
    have was := h.hands ⟨w, e, returned⟩
    rw [counts, List.count_erase, was]
    simp only [Worker.held, top, List.filterMap_cons, Frame.held, List.count_cons, beq_iff_eq,
      Hand.mk.injEq, Prod.mk.injEq, true_and]
    split <;> omega
  · intro hand other
    have ne : ∀ returned, (⟨w, task, returned⟩ : Hand) ≠ hand := by
      rintro returned rfl
      exact other rfl
    rw [counts, if_neg (ne true), List.count_erase_of_ne (ne false).symm]
    rfl
  · rw [Run.finish_backlog]
  · rw [Run.finish_backlog]
  · unfold Worker.tokens
    rw [top]
    rfl
  · intro gone
    rw [ended] at gone
    cases gone
  · exact fun _ _ => Or.inl (Or.inl ⟨_, List.mem_cons_self, rfl⟩)

theorem Sound.done {w : Nat} {last : Bool} {task : Entry} {frames : List Frame} (h : s.Sound)
    (top : (s.workers w).frames = .draining last (some (task, true)) :: frames) :
    (s.done w last task frames).Sound := by
  have used : (s.workers w).frames ≠ [] := by rw [top]; exact List.cons_ne_nil _ _
  have ended := h.not_ended top
  have keeps := Run.done_keeps s.run.backlog task
  have moved : Sound ⟨s.run.done ⟨w, task, true⟩, s.count, Function.update s.workers w
      { s.workers w with frames := .draining last none :: frames }⟩ := by
    apply h.move used
    · intro e returned
      have was := h.hands ⟨w, e, returned⟩
      change (s.run.hands.erase ⟨w, task, true⟩).count _ = _
      rw [List.count_erase, was]
      simp only [Worker.held, top, List.filterMap_cons, Frame.held, List.count_cons, beq_iff_eq,
        Hand.mk.injEq, Prod.mk.injEq, true_and]
      split <;> omega
    · intro hand other
      refine List.count_erase_of_ne ?_
      rintro rfl
      exact other rfl
    · exact keeps.1
    · exact keeps.2
    · unfold Worker.tokens
      rw [top]
      rfl
    · intro gone
      rw [ended] at gone
      cases gone
    · exact fun _ _ => Or.inl (Or.inl ⟨_, List.mem_cons_self, rfl⟩)
  exact moved.handed (by simp) _

/-- A call that is neither of a task nor of the finish item comes or goes. -/
theorem Sound.reframe {w : Nat} {frame : Frame} {rest frames : List Frame} (h : s.Sound)
    (top : (s.workers w).frames = frame :: rest)
    (held : frames.filterMap Frame.held = (frame :: rest).filterMap Frame.held)
    (finishes : frames.countP Frame.finishes = (frame :: rest).countP Frame.finishes)
    (drains : ∀ f ∈ frame :: rest, f.drains = true → f ∈ frames) :
    (s.set w { s.workers w with frames := frames }).Sound := by
  have ended := h.not_ended top
  refine h.set (by rw [top]; exact List.cons_ne_nil _ _) ?_ ?_ ?_ ?_
  · rw [Worker.held, Worker.held, top]
    exact held
  · unfold Worker.tokens
    rw [top, ← finishes]
  · intro gone
    rw [ended] at gone
    cases gone
  · rintro (⟨f, mem, hf⟩ | mem)
    · rw [top] at mem
      exact Or.inl ⟨f, drains f mem hf, hf⟩
    · exact Or.inr mem

/-- The front item of a worker becomes the call on top of its stack. -/
theorem Sound.next {w : Nat} {item : WorkItem} {items : List WorkItem} {frames : List Frame}
    (h : s.Sound) (front : (s.workers w).items = item :: items)
    (top : (s.workers w).frames = .loop :: frames) :
    (s.set w { s.workers w with items := items, frames := item.frame :: .loop :: frames }).Sound := by
  have ended := h.not_ended top
  refine h.set (by rw [top]; exact List.cons_ne_nil _ _) ?_ ?_ ?_ ?_
  · simp only [Worker.held, top, List.filterMap_cons]
    cases item <;> rfl
  · simp only [Worker.tokens, front, top, List.countP_cons, List.count_cons]
    cases item <;> simp [WorkItem.frame, Frame.finishes]
    omega
  · intro gone
    rw [ended] at gone
    cases gone
  · rintro (⟨frame, mem, drains⟩ | mem)
    · rw [top] at mem
      exact Or.inl ⟨frame, List.mem_cons_of_mem _ mem, drains⟩
    · rw [front] at mem
      rcases List.mem_cons.mp mem with rfl | mem
      · exact Or.inl ⟨_, List.mem_cons_self, rfl⟩
      · exact Or.inr mem

/-- The finish item is put back behind what is still queued. -/
theorem Sound.requeue {w : Nat} {frames : List Frame} (h : s.Sound)
    (top : (s.workers w).frames = .requeueing :: frames) :
    (s.set w ({ s.workers w with frames := frames }.perform .finish)).Sound := by
  have ended := h.not_ended top
  have out : ({ s.workers w with frames := frames } : Worker).perform .finish =
      { s.workers w with items := (s.workers w).items ++ [.finish], frames := frames } := by
    simp [Worker.perform, ended]
  rw [out]
  refine h.set (by rw [top]; exact List.cons_ne_nil _ _) ?_ ?_ ?_ ?_
  · rw [Worker.held, Worker.held, top]
    rfl
  · simp only [Worker.tokens, top, List.countP_cons, List.count_append,
      List.count_singleton_self, Frame.finishes, if_true]
    omega
  · intro gone
    rw [ended] at gone
    cases gone
  · exact fun _ => Or.inr (List.mem_append_right _ List.mem_cons_self)

theorem Sound.token_le {w : Nat} {frame : Frame} {frames : List Frame} (h : s.Sound)
    (top : (s.workers w).frames = frame :: frames) : (s.workers w).tokens ≤ 1 := by
  rw [h.tokens w (h.used_lt (by rw [top]; exact List.cons_ne_nil _ _))]
  split <;> omega

/-- The item in the call is the worker's only one, so it was not told to quit before. -/
theorem Sound.quit {w : Nat} {frames : List Frame} (h : s.Sound)
    (top : (s.workers w).frames = .quitting :: frames) :
    (s.set w { s.workers w with quit := true, frames := frames }).Sound := by
  have ended := h.not_ended top
  have one := h.token_le top
  rw [Worker.tokens, top, List.countP_cons] at one
  simp only [Frame.finishes, if_true] at one
  have untold : (s.workers w).quit = false := by
    cases quit : (s.workers w).quit with
    | false => rfl
    | true =>
      rw [quit, Bool.toNat_true] at one
      omega
  refine h.set (by rw [top]; exact List.cons_ne_nil _ _) ?_ ?_ ?_ ?_
  · rw [Worker.held, Worker.held, top]
    rfl
  · simp only [Worker.tokens, top, List.countP_cons, Frame.finishes, if_true, untold,
      Bool.toNat_false, Bool.toNat_true]
    omega
  · intro gone
    rw [ended] at gone
    cases gone
  · rintro (⟨f, mem, drains⟩ | mem)
    · rw [top] at mem
      rcases List.mem_cons.mp mem with rfl | mem
      · cases drains
      · exact Or.inl ⟨f, mem, drains⟩
    · exact Or.inr mem

/-- A worker that was told to quit has no finish item left when its loop ends. -/
theorem Sound.ended {w : Nat} (h : s.Sound) (top : (s.workers w).frames = [.loop])
    (told : (s.workers w).quit = true) :
    (s.set w { items := [], quit := false, frames := [], ended := true }).Sound := by
  have still := h.not_ended top
  have one := h.token_le top
  have none : (s.workers w).items.count .finish = 0 := by
    rw [Worker.tokens, told, Bool.toNat_true] at one
    omega
  refine h.set (by rw [top]; exact List.cons_ne_nil _ _) ?_ ?_ (fun _ => rfl) ?_
  · rw [Worker.held, Worker.held, top]
    rfl
  · simp only [Worker.tokens, top, told, still, none]
    rfl
  · rintro (⟨f, mem, drains⟩ | mem)
    · rw [top, List.mem_singleton] at mem
      rw [mem] at drains
      cases drains
    · exact absurd mem (List.count_eq_zero.mp none)

theorem Sound.step {t : Crew α} (h : s.Sound) (valid : s.run.Valid []) (step : Step s t) :
    t.Sound := by
  cases step with
  | submit options made =>
    obtain ⟨hands, accepting, workers, same⟩ := submit_keeps s.run options
    exact (h.rerun hands accepting workers (fun stopped p ready => by
      rwa [same stopped] at ready)).handed (by simp) _
  | enqueue options made =>
    obtain ⟨hands, accepting, workers, same⟩ := enqueue_keeps s.run options
    exact (h.rerun hands accepting workers (fun stopped p ready => by
      rwa [same stopped] at ready)).handed (by simp) _
  | cancel id =>
    cases found : (s.run.backlog.takeOut id).1 with
    | none =>
      rw [(Run.cancel_none found).2]
      exact h
    | some task =>
      have frame := valid.cancel_frame found
      refine h.rerun ?_ ?_ ?_ ?_
      · rfl
      · rw [frame]
      · rw [frame]
      · intro _ p ready none
        rw [frame] at ready
        simp [none] at ready
  | stop => exact h.stop
  | elsewhereMakes queue other => exact h.rerun rfl rfl rfl (fun _ _ ready => ready)
  | elsewhereSettles id state other => exact h.rerun rfl rfl rfl (fun _ _ ready => ready)
  | perform w => exact h.handed (by simp) [w]
  | next w front top awake => exact h.next front top
  | timer w top awake =>
    exact h.reframe top rfl rfl (fun f mem _ => List.mem_cons_of_mem _ mem)
  | nest w top nests =>
    exact h.reframe top rfl rfl (fun f mem _ => List.mem_cons_of_mem _ mem)
  | leave w top =>
    refine h.reframe top rfl rfl (fun f mem drains => ?_)
    rcases List.mem_cons.mp mem with rfl | mem
    · cases drains
    · exact mem
  | back w top =>
    refine h.reframe top rfl rfl (fun f mem drains => ?_)
    rcases List.mem_cons.mp mem with rfl | mem
    · cases drains
    · exact mem
  | take w top => exact h.take top
  | finish w value top => exact h.finish value top
  | done w top => exact h.done top
  | check w top =>
    refine h.reframe top ?_ ?_ (fun f mem drains => ?_)
    · split <;> rfl
    · split <;> rfl
    · rcases List.mem_cons.mp mem with rfl | mem
      · cases drains
      · exact List.mem_cons_of_mem _ mem
  | requeue w top => exact h.requeue top
  | quit w top => exact h.quit top
  | ended w top told => exact h.ended top told

theorem Starts.sound (h : s.Starts) : s.Sound := by
  obtain ⟨⟨number, workers, operations, run, _⟩, staff, crewed, idle⟩ := h
  have open_ : s.run.backlog.accepting = true := by rw [run]; rfl
  refine ⟨staff, ?_, ?_, ?_, ?_, fun _ => crewed, ?_⟩
  · intro hand
    rw [run, idle]
    change 0 = ((if hand.worker < s.count then [Frame.loop] else []).filterMap Frame.held).count _
    split <;> rfl
  · intro w hw
    rw [idle, if_neg (by omega)]
  · intro w gone
    rw [idle] at gone
    cases gone
  · intro w hw
    rw [idle, if_pos hw, if_pos open_]
    rfl
  · intro stopped
    rw [open_] at stopped
    cases stopped

theorem Reachable.sound (h : s.Reachable) : s.run.Reachable ∧ s.Sound := by
  refine @Transition.Reachable.invariant _ Starts Step
    (fun s => s.run.Reachable ∧ s.Sound) ?_ ?_ s h
  · exact fun s starts => ⟨Transition.Reachable.start starts.1, starts.sound⟩
  · rintro s t ⟨reachable, sound⟩ step
    refine ⟨?_, sound.step reachable.valid step⟩
    rcases sound.step_run step with same | step
    · rw [same]
      exact reachable
    · exact Transition.Reachable.next reachable step

/-- Once a queue has stopped and each of its workers has ended, no task is left
behind: each one accepted has returned or was cancelled. -/
theorem nothing_stranded (h : s.Reachable) (stopped : s.run.backlog.accepting = false)
    (ended : ∀ w < s.count, (s.workers w).ended = true) :
    (∀ p, s.run.backlog.tasks p = []) ∧ s.run.backlog.waiting = [] ∧
    s.run.backlog.unfinished = ∅ ∧ s.run.hands = [] ∧
    ∀ order < s.run.backlog.accepted,
      s.run.finished.count order + s.run.cancelled.count order = 1 := by
  obtain ⟨reachable, sound⟩ := h.sound
  have valid := reachable.valid
  have frames : ∀ w, (s.workers w).frames = [] := by
    intro w
    by_cases hw : w < s.count
    · exact sound.gone w (ended w hw)
    · exact sound.staffed w (by omega)
  have ready : ∀ p, s.run.backlog.tasks p = [] := by
    intro p
    by_contra some
    obtain ⟨w, hw, ⟨f, mem, _⟩ | mem⟩ := sound.swept stopped ⟨p, some⟩
    · rw [frames] at mem
      cases mem
    · have tokens := sound.tokens w hw
      have count := List.count_pos_iff.mpr mem
      simp only [stopped, Bool.false_eq_true, if_false, Worker.tokens, ended w hw,
        Bool.toNat_true] at tokens
      omega
  have hands : s.run.hands = [] := by
    apply List.eq_nil_iff_forall_not_mem.mpr
    intro hand mem
    have count := List.count_pos_iff.mpr mem
    rw [sound.hands, Worker.held, frames] at count
    cases count
  have waiting : s.run.backlog.waiting = [] := by
    by_contra some
    obtain ⟨w, mem⟩ := List.exists_mem_of_ne_nil _ some
    rcases valid.progress mem with ⟨p, hp⟩ | hh
    · exact hp (ready p)
    · exact hh hands
  have live : ∀ order, s.run.liveTally [] order = 0 := by
    intro order
    simp [Run.liveTally, Backlog.readyTally, ready, Backlog.aside, waiting, Run.held, hands]
  refine ⟨ready, waiting, ?_, hands, ?_⟩
  · ext order
    rw [valid.books.unfinished, live]
    simp
  · intro order lt
    have := valid.books.accounted order
    rw [live, if_pos lt] at this
    omega

/-- Two workers, each in its loop. -/
def pair : Crew Nat :=
  ⟨Run.initial 1 2 .initial, 2, fun w => ⟨[], false, if w < 2 then [.loop] else [], false⟩⟩

/-- Three tasks, each to run after the one before it, the last of them cancelled. -/
def pairQueued : Crew Nat :=
  let s := ((pair.enqueue {}).enqueue { after := [1] }).enqueue { after := [2] }
  { s with run := s.run.cancel 3 }

/-- The first task is running on the first worker. -/
def pairBusy : Crew Nat :=
  (pairQueued.set 0 ⟨[], false, [.draining false none, .loop], false⟩).take 0 false [.loop]

theorem pair_starts : pair.Starts := ⟨Run.initial_starts 1 2, Nat.two_pos, rfl, fun _ => rfl⟩

theorem pairBusy_steps : Relation.ReflTransGen Step pair pairBusy := by
  have first := Relation.ReflTransGen.single (Step.enqueue (s := pair) {} (by simp))
  have second := first.tail (.enqueue { after := [1] } (by decide))
  have third := second.tail (.enqueue { after := [2] } (by decide))
  have queued : Relation.ReflTransGen Step pair pairQueued := third.tail (.cancel 3)
  have swept := queued.tail (@Step.next _ _ 0 .sweep [] [] rfl rfl (fun _ => rfl))
  exact swept.tail (@Step.take _ _ 0 false [.loop] rfl)

/-- Told to stop then, both workers end, the second task run after the first. -/
theorem pairBusy_ends : ∃ s, Relation.ReflTransGen Step pairBusy.stop s ∧
    s.run.backlog.accepting = false ∧ s.run.backlog.accepted = 3 ∧ s.run.finished = [1, 0] ∧
    s.run.cancelled = [2] ∧ s.count = 2 ∧ ∀ w < s.count, (s.workers w).ended = true := by
  have swept := Relation.ReflTransGen.single
    (@Step.next _ pairBusy.stop 1 .sweep [.finish] [] rfl rfl (fun _ => rfl))
  have none_ := swept.tail (@Step.take _ _ 1 false [.loop] rfl)
  have told := none_.tail (@Step.next _ _ 1 .finish [] [] rfl rfl (fun _ => rfl))
  have empty := told.tail (@Step.take _ _ 1 true [.loop] rfl)
  have checked := empty.tail (@Step.check _ _ 1 [.loop] rfl)
  have quit := checked.tail (@Step.quit _ _ 1 [.loop] rfl)
  have ended := quit.tail (.ended 1 rfl rfl)
  have ran := ended.tail (@Step.finish _ _ 0 false ⟨0, some 1⟩ [.loop] 7 rfl)
  have done := ran.tail (@Step.done _ _ 0 false ⟨0, some 1⟩ [.loop] rfl)
  have taken := done.tail (@Step.take _ _ 0 false [.loop] rfl)
  have ran' := taken.tail (@Step.finish _ _ 0 false ⟨1, some 2⟩ [.loop] 7 rfl)
  have done' := ran'.tail (@Step.done _ _ 0 false ⟨1, some 2⟩ [.loop] rfl)
  have none' := done'.tail (@Step.take _ _ 0 false [.loop] rfl)
  have told' := none'.tail (@Step.next _ _ 0 .finish [] [] rfl rfl (fun _ => rfl))
  have empty' := told'.tail (@Step.take _ _ 0 true [.loop] rfl)
  have checked' := empty'.tail (@Step.check _ _ 0 [.loop] rfl)
  have quit' := checked'.tail (@Step.quit _ _ 0 [.loop] rfl)
  refine ⟨_, quit'.tail (.ended 0 rfl rfl), rfl, rfl, rfl, rfl, rfl, fun w less => ?_⟩
  rcases w with _ | _ | w
  · rfl
  · rfl
  · exact absurd less (Nat.not_lt.mpr (Nat.le_add_left 2 w))

theorem nothing_stranded_pair : ∃ s : Crew Nat, s.Reachable ∧ s.count = 2 ∧
    s.run.backlog.accepted = 3 ∧ s.run.finished = [1, 0] ∧ s.run.cancelled = [2] ∧
    s.run.backlog.waiting = [] ∧ s.run.backlog.unfinished = ∅ ∧
    ∀ order < 3, s.run.finished.count order + s.run.cancelled.count order = 1 := by
  obtain ⟨s, steps, stopped, accepted, finished, cancelled, count, ended⟩ := pairBusy_ends
  have start : pair.Reachable := Transition.Reachable.start pair_starts
  have told := Transition.Reachable.next (Transition.Reachable.later start pairBusy_steps) .stop
  have reached : s.Reachable := Transition.Reachable.later told steps
  obtain ⟨_, waiting, unfinished, _, once⟩ := nothing_stranded reached stopped ended
  rw [accepted] at once
  exact ⟨s, reached, count, accepted, finished, cancelled, waiting, unfinished, once⟩

/-- One worker in its loop. -/
def lone : Crew Nat :=
  ⟨Run.initial 1 1 .initial, 1, fun w => ⟨[], false, if w < 1 then [.loop] else [], false⟩⟩

theorem lone_starts : lone.Starts := ⟨Run.initial_starts 1 1, Nat.one_pos, rfl, fun _ => rfl⟩

end Crew

end Dross
