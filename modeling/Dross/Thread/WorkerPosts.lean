import Dross.Thread.WorkerTokens

/-!
# What a task queues on its own worker's loop

A loop hands out its items in the order they were queued, so an item is known by
its place: how many were queued before it. The finish item tells the loop to quit
only when it sees no item queued, which settles every item queued before, but not
one that a task it ran inside of queues afterwards.
-/

namespace Dross

/-- A crew that remembers how many items each loop has handed out, and the places of those
that a call of its own worker queued. -/
structure Posts (α : Type) where
  crew : Crew α
  taken : Nat → Nat
  own : Nat → List Nat

namespace Posts

variable {α : Type} {s t u : Posts α}

abbrev worker (s : Posts α) (w : Nat) : Worker := s.crew.workers w

/-- The place the next item queued on a loop will have. -/
def place (s : Posts α) (w : Nat) : Nat := s.taken w + (s.worker w).items.length

/-- One step. What ends a loop drops its items; any other step that hands none out only
adds to the loops. -/
inductive Step (s : Posts α) : Posts α → Prop
  | post (w : Nat) {frame : Frame} {frames : List Frame} (top : (s.worker w).frames = frame :: frames)
      (nests : frame.nests = true) :
      Step s { s with
        crew := { s.crew with workers := Crew.hand s.crew.workers .user [w] }
        own := Function.update s.own w (s.place w :: s.own w) }
  | next (w : Nat) {item : WorkItem} {items : List WorkItem} {frames : List Frame}
      (front : (s.worker w).items = item :: items) (top : (s.worker w).frames = .loop :: frames)
      (awake : frames = [] → (s.worker w).quit = false) :
      Step s { s with
        crew := s.crew.set w
          { s.worker w with items := items, frames := item.frame :: .loop :: frames }
        taken := Function.update s.taken w (s.taken w + 1) }
  | ended (w : Nat) (top : (s.worker w).frames = [.loop]) (told : (s.worker w).quit = true) :
      Step s { s with
        crew := s.crew.set w { items := [], quit := false, frames := [], ended := true } }
  | endsEarly (w : Nat) (top : (s.worker w).frames = [.loop]) (idle : (s.worker w).items = [])
      (untold : (s.worker w).quit = false) :
      Step s { s with
        crew := s.crew.set w { items := [], quit := false, frames := [], ended := true } }
  | other {crew : Crew α} (step : Crew.Step s.crew crew)
      (queued : ∀ w, (s.worker w).items <+: (crew.workers w).items) :
      Step s { s with crew := crew }

def Starts (s : Posts α) : Prop := s.crew.Starts ∧ ∀ w, s.taken w = 0 ∧ s.own w = []

def Reachable : Posts α → Prop := Transition.Reachable Starts Step

/-- Whether a step queues nothing on its own worker's loop once that is told to quit. -/
def Heeds (s t : Posts α) : Prop := ∀ w, t.own w ≠ s.own w → (s.worker w).quit = false

/-- The states of the runs in which no task queues on a loop that is told to quit. -/
def ReachableHeeding : Posts α → Prop :=
  Transition.Reachable Starts (fun s t => Step s t ∧ Heeds s t)

/-- What holds of a worker in such a run: nothing of its own is queued once it quits. -/
structure Safe (worker : Worker) (taken : Nat) (own : List Nat) : Prop where
  queued : worker.ended = false → ∀ place ∈ own, place < taken + worker.items.length
  told : worker.quit = true ∨ .quitting ∈ worker.frames → ∀ place ∈ own, place < taken
  last : .quitting ∉ worker.frames.tail
  gone : worker.ended = true → worker.frames = [] ∧ ∀ place ∈ own, place < taken

variable {before after : Worker} {taken : Nat} {own : List Nat}

/-- Nothing but more items. -/
theorem Safe.grow (h : Safe before taken own) (items : before.items <+: after.items)
    (quit : after.quit = before.quit) (frames : after.frames = before.frames)
    (ended : after.ended = before.ended) : Safe after taken own where
  queued := by
    intro going place mem
    have was := h.queued (by rw [← ended]; exact going) place mem
    have := items.length_le
    omega
  told := by
    rw [quit, frames]
    exact h.told
  last := by
    rw [frames]
    exact h.last
  gone := by
    rw [ended, frames]
    exact h.gone

/-- A call comes or goes, and a call of `quit` only when nothing of its own is queued. -/
theorem Safe.reframe {frame : Frame} {rest : List Frame} (h : Safe before taken own)
    (top : before.frames = frame :: rest) (items : before.items <+: after.items)
    (ended : after.ended = before.ended) (last : .quitting ∉ after.frames.tail)
    (told : after.quit = true ∨ .quitting ∈ after.frames → ∀ place ∈ own, place < taken) :
    Safe after taken own where
  queued := by
    intro going place mem
    have was := h.queued (by rw [← ended]; exact going) place mem
    have := items.length_le
    omega
  told := told
  last := last
  gone := by
    intro gone
    rw [ended] at gone
    rw [(h.gone gone).1] at top
    cases top

/-- A call comes or goes that is none of `quit`. -/
theorem Safe.call {frame : Frame} {rest : List Frame} (h : Safe before taken own)
    (top : before.frames = frame :: rest) (items : before.items <+: after.items)
    (quit : after.quit = before.quit) (ended : after.ended = before.ended)
    (frames : .quitting ∉ after.frames) : Safe after taken own := by
  refine h.reframe top items ended (fun mem => frames (List.mem_of_mem_tail mem)) ?_
  rintro (told | calling)
  · exact h.told (Or.inl (by rw [← quit]; exact told))
  · exact absurd calling frames

theorem Safe.rest {frame : Frame} {rest : List Frame} (h : Safe before taken own)
    (top : before.frames = frame :: rest) : .quitting ∉ rest := by
  have last := h.last
  rwa [top] at last

theorem Safe.handed {workers : Nat → Worker} {w : Nat} (h : Safe (workers w) taken own)
    (item : WorkItem) (ws : List Nat) : Safe (Crew.hand workers item ws w) taken own := by
  rw [Crew.hand_eq]
  exact h.grow (List.prefix_append _ _) rfl rfl rfl

theorem safe_update {workers : Nat → Worker} {w : Nat} {worker : Worker} {taken : Nat → Nat}
    {own : Nat → List Nat} (safe : ∀ v, Safe (workers v) (taken v) (own v))
    (moved : Safe worker (taken w) (own w)) (v : Nat) :
    Safe (Function.update workers w worker v) (taken v) (own v) := by
  by_cases same : v = w
  · rw [same, Function.update_self]
    exact moved
  · rw [Function.update_of_ne same]
    exact safe v

theorem safe_ended (all : ∀ place ∈ own, place < taken) :
    Safe { items := [], quit := false, frames := [], ended := true } taken own where
  queued := by
    intro going
    cases going
  told := fun _ => all
  last := List.not_mem_nil
  gone := fun _ => ⟨rfl, all⟩

theorem Safe.going {frame : Frame} {rest : List Frame} (h : Safe before taken own)
    (top : before.frames = frame :: rest) : before.ended = false := by
  rw [Bool.eq_false_iff]
  intro ended
  rw [(h.gone ended).1] at top
  cases top

/-- A step that hands no item out keeps what a worker queued itself where it was. -/
theorem Safe.step {crew crew' : Crew α} {taken : Nat → Nat} {own : Nat → List Nat}
    (step : Crew.Step crew crew') (queued : ∀ w, (crew.workers w).items <+: (crew'.workers w).items)
    (safe : ∀ w, Safe (crew.workers w) (taken w) (own w)) :
    ∀ w, Safe (crew'.workers w) (taken w) (own w) := by
  cases step with
  | submit options made => exact fun w => (safe w).handed _ _
  | enqueue options made => exact fun w => (safe w).handed _ _
  | cancel id => exact safe
  | stop => exact fun w => (safe w).handed _ _
  | elsewhereMakes queue other => exact safe
  | elsewhereSettles id state other => exact safe
  | perform w => exact fun v => (safe v).handed _ _
  | @next w item items frames front top awake =>
    have grows := (queued w).length_le
    simp only [Crew.set, Function.update_self, front, List.length_cons] at grows
    omega
  | timer w top awake =>
    refine safe_update safe ((safe w).call top List.prefix_rfl rfl rfl ?_)
    simpa using (safe w).rest top
  | @nest w frame frames top nests =>
    refine safe_update safe ((safe w).call top List.prefix_rfl rfl rfl ?_)
    have rest := (safe w).rest top
    intro mem
    simp only [List.mem_cons, reduceCtorEq, false_or] at mem
    rcases mem with rfl | mem
    · cases nests
    · exact rest mem
  | @leave w frame frames top =>
    have rest := (safe w).rest top
    exact safe_update safe ((safe w).call top List.prefix_rfl rfl rfl rest)
  | back w top =>
    exact safe_update safe ((safe w).call top List.prefix_rfl rfl rfl ((safe w).rest top))
  | @take w last frames top =>
    have rest := (safe w).rest top
    unfold Crew.take
    dsimp only
    split
    · refine safe_update safe ((safe w).call top List.prefix_rfl rfl rfl ?_)
      simpa using rest
    · refine safe_update safe ((safe w).call top List.prefix_rfl rfl rfl ?_)
      cases last with
      | false => simpa using rest
      | true => simpa using rest
  | @finish w last task frames value top =>
    refine safe_update safe ((safe w).call top List.prefix_rfl rfl rfl ?_)
    simpa using (safe w).rest top
  | @done w last task frames top =>
    have moved : Safe { crew.workers w with frames := .draining last none :: frames }
        (taken w) (own w) :=
      (safe w).call top List.prefix_rfl rfl rfl (by simpa using (safe w).rest top)
    exact fun v => (safe_update safe moved v).handed _ _
  | @check w frames top =>
    have rest := (safe w).rest top
    have going := (safe w).going top
    refine safe_update safe ((safe w).reframe top List.prefix_rfl rfl ?_ ?_)
    · simpa using rest
    · rintro (told | calling)
      · exact (safe w).told (Or.inl told)
      · split at calling
        · exact absurd (by simpa using calling) rest
        · rename_i idle
          intro place mem
          have := (safe w).queued going place mem
          omega
  | @requeue w frames top =>
    have rest := (safe w).rest top
    refine safe_update safe ?_
    unfold Worker.perform
    split
    · exact (safe w).call top List.prefix_rfl rfl rfl rest
    · exact (safe w).call top (List.prefix_append _ _) rfl rfl rest
  | @quit w frames top =>
    have rest := (safe w).rest top
    have all := (safe w).told (Or.inr (by rw [top]; exact List.mem_cons_self))
    refine safe_update safe ((safe w).reframe top List.prefix_rfl rfl ?_ (fun _ => all))
    exact fun mem => rest (List.mem_of_mem_tail mem)
  | ended w top told =>
    have all := (safe w).told (Or.inl told)
    exact safe_update safe (safe_ended all)

/-- A call queues an item on its own worker's loop, which is not told to quit. -/
theorem Safe.post {frame : Frame} {rest : List Frame} (h : Safe before taken own)
    (top : before.frames = frame :: rest) (nests : frame.nests = true)
    (untold : before.quit = false) :
    Safe { before with items := before.items ++ [.user] } taken
      ((taken + before.items.length) :: own) where
  queued := by
    intro going place mem
    rw [List.length_append, List.length_singleton]
    rcases List.mem_cons.mp mem with rfl | mem
    · omega
    · have := h.queued going place mem
      omega
  told := by
    rintro (told | calling)
    · rw [untold] at told
      cases told
    · rw [top] at calling
      rcases List.mem_cons.mp calling with rfl | calling
      · cases nests
      · exact absurd calling (h.rest top)
  last := h.last
  gone := by
    intro ended
    rw [h.going top] at ended
    cases ended

/-- The loop hands an item out. -/
theorem Safe.next {item : WorkItem} {items : List WorkItem} {frames : List Frame}
    (h : Safe before taken own) (front : before.items = item :: items)
    (top : before.frames = .loop :: frames) :
    Safe { before with items := items, frames := item.frame :: .loop :: frames } (taken + 1) own where
  queued := by
    intro going place mem
    have was := h.queued going place mem
    rw [front, List.length_cons] at was
    change place < taken + 1 + items.length
    omega
  told := by
    rintro (told | calling) place mem
    · have := h.told (Or.inl told) place mem
      omega
    · have rest := h.rest top
      cases item <;> exact absurd (by simpa [WorkItem.frame] using calling) rest
  last := by
    simpa using h.rest top
  gone := by
    intro ended
    rw [h.going top] at ended
    cases ended

theorem Step.safe (step : Step s t) (heeds : Heeds s t)
    (safe : ∀ w, Safe (s.worker w) (s.taken w) (s.own w)) :
    ∀ w, Safe (t.worker w) (t.taken w) (t.own w) := by
  cases step with
  | @post w frame frames top nests =>
    intro v
    by_cases same : v = w
    · subst same
      have untold := heeds v (by dsimp only; rw [Function.update_self]; exact List.cons_ne_self _ _)
      have posted := (safe v).post top nests untold
      have out : Crew.hand s.crew.workers .user [v] v =
          { s.worker v with items := (s.worker v).items ++ [.user] } := by
        rw [Crew.hand_eq, (safe v).going top]
        simp
      change Safe (Crew.hand s.crew.workers .user [v] v) (s.taken v) (Function.update s.own v _ v)
      rw [out, Function.update_self]
      exact posted
    · change Safe _ (s.taken v) (Function.update s.own w _ v)
      rw [Function.update_of_ne same]
      exact (safe v).handed _ _
  | @next w item items frames front top awake =>
    intro v
    change Safe (Function.update s.crew.workers w _ v) (Function.update s.taken w _ v) (s.own v)
    by_cases same : v = w
    · subst same
      rw [Function.update_self, Function.update_self]
      exact (safe v).next front top
    · rw [Function.update_of_ne same, Function.update_of_ne same]
      exact safe v
  | ended w top told => exact safe_update safe (safe_ended ((safe w).told (Or.inl told)))
  | endsEarly w top idle untold =>
    refine safe_update safe (safe_ended (fun place mem => ?_))
    have := (safe w).queued ((safe w).going top) place mem
    rw [idle] at this
    exact this
  | other step queued => exact Safe.step step queued safe

theorem Starts.safe (h : s.Starts) : ∀ w, Safe (s.worker w) (s.taken w) (s.own w) := by
  obtain ⟨⟨_, _, _, idle⟩, none⟩ := h
  intro w
  rw [worker, idle, (none w).1, (none w).2]
  refine ⟨fun _ _ mem => ?_, fun _ _ mem => ?_, ?_, fun ended => ?_⟩
  · cases mem
  · cases mem
  · split <;> simp
  · cases ended

theorem ReachableHeeding.safe (h : s.ReachableHeeding) :
    ∀ w, Safe (s.worker w) (s.taken w) (s.own w) :=
  @Transition.Reachable.invariant _ Starts (fun s t => Step s t ∧ Heeds s t)
    (fun s => ∀ w, Safe (s.worker w) (s.taken w) (s.own w)) (fun _ starts => starts.safe)
    (fun _ _ safe both => both.1.safe both.2 safe) s h

/-! ## After a loop is told to quit -/

/-- The call at the bottom of a worker's stack is the run of its loop. -/
def Based (frames : List Frame) : Prop := frames = [] ∨ frames.getLast? = some .loop

theorem Based.tail {frame : Frame} {rest : List Frame} (h : Based (frame :: rest)) :
    Based rest := by
  cases rest with
  | nil => exact Or.inl rfl
  | cons next rest => exact Or.inr (by simpa [Based] using h)

theorem Based.more {frame : Frame} {rest : List Frame} (h : Based (frame :: rest))
    (call : frame ≠ .loop) : rest ≠ [] := by
  rintro rfl
  exact call (by simpa [Based] using h)

theorem Based.above {frame : Frame} {rest : List Frame} (h : Based rest) (more : rest ≠ []) :
    Based (frame :: rest) := by
  cases rest with
  | nil => exact absurd rfl more
  | cons next rest => exact Or.inr (by simpa [Based] using h)

/-- A call that is not the run of the loop is above it, and so is one put in its place. -/
theorem Based.swap {frame other : Frame} {rest : List Frame} (h : Based (frame :: rest))
    (call : frame ≠ .loop) : Based (other :: rest) := h.tail.above (h.more call)

theorem based_step {crew crew' : Crew α} (step : Crew.Step crew crew')
    (based : ∀ w, Based (crew.workers w).frames) : ∀ w, Based (crew'.workers w).frames := by
  have update {w : Nat} {worker : Worker} (moved : Based worker.frames) (v : Nat) :
      Based (Function.update crew.workers w worker v).frames := by
    by_cases same : v = w
    · rw [same, Function.update_self]
      exact moved
    · rw [Function.update_of_ne same]
      exact based v
  have handed (workers : Nat → Worker) (item : WorkItem) (ws : List Nat) (v : Nat)
      (was : Based (workers v).frames) : Based (Crew.hand workers item ws v).frames := by
    rw [Crew.hand_eq]
    exact was
  have stack {w : Nat} {frames : List Frame} (top : (crew.workers w).frames = frames) :
      Based frames := by
    rw [← top]
    exact based w
  cases step with
  | submit options made => exact fun v => handed _ _ _ v (based v)
  | enqueue options made => exact fun v => handed _ _ _ v (based v)
  | cancel id => exact based
  | stop => exact fun v => handed _ _ _ v (based v)
  | elsewhereMakes queue other => exact based
  | elsewhereSettles id state other => exact based
  | perform w => exact fun v => handed _ _ _ v (based v)
  | next w front top awake => exact update ((stack top).above (List.cons_ne_nil _ _))
  | timer w top awake => exact update ((stack top).above (List.cons_ne_nil _ _))
  | nest w top nests => exact update ((stack top).above (List.cons_ne_nil _ _))
  | leave w top => exact update (stack top).tail
  | back w top => exact update (stack top).tail
  | @take w last frames top =>
    unfold Crew.take
    dsimp only
    split
    · exact update ((stack top).swap (by simp))
    · cases last with
      | false => exact update (stack top).tail
      | true => exact update ((stack top).swap (by simp))
  | finish w value top => exact update ((stack top).swap (by simp))
  | done w top => exact fun v => handed _ _ _ v (update ((stack top).swap (by simp)) v)
  | check w top =>
    refine update ?_
    split <;> exact (stack top).swap (by simp)
  | @requeue w frames top =>
    refine update ?_
    unfold Worker.perform
    split <;> exact (stack top).tail
  | quit w top => exact update (stack top).tail
  | ended w top told => exact update (Or.inl rfl)

theorem Reachable.based (h : s.Reachable) : ∀ w, Based (s.worker w).frames := by
  refine @Transition.Reachable.invariant _ Starts Step (fun s => ∀ w, Based (s.worker w).frames)
    (fun s starts w => ?_) (fun s t based step => ?_) s h
  · rw [worker, starts.1.2.2.2]
    dsimp only
    split
    · exact Or.inr rfl
    · exact Or.inl rfl
  · cases step with
    | post w top nests => exact based_step (.perform w) based
    | next w front top awake => exact based_step (.next w front top awake) based
    | ended w top told => exact based_step (.ended w top told) based
    | endsEarly w top idle untold =>
      intro v
      change Based (Function.update s.crew.workers w _ v).frames
      by_cases same : v = w
      · rw [same, Function.update_self]
        exact Or.inl rfl
      · rw [Function.update_of_ne same]
        exact based v
    | other step queued => exact based_step step based

/-- The tasks not yet taken, ready or set aside. -/
def left (b : Backlog) : Nat :=
  (b.tasks .low).length + (b.tasks .normal).length + (b.tasks .high).length + b.waiting.length

theorem left_makeReady (b : Backlog) (task : Entry) (priority : OperationPriority) :
    left (b.makeReady task priority).1 = left b + 1 := by
  unfold left
  simp only [Backlog.makeReady_tasks, Backlog.makeReady_waiting]
  cases priority <;> simp [Function.update] <;> omega

theorem left_take {b : Backlog} {priority : OperationPriority} {next : Entry} {rest : List Entry}
    (front : b.tasks priority = next :: rest) :
    left { b with tasks := Function.update b.tasks priority rest } < left b := by
  unfold left
  cases priority <;> simp [Function.update, front]

theorem left_countOff (b : Backlog) (order : Nat) : left (b.countOff order).1 ≤ left b := by
  rcases Run.countOff_cases b order with ⟨_, eq⟩ | ⟨found, mem, same, _, eq⟩ | ⟨_, _, _, _, eq⟩
  · rw [eq]
  · rw [eq, left_makeReady]
    have fewer : (b.eraseWaiting order).waiting.length < b.waiting.length :=
      List.length_filter_lt_length_iff_exists.mpr ⟨found, mem, by simp [same]⟩
    change (b.tasks .low).length + (b.tasks .normal).length + (b.tasks .high).length +
      (b.eraseWaiting order).waiting.length + 1 ≤ _
    unfold left
    omega
  · rw [eq]
    simp [left]

theorem left_countOffAll (orders : List Nat) (b : Backlog) :
    left (b.countOffAll orders).1 ≤ left b := by
  induction orders generalizing b with
  | nil => exact Nat.le_refl _
  | cons order rest ih => exact Nat.le_trans (ih _) (left_countOff b order)

theorem left_done (b : Backlog) (task : Entry) : left (b.done task).1 ≤ left b := by
  unfold Backlog.done
  dsimp only
  split
  · exact Nat.le_refl _
  · exact left_countOffAll _ _

theorem items_hand (workers : Nat → Worker) (item : WorkItem) (ws : List Nat) (v : Nat) :
    (workers v).items <+: (Crew.hand workers item ws v).items := by
  rw [Crew.hand_eq]
  exact List.prefix_append _ _

theorem items_update {workers : Nat → Worker} {w : Nat} {worker : Worker}
    (more : (workers w).items <+: worker.items) (v : Nat) :
    (workers v).items <+: (Function.update workers w worker v).items := by
  by_cases same : v = w
  · rw [same, Function.update_self]
    exact more
  · rw [Function.update_of_ne same]

/-- How far a call is from its end, once the lists are empty. -/
def stage : List Frame → Nat
  | .draining _ (some (_, false)) :: _ => 4
  | .draining _ (some (_, true)) :: _ => 3
  | .draining _ none :: _ => 2
  | .checking :: _ => 1
  | _ => 0

theorem stage_le (frames : List Frame) : stage frames ≤ 4 := by
  unfold stage
  split <;> omega

/-- How far a worker is from being back in its loop alone. -/
def effort (b : Backlog) (frames : List Frame) : Nat :=
  5 * (left b + frames.length) + stage frames

theorem effort_pop {b : Backlog} {frame : Frame} {rest : List Frame} :
    effort b rest < effort b (frame :: rest) := by
  have := stage_le rest
  unfold effort
  rw [List.length_cons]
  omega

theorem effort_swap {b b' : Backlog} {frame other : Frame} {rest : List Frame}
    (less : left b' ≤ left b) (nearer : stage (other :: rest) < stage (frame :: rest)) :
    effort b' (other :: rest) < effort b (frame :: rest) := by
  unfold effort
  rw [List.length_cons, List.length_cons]
  omega

section Unwinding

variable {crew : Crew α} {w : Nat} {frame : Frame} {rest : List Frame}

/-- The call on top of a worker told to quit can come nearer to its end, with no item taken. -/
def Nearer (crew : Crew α) (w : Nat) (frames : List Frame) : Prop :=
  ∃ crew', Crew.Step crew crew' ∧ (∀ v, (crew.workers v).items <+: (crew'.workers v).items) ∧
    (crew'.workers w).quit = true ∧ (crew'.workers w).frames ≠ [] ∧
    effort crew'.run.backlog (crew'.workers w).frames < effort crew.run.backlog frames

theorem nearer_of {run : Run α} {worker : Worker}
    (step : Crew.Step crew ⟨run, crew.count, Function.update crew.workers w worker⟩)
    (items : (crew.workers w).items <+: worker.items) (quit : worker.quit = true)
    (frames : worker.frames ≠ [])
    (less : effort run.backlog worker.frames < effort crew.run.backlog rest) :
    Nearer crew w rest := by
  refine ⟨_, step, items_update items, ?_⟩
  dsimp only
  rw [Function.update_self]
  exact ⟨quit, frames, less⟩

/-- A task fewer is left, or the call returns to its caller. -/
theorem nearer_take {last : Bool} (told : (crew.workers w).quit = true)
    (top : (crew.workers w).frames = .draining last none :: rest) (above : rest ≠ []) :
    Nearer crew w (.draining last none :: rest) := by
  have step := @Crew.Step.take _ crew w last rest top
  rcases crew.run.backlog.take_cases w with ⟨task, priority, rest', front, eq⟩ | ⟨_, eq⟩
  · have out : crew.take w last rest = ⟨crew.run.take w, crew.count,
        Function.update crew.workers w { crew.workers w with
          frames := .draining last (some (task, false)) :: rest }⟩ := by
      simp [Crew.take, eq]
    rw [out] at step
    refine nearer_of step List.prefix_rfl told (List.cons_ne_nil _ _) ?_
    have fewer := left_take front
    have backlog : (crew.run.take w).backlog = { crew.run.backlog with
        tasks := Function.update crew.run.backlog.tasks priority rest' } := by
      simp [Run.take, eq]
    rw [← backlog] at fewer
    simp only [effort, List.length_cons, stage]
    omega
  · have out : crew.take w last rest = ⟨crew.run.take w, crew.count,
        Function.update crew.workers w { crew.workers w with
          frames := if last then .checking :: rest else rest }⟩ := by
      simp [Crew.take, eq]
    have same : left (crew.run.take w).backlog = left crew.run.backlog := by
      simp [Run.take, eq, left]
    rw [out] at step
    cases last with
    | false =>
      refine nearer_of step List.prefix_rfl told above ?_
      refine Nat.lt_of_le_of_lt (Nat.le_of_eq ?_) effort_pop
      simp [effort, same]
    | true =>
      refine nearer_of step List.prefix_rfl told (List.cons_ne_nil _ _) ?_
      exact effort_swap (Nat.le_of_eq same) (by simp [stage])

theorem nearer_done {last : Bool} {task : Entry} (told : (crew.workers w).quit = true)
    (top : (crew.workers w).frames = .draining last (some (task, true)) :: rest) :
    Nearer crew w (.draining last (some (task, true)) :: rest) := by
  have workers : (crew.done w last task rest).workers w =
      { crew.workers w with
        items := (crew.workers w).items ++ List.replicate
          (if (crew.workers w).ended then 0
            else (crew.run.backlog.done task).2.count w) .sweep
        frames := .draining last none :: rest } := by
    change Crew.hand (Function.update crew.workers w _) .sweep _ w = _
    rw [Crew.hand_eq, Function.update_self]
  refine ⟨_, .done w top, fun v => ?_, ?_⟩
  · have popped : (crew.workers v).items <+: (Function.update crew.workers w
        { crew.workers w with frames := .draining last none :: rest } v).items := by
      refine items_update ?_ v
      exact List.prefix_rfl
    exact popped.trans (items_hand _ _ _ v)
  · rw [workers]
    refine ⟨told, List.cons_ne_nil _ _, ?_⟩
    exact effort_swap (left_done _ _) (by simp [stage])

theorem unwind_step (value : α) (told : (crew.workers w).quit = true)
    (top : (crew.workers w).frames = frame :: rest) (above : rest ≠ []) :
    Nearer crew w (frame :: rest) := by
  cases frame with
  | loop =>
    cases rest with
    | nil => exact absurd rfl above
    | cons frame frames => exact nearer_of (.leave w top) List.prefix_rfl told above effort_pop
  | user => exact nearer_of (.back w top) List.prefix_rfl told above effort_pop
  | checking =>
    refine nearer_of (.check w top) List.prefix_rfl told (List.cons_ne_nil _ _) ?_
    split <;> exact effort_swap (Nat.le_refl _) (by simp [stage])
  | requeueing =>
    refine nearer_of (.requeue w top) ?_ ?_ ?_ ?_
    all_goals unfold Worker.perform; split
    · exact List.prefix_rfl
    · exact List.prefix_append _ _
    · exact told
    · exact told
    · exact above
    · exact above
    · exact effort_pop
    · exact effort_pop
  | quitting => exact nearer_of (.quit w top) List.prefix_rfl rfl above effort_pop
  | draining last next =>
    cases next with
    | none => exact nearer_take told top above
    | some next =>
      obtain ⟨task, returned⟩ := next
      cases returned with
      | false =>
        refine nearer_of (.finish w value top) List.prefix_rfl told (List.cons_ne_nil _ _) ?_
        exact effort_swap (Nat.le_of_eq (by rw [Run.finish_backlog])) (by simp [stage])
      | true => exact nearer_done told top

end Unwinding

/-- A worker told to quit can end with no item taken. -/
theorem unwinds (value : α) {w : Nat} (n : Nat) (s : Posts α)
    (bound : effort s.crew.run.backlog (s.worker w).frames < n)
    (told : (s.worker w).quit = true) (used : (s.worker w).frames ≠ [])
    (based : ∀ v, Based (s.worker v).frames) :
    ∃ u, Relation.ReflTransGen Step s u ∧ (u.worker w).ended = true ∧ u.taken = s.taken ∧
      u.own = s.own := by
  induction n generalizing s with
  | zero => omega
  | succ n ih =>
    obtain ⟨frame, rest, top⟩ := List.exists_cons_of_ne_nil used
    by_cases above : rest = []
    · subst above
      have base : frame = .loop := by
        by_contra call
        have stack := based w
        rw [top] at stack
        exact stack.more call rfl
      subst base
      refine ⟨_, .single (.ended w top told), ?_, rfl, rfl⟩
      change (Function.update s.crew.workers w _ w).ended = true
      rw [Function.update_self]
    · obtain ⟨crew, step, items, told', used', nearer⟩ := unwind_step value told top above
      obtain ⟨u, run, rest⟩ := ih { s with crew := crew } (by
          rw [← top] at nearer
          change effort crew.run.backlog (crew.workers w).frames < n
          omega) told' used' (based_step step based)
      exact ⟨u, .head (.other step items) run, rest⟩

/-- What a call queues on its own worker's loop once that is told to quit may be left there. -/
theorem Reachable.lost (value : α) (h : s.Reachable) (step : Step s t) (ignores : ¬ Heeds s t) :
    ∃ w u, Relation.ReflTransGen Step t u ∧ (u.worker w).ended = true ∧
      ∃ place ∈ u.own w, u.taken w ≤ place := by
  simp only [Heeds, not_forall] at ignores
  obtain ⟨w, posted, quit⟩ := ignores
  have told : (s.worker w).quit = true := by simpa using quit
  cases step with
  | next v front top awake => exact absurd rfl posted
  | ended v top told => exact absurd rfl posted
  | endsEarly v top idle untold => exact absurd rfl posted
  | other step queued => exact absurd rfl posted
  | @post v frame frames top nests =>
    have same : v = w := by
      by_contra ne
      dsimp only at posted
      rw [Function.update_of_ne (Ne.symm ne)] at posted
      exact posted rfl
    subst same
    let t : Posts α := { s with
      crew := { s.crew with workers := Crew.hand s.crew.workers .user [v] }
      own := Function.update s.own v (s.place v :: s.own v) }
    have worker : (t.worker v).quit = (s.worker v).quit ∧
        (t.worker v).frames = (s.worker v).frames := by
      change (Crew.hand s.crew.workers .user [v] v).quit = _ ∧
        (Crew.hand s.crew.workers .user [v] v).frames = _
      rw [Crew.hand_eq]
      exact ⟨rfl, rfl⟩
    have based : ∀ v, Based (t.worker v).frames :=
      Reachable.based (Transition.Reachable.next h (.post v top nests))
    obtain ⟨u, run, ended, taken, own⟩ := unwinds value _ t (Nat.lt_succ_self _)
      (worker.1.trans told) (by rw [worker.2, top]; exact List.cons_ne_nil _ _) based
    refine ⟨v, u, run, ended, s.place v, ?_, ?_⟩
    · rw [own]
      change s.place v ∈ Function.update s.own v _ v
      rw [Function.update_self]
      exact List.mem_cons_self
    · rw [taken]
      exact Nat.le_add_right _ _

/-- Along the runs in which no call queues an item on its own worker's loop once that is told
to quit, each item so queued has been taken, and its call has returned, when the loop has
ended; in any other run, the first item so queued may be left. -/
theorem own_items_run :
    (∀ s : Posts α, s.ReachableHeeding → ∀ w, (s.worker w).ended = true →
      (s.worker w).frames = [] ∧ ∀ place ∈ s.own w, place < s.taken w) ∧
    ∀ s t : Posts α, α → s.Reachable → Step s t → ¬ Heeds s t →
      ∃ w u, Relation.ReflTransGen Step t u ∧ (u.worker w).ended = true ∧
        ∃ place ∈ u.own w, u.taken w ≤ place :=
  ⟨fun _ h w ended => (h.safe w).gone ended,
    fun _ _ value h step ignores => h.lost value step ignores⟩

/-! ## The crew's steps -/

/-- Every step of a crew is one of the crew that remembers. -/
theorem follows {crew : Crew α} (step : Crew.Step s.crew crew) :
    ∃ t, Step s t ∧ t.crew = crew := by
  have grows (queued : ∀ v, (s.worker v).items <+: (crew.workers v).items) :
      ∃ t, Step s t ∧ t.crew = crew := ⟨_, .other step queued, rfl⟩
  have update {w : Nat} {worker : Worker} (eq : crew.workers = Function.update s.crew.workers w worker)
      (items : (s.worker w).items <+: worker.items) : ∃ t, Step s t ∧ t.crew = crew :=
    grows (fun v => by rw [eq]; exact items_update items v)
  cases step with
  | submit options made => exact grows (fun v => items_hand _ _ _ v)
  | enqueue options made => exact grows (fun v => items_hand _ _ _ v)
  | cancel id => exact grows (fun _ => List.prefix_rfl)
  | stop => exact grows (fun v => items_hand _ _ _ v)
  | elsewhereMakes queue other => exact grows (fun _ => List.prefix_rfl)
  | elsewhereSettles id state other => exact grows (fun _ => List.prefix_rfl)
  | perform w => exact grows (fun v => items_hand _ _ _ v)
  | next w front top awake => exact ⟨_, .next w front top awake, rfl⟩
  | timer w top awake => exact update rfl List.prefix_rfl
  | nest w top nests => exact update rfl List.prefix_rfl
  | leave w top => exact update rfl List.prefix_rfl
  | back w top => exact update rfl List.prefix_rfl
  | @take w last frames top =>
    rcases s.crew.run.backlog.take_cases w with ⟨task, priority, rest, front, eq⟩ | ⟨_, eq⟩
    · exact @update w { s.worker w with frames := .draining last (some (task, false)) :: frames }
        (by simp [Crew.take, eq]) List.prefix_rfl
    · exact @update w { s.worker w with frames := if last then .checking :: frames else frames }
        (by simp [Crew.take, eq]) List.prefix_rfl
  | finish w value top => exact update rfl List.prefix_rfl
  | @done w last task frames top =>
    have popped (v : Nat) : (s.worker v).items <+: (Function.update s.crew.workers w
        { s.worker w with frames := .draining last none :: frames } v).items := by
      refine items_update ?_ v
      exact List.prefix_rfl
    exact grows (fun v => (popped v).trans (items_hand _ _ _ v))
  | check w top => exact update rfl List.prefix_rfl
  | requeue w top =>
    refine update rfl ?_
    unfold Worker.perform
    split
    · exact List.prefix_rfl
    · exact List.prefix_append _ _
  | quit w top => exact update rfl List.prefix_rfl
  | ended w top told => exact ⟨_, .ended w top told, rfl⟩

/-! ## A task that runs the finish item -/

theorem Step.onto {crew : Crew α} {w : Nat} {worker : Worker}
    (step : Crew.Step s.crew crew) (eq : crew.workers = Function.update s.crew.workers w worker)
    (items : (s.worker w).items <+: worker.items) : Step s { s with crew := crew } :=
  .other step (fun v => by rw [eq]; exact items_update items v)

/-- A queue of one worker that has taken a task. -/
def working : Posts Nat :=
  ⟨((Crew.lone.submit {}).set 0 ⟨[], false, [.draining false none, .loop], false⟩).take
    0 false [.loop], Function.update (fun _ => 0) 0 1, fun _ => []⟩

theorem working_reachable : working.ReachableHeeding := by
  have start : ReachableHeeding ⟨(Crew.lone : Crew Nat), fun _ => 0, fun _ => []⟩ :=
    Transition.Reachable.start ⟨Crew.lone_starts, fun _ => ⟨rfl, rfl⟩⟩
  have submitted := Transition.Reachable.next start
    ⟨.other (.submit {} (by simp)) (fun v => items_hand _ _ _ v), fun _ posted => absurd rfl posted⟩
  have swept := Transition.Reachable.next submitted
    ⟨@Step.next _ _ 0 .sweep [] [] rfl rfl (fun _ => rfl), fun _ posted => absurd rfl posted⟩
  exact Transition.Reachable.next swept
    ⟨Step.onto (@Crew.Step.take _ _ 0 false [.loop] rfl) rfl List.prefix_rfl,
      fun _ posted => absurd rfl posted⟩

/-- A callback queues an item on its worker's loop, and the loop hands it out. -/
theorem posted_handed_out : ∃ s : Posts Nat, s.ReachableHeeding ∧ s.crew.run = Crew.lone.run ∧
    s.worker 0 = ⟨[], false, [.loop], false⟩ ∧ s.own 0 = [0] ∧ s.taken 0 = 1 := by
  have start : ReachableHeeding ⟨(Crew.lone : Crew Nat), fun _ => 0, fun _ => []⟩ :=
    Transition.Reachable.start ⟨Crew.lone_starts, fun _ => ⟨rfl, rfl⟩⟩
  have called := Transition.Reachable.next start
    ⟨Step.onto (@Crew.Step.timer _ _ 0 [] rfl (fun _ => rfl)) rfl List.prefix_rfl,
      fun _ posted => absurd rfl posted⟩
  have posted := Transition.Reachable.next called
    ⟨@Step.post _ _ 0 .user [.loop] rfl rfl, fun w posted => by
      by_cases same : w = 0
      · subst same
        rfl
      · exact absurd (Function.update_of_ne same _ _) posted⟩
  have returned := Transition.Reachable.next posted
    ⟨Step.onto (@Crew.Step.back _ _ 0 [.loop] rfl) rfl List.prefix_rfl,
      fun _ posted => absurd rfl posted⟩
  have taken := Transition.Reachable.next returned
    ⟨@Step.next _ _ 0 .user [] [] rfl rfl (fun _ => rfl), fun _ posted => absurd rfl posted⟩
  have ran := Transition.Reachable.next taken
    ⟨Step.onto (@Crew.Step.back _ _ 0 [.loop] rfl) rfl List.prefix_rfl,
      fun _ posted => absurd rfl posted⟩
  exact ⟨_, ran, rfl, rfl, rfl, rfl⟩

theorem idles {crew : Crew α} {w : Nat} (none : (crew.run.backlog.take w).1 = none)
    (frames : List Frame) : (crew.take w true frames).workers =
      Function.update crew.workers w { crew.workers w with frames := .checking :: frames } := by
  simp [Crew.take, none]

/-- With the queue stopped, the finish item finds nothing left to take. -/
theorem posted_finishing : ∃ s : Posts Nat, s.ReachableHeeding ∧
    s.worker 0 = ⟨[], false, [.checking, .loop], false⟩ ∧ s.own 0 = [0] := by
  obtain ⟨s, reachable, run, worker, own, taken⟩ := posted_handed_out
  have stopped := Transition.Reachable.next reachable
    ⟨.other .stop (fun v => items_hand _ _ _ v), fun _ posted => absurd rfl posted⟩
  have told : (s.crew.stop.workers 0) = ⟨[.finish], false, [.loop], false⟩ := by
    change Crew.hand s.crew.workers .finish s.crew.run.shared.stop.2 0 = _
    rw [Crew.hand_eq, run, show s.crew.workers 0 = _ from worker]
    rfl
  have finishing := Transition.Reachable.next stopped
    ⟨@Step.next _ _ 0 .finish [] [] (congrArg Worker.items told) (congrArg Worker.frames told)
      (fun _ => congrArg Worker.quit told), fun _ posted => absurd rfl posted⟩
  have idle : (s.crew.run.stop.backlog.take 0).1 = none := by
    rw [run]
    rfl
  have emptied := Transition.Reachable.next finishing
    ⟨Step.onto (@Crew.Step.take _ _ 0 true [.loop] rfl) (idles idle _) List.prefix_rfl,
      fun _ posted => absurd rfl posted⟩
  refine ⟨_, emptied, ?_, own⟩
  change (Crew.take _ 0 true [.loop]).workers 0 = _
  rw [idles idle, Function.update_self]
  change (⟨[], (s.crew.stop.workers 0).quit, _, (s.crew.stop.workers 0).ended⟩ : Worker) = _
  rw [told]

/-- The item a callback queued has been handed out when the worker, told to quit, ends. -/
theorem own_items_run_handed_out : ∃ s : Posts Nat, (s.worker 0).ended = true ∧ s.own 0 = [0] ∧
    ∀ place ∈ s.own 0, place < s.taken 0 := by
  obtain ⟨s, reachable, worker, own⟩ := posted_finishing
  have checked := Transition.Reachable.next reachable
    ⟨Step.onto (@Crew.Step.check _ _ 0 [.loop] (congrArg Worker.frames worker)) rfl
      List.prefix_rfl, fun _ posted => absurd rfl posted⟩
  have told := Transition.Reachable.next checked
    ⟨Step.onto (@Crew.Step.quit _ _ 0 [.loop] (by
      change (if 0 < (s.worker 0).items.length then Frame.requeueing else .quitting) :: [.loop] = _
      rw [worker]
      rfl)) rfl List.prefix_rfl, fun _ posted => absurd rfl posted⟩
  have ended := Transition.Reachable.next told
    ⟨.ended 0 rfl rfl, fun _ posted => absurd rfl posted⟩
  have settles {t : Posts Nat} (h : t.ReachableHeeding) (gone : (t.worker 0).ended = true)
      (placed : t.own 0 = [0]) : ∃ s : Posts Nat, (s.worker 0).ended = true ∧ s.own 0 = [0] ∧
      ∀ place ∈ s.own 0, place < s.taken 0 :=
    ⟨t, gone, placed, (own_items_run.1 t h 0 gone).2⟩
  exact settles ended rfl own

/-- The task runs its loop, where the finish item finds nothing queued and tells it to quit,
and then queues an item, which is left when the loop has ended. -/
theorem posted_item_left : ∃ s : Posts Nat, s.Reachable ∧ ∃ w, (s.worker w).ended = true ∧
    ∃ place ∈ s.own w, s.taken w ≤ place := by
  have inside : working.Reachable :=
    Transition.Reachable.mono (fun _ _ both => both.1) working_reachable
  have stopped := Transition.Reachable.next inside (.other .stop (fun v => items_hand _ _ _ v))
  have nested := Transition.Reachable.next stopped (Step.onto (@Crew.Step.nest _ _ 0
    (.draining false (some (⟨0, none⟩, false))) [.loop] rfl rfl) rfl List.prefix_rfl)
  have finishing := Transition.Reachable.next nested (@Step.next _ _ 0 .finish []
    [.draining false (some (⟨0, none⟩, false)), .loop] rfl rfl (fun none => nomatch none))
  have emptied := Transition.Reachable.next finishing (Step.onto (@Crew.Step.take _ _ 0 true
    [.loop, .draining false (some (⟨0, none⟩, false)), .loop] rfl) rfl List.prefix_rfl)
  have checked := Transition.Reachable.next emptied (Step.onto (@Crew.Step.check _ _ 0
    [.loop, .draining false (some (⟨0, none⟩, false)), .loop] rfl) rfl List.prefix_rfl)
  have told := Transition.Reachable.next checked (Step.onto (@Crew.Step.quit _ _ 0
    [.loop, .draining false (some (⟨0, none⟩, false)), .loop] rfl) rfl List.prefix_rfl)
  have left := Transition.Reachable.next told (Step.onto (@Crew.Step.leave _ _ 0
    (.draining false (some (⟨0, none⟩, false))) [.loop] rfl) rfl List.prefix_rfl)
  have posted := Transition.Reachable.next left (@Step.post _ _ 0
    (.draining false (some (⟨0, none⟩, false))) [.loop] rfl rfl)
  obtain ⟨w, u, run, ended, place, own, lost⟩ := Reachable.lost 0 left (@Step.post _ _ 0
    (.draining false (some (⟨0, none⟩, false))) [.loop] rfl rfl)
    (fun heeds => nomatch heeds 0 (List.cons_ne_self _ _))
  exact ⟨u, posted.later run, w, ended, place, own, lost⟩

end Posts

end Dross
