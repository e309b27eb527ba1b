import Dross.Thread.WorkerProgress

/-!
# An operation queue on its run loops

The queue's tasks, and the run loops its workers are in, each with its lock, its clock and
its timers. Every step shows as one of the crew's or as none, so what is known of every run
of the crew is known of the loops.
-/

namespace Dross

/-- A queue and its workers, those that are not its own idle. -/
structure Fleet (α : Type) where
  run : Run α
  count : Nat
  hosts : Nat → Host

namespace Host

def idle : Host := ⟨Runloop.initial, [], []⟩

/-- A thread about to run its loop. -/
def started : Host :=
  ⟨{ Runloop.initial with calls := [Runloop.enter .run noDeadline] }, [], [.loop]⟩

end Host

namespace Fleet

variable {α : Type}

/-- What the queue's tasks see of their workers. -/
def crew (s : Fleet α) : Crew α := ⟨s.run, s.count, fun w => (s.hosts w).worker⟩

def set (s : Fleet α) (w : Nat) (host : Host) : Fleet α :=
  { s with hosts := Function.update s.hosts w host }

/-- The thread of a worker with other calls. -/
def reframe (s : Fleet α) (w : Nat) (frames : List Frame) : Fleet α :=
  s.set w { s.hosts w with frames := frames }

/-- Each worker named is handed an item, in turn. -/
def hand (hosts : Nat → Host) (item : WorkItem) : List Nat → Nat → Host
  | [] => hosts
  | w :: rest => hand (Function.update hosts w ((hosts w).perform item)) item rest

/-- Whether nobody holds the locks of these workers' loops. -/
def Free (s : Fleet α) (ws : List Nat) : Prop :=
  ∀ w ∈ ws, (s.hosts w).runloop.holder = none

def submit (s : Fleet α) (options : OperationOptions) : Fleet α :=
  { s with
    run := s.run.submit options
    hosts := hand s.hosts .sweep (s.run.shared.submit options).2.2 }

def enqueue (s : Fleet α) (options : OperationOptions) : Fleet α :=
  { s with
    run := s.run.enqueue options
    hosts := hand s.hosts .sweep (s.run.shared.enqueue options).2.2 }

def stop (s : Fleet α) : Fleet α :=
  { s with
    run := s.run.stop
    hosts := hand s.hosts .finish s.run.shared.stop.2 }

/-- `take` in `run_until_empty`, which returns once there is nothing to take. -/
def take (s : Fleet α) (w : Nat) (last : Bool) (frames : List Frame) : Fleet α :=
  match (s.run.backlog.take w).1 with
  | some task =>
    { s with run := s.run.take w }.reframe w (.draining last (some (task, false)) :: frames)
  | none =>
    { s with run := s.run.take w }.reframe w (if last then .checking :: frames else frames)

def finish (s : Fleet α) (w : Nat) (last : Bool) (task : Entry) (value : α)
    (frames : List Frame) : Fleet α :=
  { s with run := s.run.finish ⟨w, task, false⟩ value }.reframe w
    (.draining last (some (task, true)) :: frames)

def done (s : Fleet α) (w : Nat) (last : Bool) (task : Entry) (frames : List Frame) : Fleet α :=
  let t := s.reframe w (.draining last none :: frames)
  { t with
    run := s.run.done ⟨w, task, true⟩
    hosts := hand t.hosts .sweep (s.run.backlog.done task).2 }

/-- One step of some thread. The constructors up to `perform` are any thread's, and so are
some of those of a loop; the others are those of worker `w`, in what its loop runs. -/
inductive Step (source : Nat → TimeSource) (s : Fleet α) : Fleet α → Prop
  | submit (options : OperationOptions)
      (made : ∀ id ∈ options.after, s.run.operations.stateOf id ≠ none)
      (free : s.Free (s.run.shared.submit options).2.2) : Step source s (s.submit options)
  | enqueue (options : OperationOptions)
      (made : ∀ id ∈ options.after, s.run.operations.stateOf id ≠ none)
      (free : s.Free (s.run.shared.enqueue options).2.2) : Step source s (s.enqueue options)
  | cancel (id : OperationId) : Step source s { s with run := s.run.cancel id }
  | stop (free : s.Free s.run.shared.stop.2) : Step source s s.stop
  | elsewhereMakes (queue : Nat) (other : queue ≠ s.run.backlog.number) :
      Step source s { s with run := s.run.withOperations (s.run.operations.make queue).2 }
  | elsewhereSettles (id : OperationId) (state : ResultState α)
      (other : s.run.operations.queueOf id ≠ s.run.backlog.number) :
      Step source s { s with run := s.run.withOperations (s.run.operations.settle id state) }
  | perform (w : Nat) (free : s.Free [w]) :
      Step source s { s with hosts := hand s.hosts .user [w] }
  | moves (w : Nat) {host : Host} (moves : (s.hosts w).Moves (source w) host) :
      Step source s (s.set w host)
  | back (w : Nat) {frames : List Frame} (top : (s.hosts w).frames = .user :: frames) :
      Step source s (s.reframe w frames)
  | take (w : Nat) {last : Bool} {frames : List Frame}
      (top : (s.hosts w).frames = .draining last none :: frames) :
      Step source s (s.take w last frames)
  | finish (w : Nat) {last : Bool} {task : Entry} {frames : List Frame} (value : α)
      (top : (s.hosts w).frames = .draining last (some (task, false)) :: frames) :
      Step source s (s.finish w last task value frames)
  | done (w : Nat) {last : Bool} {task : Entry} {frames : List Frame}
      (top : (s.hosts w).frames = .draining last (some (task, true)) :: frames)
      (free : s.Free (s.run.backlog.done task).2) : Step source s (s.done w last task frames)
  | check (w : Nat) {frames : List Frame} (top : (s.hosts w).frames = .checking :: frames)
      (free : s.Free [w]) :
      Step source s (s.reframe w
        ((if 0 < (s.hosts w).runloop.loop.pending.length then .requeueing else .quitting) ::
          frames))
  | requeue (w : Nat) {frames : List Frame} (top : (s.hosts w).frames = .requeueing :: frames)
      (free : s.Free [w]) :
      Step source s (s.set w ({ s.hosts w with frames := frames }.perform .finish))
  | quit (w : Nat) {frames : List Frame} (top : (s.hosts w).frames = .quitting :: frames)
      (free : s.Free [w]) :
      Step source s (s.set w { s.hosts w with
        runloop := { (s.hosts w).runloop with loop := (s.hosts w).runloop.loop.requestQuit }
        frames := frames })

def Starts (s : Fleet α) : Prop :=
  s.run.Starts ∧ 0 < s.count ∧ s.run.backlog.workers = s.count ∧
    ∀ w, s.hosts w = if w < s.count then Host.started else Host.idle

def Reachable (source : Nat → TimeSource) : Fleet α → Prop :=
  Transition.Reachable Starts (Step source)

/-- Whether the invariant of a worker holds of each. -/
def Sound (source : Nat → TimeSource) (s : Fleet α) : Prop :=
  ∀ w, (s.hosts w).Sound (source w)

variable {source : Nat → TimeSource} {s t : Fleet α}

theorem set_own (s : Fleet α) (w : Nat) (host : Host) : (s.set w host).hosts w = host := by
  change Function.update s.hosts w host w = host
  rw [Function.update_self]

theorem set_set (s : Fleet α) (w : Nat) (host host' : Host) :
    (s.set w host).set w host' = s.set w host' := by
  unfold Fleet.set
  rw [Function.update_idem]

theorem crew_set (w : Nat) (host : Host) : (s.set w host).crew = s.crew.set w host.worker := by
  unfold crew set Crew.set
  congr 1
  funext v
  exact Function.apply_update (fun _ => Host.worker) s.hosts w host v

theorem Sound.set {w : Nat} {host : Host} (sound : s.Sound source)
    (own : host.Sound (source w)) : (s.set w host).Sound source := by
  intro v
  change (Function.update s.hosts w host v).Sound (source v)
  by_cases same : v = w
  · subst same
    rw [Function.update_self]
    exact own
  · rw [Function.update_of_ne same]
    exact sound v

theorem hand_seen {item : WorkItem} {ws : List Nat} {hosts : Nat → Host}
    (sound : ∀ w, (hosts w).Sound (source w))
    (free : ∀ w ∈ ws, (hosts w).runloop.holder = none) :
    (∀ w, (hand hosts item ws w).Sound (source w)) ∧
      (fun w => (hand hosts item ws w).worker) =
        Crew.hand (fun w => (hosts w).worker) item ws := by
  induction ws generalizing hosts with
  | nil => exact ⟨sound, rfl⟩
  | cons first rest ih =>
    obtain ⟨own, seen⟩ := (sound first).perform (free first List.mem_cons_self) item
    have each (w : Nat) : (Function.update hosts first ((hosts first).perform item) w).Sound
        (source w) ∧ (w ∈ rest → (Function.update hosts first ((hosts first).perform item)
          w).runloop.holder = none) := by
      by_cases same : w = first
      · subst same
        rw [Function.update_self]
        exact ⟨own, fun _ => free w List.mem_cons_self⟩
      · rw [Function.update_of_ne same]
        exact ⟨sound w, fun mem => free w (List.mem_cons_of_mem _ mem)⟩
    obtain ⟨sound', seen'⟩ := ih (fun w => (each w).1) fun w mem => (each w).2 mem
    refine ⟨sound', seen'.trans ?_⟩
    rw [Crew.hand, ← seen]
    congr 1
    funext v
    exact Function.apply_update (fun _ => Host.worker) hosts first _ v

/-- Items are handed out, and the queue changes with them. -/
theorem Sound.handed {item : WorkItem} {ws : List Nat} (sound : s.Sound source) (run : Run α)
    (free : s.Free ws) : ({ s with run := run, hosts := hand s.hosts item ws } : Fleet α).Sound source ∧
      ({ s with run := run, hosts := hand s.hosts item ws } : Fleet α).crew =
        { s.crew with run := run, workers := Crew.hand s.crew.workers item ws } := by
  obtain ⟨handed, workers⟩ := @hand_seen source item ws s.hosts sound free
  refine ⟨handed, ?_⟩
  unfold crew
  rw [← workers]

theorem started_reachable (source : TimeSource) :
    Host.started.runloop.NestedReachable source ∧ Host.started.runloop.ReachableClear source := by
  have entered : Runloop.Step source Runloop.initial Host.started.runloop :=
    .enter .run (by decide)
  refine ⟨Transition.Reachable.next (Transition.Reachable.start rfl) ⟨entered, ?_, ?_⟩,
    Transition.Reachable.next (Transition.Reachable.start rfl)
      ⟨Runloop.clear_free rfl, entered⟩⟩
  · rintro k _ j call _ ⟨⟩
  · rintro _ call ⟨⟩

theorem started_sound (source : TimeSource) : Host.started.Sound source where
  reachable := (started_reachable source).1
  clear := (started_reachable source).2
  length := rfl
  numbered := nofun
  unthrown := fun call mem => by
    rw [List.mem_singleton.mp mem]
    exact nofun
  first := fun call at' => by
    cases at'
    rfl
  idle := nofun
  loops := fun _ _ => ⟨rfl, [], rfl⟩
  outlasts := fun call at' past => by
    cases at'
    cases past
  shut := nofun

theorem idle_sound (source : TimeSource) : Host.idle.Sound source where
  reachable := Transition.Reachable.start rfl
  clear := Transition.Reachable.start rfl
  length := rfl
  numbered := nofun
  unthrown := fun _ mem => absurd mem List.not_mem_nil
  first := fun _ at' => by cases at'
  idle := fun _ => rfl
  loops := fun made => absurd rfl made
  outlasts := fun _ at' => by cases at'
  shut := nofun

theorem Starts.sound (starts : s.Starts) : s.Sound source := by
  intro w
  rw [starts.2.2.2 w]
  split
  · exact started_sound (source w)
  · exact idle_sound (source w)

theorem Starts.crew (starts : s.Starts) : s.crew.Starts := by
  refine ⟨starts.1, starts.2.1, starts.2.2.1, fun w => ?_⟩
  change (s.hosts w).worker = ⟨[], false, if w < s.count then [.loop] else [], false⟩
  rw [starts.2.2.2 w]
  split <;> rfl

/-- The thread of a worker goes on in what its loop runs. -/
theorem Sound.reframe {w : Nat} {frame : Frame} {new rest : List Frame} (sound : s.Sound source)
    (top : (s.hosts w).frames = frame :: rest) (work : frame ≠ .loop) (works : .loop ∉ new) :
    (s.reframe w (new ++ rest)).Sound source ∧ (s.reframe w (new ++ rest)).crew =
      s.crew.set w { s.crew.workers w with frames := new ++ rest } := by
  obtain ⟨own, seen⟩ := (sound w).reframe top work works
  exact ⟨sound.set own, (crew_set w _).trans (by rw [seen]; rfl)⟩

theorem worker_frames {w : Nat} {frame : Frame} {frames : List Frame} (sound : s.Sound source)
    (top : (s.hosts w).frames = frame :: frames) : (s.crew.workers w).frames = frame :: frames := by
  change (s.hosts w).worker.frames = _
  rw [Host.worker_open ((sound w).going (by rw [top]; exact nofun))]
  exact top

theorem Sound.take {w : Nat} {last : Bool} {frames : List Frame} (sound : s.Sound source)
    (top : (s.hosts w).frames = .draining last none :: frames) :
    (s.take w last frames).Sound source ∧
      (s.take w last frames).crew = s.crew.take w last frames := by
  have running : ({ s with run := s.run.take w } : Fleet α).Sound source := sound
  unfold Fleet.take Crew.take
  change _ ∧ _ = (match (s.run.backlog.take w).1 with | some task => _ | none => _)
  split
  · exact @Sound.reframe α source { s with run := s.run.take w } w _
      [.draining last (some (_, false))] frames running top nofun (by simp)
  · cases last with
    | true =>
      exact @Sound.reframe α source { s with run := s.run.take w } w _ [.checking] frames running top
        nofun (by simp)
    | false =>
      exact @Sound.reframe α source { s with run := s.run.take w } w _ [] frames running top
        nofun (by simp)

theorem Sound.done {w : Nat} {last : Bool} {task : Entry} {frames : List Frame}
    (sound : s.Sound source)
    (top : (s.hosts w).frames = .draining last (some (task, true)) :: frames)
    (free : s.Free (s.run.backlog.done task).2) : (s.done w last task frames).Sound source ∧
      (s.done w last task frames).crew = s.crew.done w last task frames := by
  obtain ⟨back, seen⟩ := @Sound.reframe α source s w _ [.draining last none] frames sound top nofun
    (by simp)
  have holder (v : Nat) : ((s.reframe w (.draining last none :: frames)).hosts v).runloop =
      (s.hosts v).runloop := by
    change (Function.update s.hosts w _ v).runloop = _
    by_cases same : v = w
    · subst same
      rw [Function.update_self]
    · rw [Function.update_of_ne same]
  obtain ⟨handed, workers⟩ := @hand_seen source .sweep (s.run.backlog.done task).2 _ back
    fun v mem => by rw [List.singleton_append, holder v]; exact free v mem
  refine ⟨handed, ?_⟩
  have each : (fun v => ((s.reframe w (.draining last none :: frames)).hosts v).worker) =
      Function.update s.crew.workers w
        { s.crew.workers w with frames := .draining last none :: frames } :=
    congrArg Crew.workers seen
  unfold Crew.done
  change (⟨_, _, _⟩ : Crew α) = ⟨_, _, _⟩
  congr 1
  exact workers.trans (by rw [List.singleton_append, each]; rfl)

/-- Every step keeps the invariant, and shows as one of the crew's or as none. -/
theorem Sound.step (sound : s.Sound source) (step : Step source s t) :
    t.Sound source ∧ (t.crew = s.crew ∨ Crew.Step s.crew t.crew) := by
  cases step with
  | submit options made free =>
    obtain ⟨kept, seen⟩ := sound.handed (s.run.submit options) free
    exact ⟨kept, Or.inr (seen ▸ .submit options made)⟩
  | enqueue options made free =>
    obtain ⟨kept, seen⟩ := sound.handed (s.run.enqueue options) free
    exact ⟨kept, Or.inr (seen ▸ .enqueue options made)⟩
  | cancel id => exact ⟨sound, Or.inr (.cancel id)⟩
  | stop free =>
    obtain ⟨kept, seen⟩ := sound.handed s.run.stop free
    exact ⟨kept, Or.inr (seen ▸ .stop)⟩
  | elsewhereMakes queue other => exact ⟨sound, Or.inr (.elsewhereMakes queue other)⟩
  | elsewhereSettles id state other => exact ⟨sound, Or.inr (.elsewhereSettles id state other)⟩
  | perform w free =>
    obtain ⟨kept, seen⟩ := sound.handed s.run free
    exact ⟨kept, Or.inr (seen ▸ .perform w)⟩
  | moves w moves =>
    obtain ⟨own, same | goes⟩ := (sound w).moves moves
    · refine ⟨sound.set own, Or.inl ?_⟩
      rw [crew_set, same]
      unfold Crew.set
      change (⟨_, _, Function.update s.crew.workers w (s.crew.workers w)⟩ : Crew α) = _
      rw [Function.update_eq_self]
    · refine ⟨sound.set own, Or.inr ?_⟩
      rw [crew_set]
      exact Worker.Goes.step goes
  | back w top =>
    obtain ⟨kept, seen⟩ := @Sound.reframe α source s w _ [] _ sound top nofun nofun
    exact ⟨kept, Or.inr (seen ▸ .back w (worker_frames sound top))⟩
  | take w top =>
    obtain ⟨kept, seen⟩ := sound.take top
    exact ⟨kept, Or.inr (seen ▸ .take w (worker_frames sound top))⟩
  | @finish w last task frames value top =>
    obtain ⟨kept, seen⟩ := @Sound.reframe α source
      { s with run := s.run.finish ⟨w, task, false⟩ value } w _
      [.draining last (some (task, true))] frames sound top nofun (by simp)
    exact ⟨kept, Or.inr (seen ▸ .finish w value (worker_frames sound top))⟩
  | done w top free =>
    obtain ⟨kept, seen⟩ := sound.done top free
    exact ⟨kept, Or.inr (seen ▸ .done w (worker_frames sound top))⟩
  | @check w frames top free =>
    obtain ⟨kept, seen⟩ := @Sound.reframe α source s w _
      [if 0 < (s.hosts w).runloop.loop.pending.length then .requeueing else .quitting] frames sound
      top nofun (by split <;> simp)
    have going := (sound w).going (by rw [top]; exact nofun)
    have length : (s.crew.workers w).items.length = (s.hosts w).runloop.loop.pending.length := by
      change (s.hosts w).worker.items.length = _
      rw [Host.worker_open going]
      exact List.length_map _
    refine ⟨kept, Or.inr ?_⟩
    rw [List.singleton_append] at seen
    rw [seen, ← length]
    exact .check w (worker_frames sound top)
  | @requeue w frames top free =>
    obtain ⟨kept, seen⟩ := @Host.Sound.reframe (source w) (s.hosts w) _ [] frames (sound w) top nofun
      List.not_mem_nil
    obtain ⟨queued, shown⟩ := kept.perform (free w List.mem_cons_self) .finish
    refine ⟨sound.set queued, Or.inr ?_⟩
    rw [List.nil_append] at seen shown
    rw [crew_set, shown, seen]
    exact .requeue w (worker_frames sound top)
  | quit w top free =>
    obtain ⟨kept, seen⟩ := (sound w).requestQuit top nofun (free w List.mem_cons_self)
    refine ⟨sound.set kept, Or.inr ?_⟩
    rw [crew_set, seen]
    exact .quit w (worker_frames sound top)

theorem Reachable.sound (h : s.Reachable source) : s.Sound source ∧ s.crew.Reachable :=
  Transition.Reachable.shown crew (fun _ starts => ⟨starts.sound, starts.crew⟩)
    (fun _ _ sound _ step => sound.step step) h

/-- Steps of one worker's loop that its queue does not see are such steps of the fleet. -/
theorem silent {w : Nat} {host : Host}
    (run : Relation.ReflTransGen (Host.Silent (source w)) (s.hosts w) host) :
    Relation.ReflTransGen (fun a b => Step source a b ∧ b.crew = a.crew) s (s.set w host) := by
  have step (host host' : Host) (last : Host.Silent (source w) host host') :
      Step source (s.set w host) (s.set w host') ∧
        (s.set w host').crew = (s.set w host).crew := by
    constructor
    · rw [← s.set_set w host host']
      exact .moves w ((s.set_own w host).symm ▸ last.1)
    · rw [crew_set, crew_set, last.2]
  have same : s.set w (s.hosts w) = s := by rw [Fleet.set, Function.update_eq_self]
  have lifted : Relation.ReflTransGen (fun a b => Step source a b ∧ b.crew = a.crew)
      (s.set w (s.hosts w)) (s.set w host) := Relation.ReflTransGen.lift (s.set w) step _ _ run
  rwa [same] at lifted

/-- What the queue's tasks see of the run loops is a run of the crew, step for step or
stuttering, and a worker that has something to take, or is told to quit, while its thread is in
its loop, comes to show a step by steps of its own loop alone. -/
theorem refines (h : s.Reachable source) :
    s.crew.Reachable ∧
    (∀ t, Step source s t → t.crew = s.crew ∨ Crew.Step s.crew t.crew) ∧
    ∀ w frames, (s.crew.workers w).frames = .loop :: frames →
      (s.crew.workers w).items ≠ [] ∨ (s.crew.workers w).quit = true →
      ∃ host host', Relation.ReflTransGen (Host.Silent (source w)) (s.hosts w) host ∧
        Host.Moves (source w) host host' ∧ Worker.Goes (s.crew.workers w) host'.worker ∧
        Relation.ReflTransGen (fun a b => Step source a b ∧ b.crew = a.crew) s (s.set w host) ∧
        Step source (s.set w host) (s.set w host') ∧
        (s.set w host').crew = s.crew.set w host'.worker := by
  obtain ⟨sound, reachable⟩ := h.sound
  refine ⟨reachable, fun t step => (sound.step step).2, fun w frames top due => ?_⟩
  have going : (s.hosts w).runloop.loop.finished = false := by
    by_contra shut
    change (s.hosts w).worker.frames = _ at top
    rw [Host.worker_shut (by simpa using shut)] at top
    cases top
  have own : (s.hosts w).frames = .loop :: frames := by
    change (s.hosts w).worker.frames = _ at top
    rwa [Host.worker_open going] at top
  obtain ⟨host, host', run, moves, goes⟩ := (sound w).gets_on own due
  refine ⟨host, host', run, moves, goes, silent run, ?_, s.crew_set w host'⟩
  rw [← s.set_set w host host']
  exact .moves w ((s.set_own w host).symm ▸ moves)

/-- A queue of one worker, with an item on its loop. -/
def posted : Fleet Nat :=
  let made : Fleet Nat := ⟨Run.initial 1 1 .initial, 1, fun w => if w < 1 then .started else .idle⟩
  { made with hosts := hand made.hosts .user [0] }

theorem posted_reachable : posted.Reachable fun _ => Runloop.stoppedClock := by
  have start : Reachable (fun _ => Runloop.stoppedClock)
      (⟨Run.initial 1 1 .initial, 1, fun w => if w < 1 then .started else .idle⟩ : Fleet Nat) :=
    Transition.Reachable.start ⟨Run.initial_starts 1 1, Nat.one_pos, rfl, fun _ => rfl⟩
  refine Transition.Reachable.next start (.perform 0 fun w mem => ?_)
  rw [List.mem_singleton.mp mem]
  rfl

theorem refines_posted : posted.crew.Reachable ∧
    ∃ host host', Relation.ReflTransGen (Host.Silent Runloop.stoppedClock) (posted.hosts 0) host ∧
      Host.Moves Runloop.stoppedClock host host' ∧
      Worker.Goes (posted.crew.workers 0) host'.worker := by
  obtain ⟨reachable, _, gets⟩ := refines posted_reachable
  obtain ⟨host, host', silent, moves, goes, _⟩ := gets 0 [] rfl (Or.inl (by decide))
  exact ⟨reachable, host, host', silent, moves, goes⟩

end Fleet

end Dross
