import Dross.Thread.NestedRuns
import Dross.Thread.QueueWorkers

/-!
# A worker on its run loop

A worker is a thread in `run` on a loop of its own, with the loop's lock, clock and timers.
Of all that, its queue sees the items on the loop, in order, the calls the thread is in, and
whether the loop has been told to quit.
-/

namespace Dross

/-- A worker's loop, what each item queued on it was, by sequence number, and the calls its
thread is in, the innermost first: those of the loop, and those of what it runs. -/
structure Host where
  runloop : Runloop
  kinds : List WorkItem
  frames : List Frame

namespace Worker

/-- What a worker does on its loop, and between its items. -/
inductive Goes (w : Worker) : Worker → Prop
  | next {item : WorkItem} {items : List WorkItem} {frames : List Frame}
      (front : w.items = item :: items) (top : w.frames = .loop :: frames)
      (awake : frames = [] → w.quit = false) :
      Goes w { w with items := items, frames := item.frame :: .loop :: frames }
  | timer {frames : List Frame} (top : w.frames = .loop :: frames)
      (awake : frames = [] → w.quit = false) :
      Goes w { w with frames := .user :: .loop :: frames }
  | nest {frame : Frame} {frames : List Frame} (top : w.frames = frame :: frames)
      (nests : frame.nests = true) : Goes w { w with frames := .loop :: frame :: frames }
  | leave {frame : Frame} {frames : List Frame} (top : w.frames = .loop :: frame :: frames) :
      Goes w { w with frames := frame :: frames }
  | ended (top : w.frames = [.loop]) (told : w.quit = true) :
      Goes w { items := [], quit := false, frames := [], ended := true }

theorem Goes.step {α : Type} {s : Crew α} {w : Nat} {worker : Worker}
    (goes : Goes (s.workers w) worker) : Crew.Step s (s.set w worker) := by
  cases goes with
  | next front top awake => exact .next w front top awake
  | timer top awake => exact .timer w top awake
  | nest top nests => exact .nest w top nests
  | leave top => exact .leave w top
  | ended top told => exact .ended w top told

end Worker

namespace Host

def kind (h : Host) (sequence : Nat) : WorkItem := h.kinds.getD sequence .user

def perform (h : Host) (item : WorkItem) : Host :=
  { h with
    runloop := { h.runloop with loop := h.runloop.loop.enqueue }
    kinds := if h.runloop.loop.finished then h.kinds else h.kinds ++ [item] }

/-- Whether the call the thread was started for has seen a request to quit. -/
def told (h : Host) : Bool := h.runloop.calls.head?.any Call.sawQuit

/-- What the queue sees of a worker. -/
def worker (h : Host) : Worker :=
  if h.runloop.loop.finished then ⟨[], false, [], true⟩
  else ⟨h.runloop.loop.pending.map h.kind, h.runloop.loop.quit || h.told, h.frames, false⟩

/-- The call a turn makes: of the item it took, or of a timer's callback. -/
def begun (h : Host) (turn : Loop.Turn) : List Frame :=
  if turn.2.2.control = .running then
    match h.runloop.loop.pending with
    | sequence :: rest => if turn.1.pending = rest then [(h.kind sequence).frame] else [.user]
    | [] => [.user]
  else []

/-- A worker after a turn of a call on its loop. -/
def turned (h : Host) (i : Nat) (turn : Loop.Turn) : Host :=
  { h with
    runloop := { h.runloop.put i turn.2.2 with loop := turn.1, reads := turn.2.1 }
    frames := h.begun turn ++ h.frames }

/-- Whether all calls made on the loop after this one have ended. -/
def Innermost (h : Host) (i : Nat) : Prop :=
  ∀ (j : Nat) (other : Call), i < j → h.runloop.calls[j]? = some other → other.finished = true

/-- One step of a worker's loop. Others may install and remove timers; the rest is the
thread's own, in the innermost call of the loop, or, to make a call, in what it runs. No timer
falls due between the two readings of a wait check. -/
inductive Moves (source : TimeSource) (h : Host) : Host → Prop
  | installTimer (which : Slot) (free : h.runloop.holder = none)
      (fresh : ∀ slot ∈ h.runloop.loop.timers, slot.id ≠ which.id) :
      Moves source h { h with
        runloop := { h.runloop with loop := h.runloop.loop.installTimer which } }
  | removeTimer (id : Nat) (free : h.runloop.holder = none) :
      Moves source h { h with
        runloop := { h.runloop with loop := h.runloop.loop.removeTimer id } }
  | read (clear : h.runloop.Clear source) :
      Moves source h { h with runloop := { h.runloop with reads := h.runloop.reads + 1 } }
  | enter (kind : RunKind) (untimed : kind ≠ .runFor) {frame : Frame} {frames : List Frame}
      (top : h.frames = frame :: frames) (nests : frame.nests = true)
      (working : ∀ call ∈ h.runloop.calls, call.finished = true ∨ call.control = .running) :
      Moves source h { h with
        runloop := { h.runloop with
          calls := h.runloop.calls ++ [Runloop.enter kind noDeadline] }
        frames := .loop :: h.frames }
  | enterFor (timeout : Int) {frame : Frame} {frames : List Frame}
      (top : h.frames = frame :: frames) (nests : frame.nests = true)
      (working : ∀ call ∈ h.runloop.calls, call.finished = true ∨ call.control = .running) :
      Moves source h { h with
        runloop := { h.runloop with
          calls := h.runloop.calls ++
            [Runloop.enter .runFor (Deadline.after (source.now h.runloop.reads) timeout)]
          reads := h.runloop.reads + 1 }
        frames := .loop :: h.frames }
  | mark (i : Nat) (call : Call) {frames : List Frame} (top : h.frames = .loop :: frames)
      (innermost : h.Innermost i) (at' : h.runloop.calls[i]? = some call)
      (free : h.runloop.holder = none) (entering : call.control = .entering) :
      Moves source h { h with
        runloop := { h.runloop with
          loop := { h.runloop.loop with depth := h.runloop.loop.depth + 1 }
          calls := h.runloop.calls.set i
            { call with outermost := h.runloop.loop.depth == 0, control := .marked } } }
  | start (i : Nat) (call : Call) {frames : List Frame} (top : h.frames = .loop :: frames)
      (innermost : h.Innermost i) (at' : h.runloop.calls[i]? = some call)
      (free : h.runloop.holder = none) (marked : call.control = .marked) :
      Moves source h { h with
        runloop := { h.runloop.put i (h.runloop.start source.now call) with
          reads := h.runloop.reads + 1 } }
  | turn (i : Nat) (call : Call) {frames : List Frame} (top : h.frames = .loop :: frames)
      (innermost : h.Innermost i) (at' : h.runloop.calls[i]? = some call)
      (held : h.runloop.holder = some i) (clear : h.runloop.Clear source) :
      Moves source h (h.turned i (h.runloop.turn source.now call))
  | wake (i : Nat) (call : Call) {frames : List Frame} (top : h.frames = .loop :: frames)
      (innermost : h.Innermost i) (at' : h.runloop.calls[i]? = some call)
      (free : h.runloop.holder = none) (waiting : call.control = .waiting) :
      Moves source h { h with runloop := h.runloop.put i { call with control := .next false } }
  | ran (i : Nat) (call : Call) {frames : List Frame} (top : h.frames = .loop :: frames)
      (innermost : h.Innermost i) (at' : h.runloop.calls[i]? = some call)
      (free : h.runloop.holder = none) (running : call.control = .running) :
      Moves source h { h with runloop := h.runloop.put i (Runloop.ranOne call) }
  | unmark (i : Nat) (call : Call) {frames : List Frame} (top : h.frames = .loop :: frames)
      (innermost : h.Innermost i) (at' : h.runloop.calls[i]? = some call)
      (free : h.runloop.holder = none) (leaving : call.control = .leaving) :
      Moves source h { h with
        runloop := { h.runloop with
          loop := { h.runloop.loop with depth := h.runloop.loop.depth - 1 }
          calls := h.runloop.calls.set i { call with control := .returned } }
        -- the first call's frame stands for the thread until it has ended its loop
        frames := if i = 0 then h.frames else frames }
  | finish (call : Call) (at' : h.runloop.calls[0]? = some call)
      (returned : call.control = .returned) (free : h.runloop.holder = none) :
      Moves source h { h with
        runloop := { h.runloop with loop := h.runloop.loop.finish }
        frames := [] }

/-- How many running calls were made within others. -/
def nested (h : Host) : Nat := h.runloop.calls.tail.countP (fun call => ! call.finished)

structure Sound (source : TimeSource) (h : Host) : Prop where
  reachable : h.runloop.NestedReachable source
  clear : h.runloop.ReachableClear source
  length : h.runloop.loop.nextSequence = h.kinds.length
  numbered : ∀ sequence ∈ h.runloop.loop.pending, sequence < h.kinds.length
  unthrown : ∀ call ∈ h.runloop.calls, call.control ≠ .thrown
  first : ∀ call, h.runloop.calls[0]? = some call → call.kind = .run
  idle : h.runloop.calls = [] → h.frames = []
  loops : h.runloop.calls ≠ [] → h.runloop.loop.finished = false →
    h.frames.count .loop = h.nested + 1 ∧ ∃ above, h.frames = above ++ [.loop]
  /-- No call outlives the first. -/
  outlasts : ∀ call, h.runloop.calls[0]? = some call → call.finished = true →
    (∀ other ∈ h.runloop.calls, other.finished = true) ∧
      (h.runloop.loop.finished = false → h.frames = [.loop])
  shut : h.runloop.loop.finished = true → h.frames = []

variable {source : TimeSource} {h h' : Host} {i : Nat} {call call' : Call}

theorem worker_open (open_ : h.runloop.loop.finished = false) :
    h.worker = ⟨h.runloop.loop.pending.map h.kind, h.runloop.loop.quit || h.told, h.frames, false⟩ := by
  simp [worker, open_]

theorem worker_shut (shut : h.runloop.loop.finished = true) : h.worker = ⟨[], false, [], true⟩ :=
  if_pos shut

theorem told_eq {first : Call} (at' : h.runloop.calls[0]? = some first) :
    h.told = first.sawQuit := by
  rw [told, List.head?_eq_getElem?, at']
  rfl

theorem Sound.going (sound : h.Sound source) (top : h.frames ≠ []) :
    h.runloop.loop.finished = false := by
  by_contra shut
  exact top (sound.shut (by simpa using shut))

theorem Sound.reachable_same {t : Runloop} (sound : h.Sound source)
    (step : Runloop.Step source h.runloop t) (calls : t.calls = h.runloop.calls) :
    t.NestedReachable source := by
  refine Transition.Reachable.next sound.reachable ⟨step, fun k changed => ?_, fun more => ?_⟩
  · rw [calls] at changed
    exact absurd rfl changed
  · rw [calls] at more
    exact absurd more (Nat.lt_irrefl _)

theorem Sound.reachable_set {t : Runloop} (sound : h.Sound source)
    (step : Runloop.Step source h.runloop t) (innermost : h.Innermost i)
    (calls : t.calls = h.runloop.calls.set i call') : t.NestedReachable source := by
  refine Transition.Reachable.next sound.reachable ⟨step, fun k changed => ?_, fun more => ?_⟩
  · by_cases own : k = i
    · exact own ▸ innermost
    · rw [calls, List.getElem?_set_ne (Ne.symm own)] at changed
      exact absurd rfl changed
  · rw [calls, List.length_set] at more
    exact absurd more (Nat.lt_irrefl _)

/-- A step that keeps the calls and takes nothing from what is queued. -/
theorem Sound.quiet {t : Runloop} (sound : h.Sound source) (step : Runloop.Step source h.runloop t)
    (clear : h.runloop.Clear source) (calls : t.calls = h.runloop.calls)
    (sequence : t.loop.nextSequence = h.runloop.loop.nextSequence)
    (pending : t.loop.pending = h.runloop.loop.pending)
    (finished : t.loop.finished = h.runloop.loop.finished) :
    Sound source { h with runloop := t } := by
  have nested := sound.reachable_same step calls
  have clear := sound.clear.step clear step rfl
  obtain ⟨⟨queued, timers, next, depth, quit, shut⟩, made, holder, reads⟩ := t
  dsimp only at calls sequence pending finished
  subst calls sequence pending finished
  exact ⟨nested, clear, sound.length, sound.numbered, sound.unthrown, sound.first, sound.idle,
    sound.loops, sound.outlasts, sound.shut⟩

theorem nested_append (some' : h.runloop.calls ≠ []) (call : Call) :
    (h.runloop.calls ++ [call]).tail.countP (fun call => ! call.finished) =
      h.nested + if call.finished then 0 else 1 := by
  rw [List.tail_append_of_ne_nil some', List.countP_append, nested, List.countP_singleton]
  cases call.finished <;> rfl

/-- A call made on the loop from within what it runs. -/
theorem Sound.enter {t : Runloop} {frame : Frame} {frames : List Frame} (sound : h.Sound source)
    (step : Runloop.Step source h.runloop t) (entering : call.control = .entering)
    (top : h.frames = frame :: frames) (nests : frame.nests = true)
    (working : ∀ call ∈ h.runloop.calls, call.finished = true ∨ call.control = .running)
    (calls : t.calls = h.runloop.calls ++ [call]) (loop : t.loop = h.runloop.loop) :
    Sound source { h with runloop := t, frames := .loop :: h.frames } := by
  have made : h.runloop.calls ≠ [] := by
    intro none
    rw [sound.idle none] at top
    cases top
  have free : h.runloop.holder = none := by
    cases held : h.runloop.holder with
    | none => rfl
    | some i =>
      obtain ⟨holding, at', holds⟩ := sound.reachable.reachable.held held
      rcases working holding (List.mem_of_getElem? at') with past | running
      · rw [Runloop.finished_of_active (Runloop.active_of_holds holds)] at past
        cases past
      · rw [running] at holds
        cases holds
  have clear := sound.clear.step (Runloop.clear_free free) step rfl
  have nested : t.NestedReachable source := by
    refine Transition.Reachable.next sound.reachable ⟨step, fun i changed j other after there => ?_,
      fun _ => working⟩
    have bound := (List.getElem?_eq_some_iff.mp there).1
    rw [calls, List.getElem?_append_left (by omega)] at changed
    exact absurd rfl changed
  have same (other : Call) : t.calls[0]? = some other ↔ h.runloop.calls[0]? = some other := by
    rw [calls, List.getElem?_append_left (List.length_pos_iff.mpr made)]
  have open' (first : Call) (at' : h.runloop.calls[0]? = some first) : first.finished = false := by
    by_contra past
    have shut := sound.going (by rw [top]; exact List.cons_ne_nil _ _)
    rw [(sound.outlasts first at' (by simpa using past)).2 shut] at top
    cases top
    cases nests
  obtain ⟨own, made', holder, reads⟩ := t
  dsimp only at calls loop same
  subst calls loop
  refine ⟨nested, clear, sound.length, sound.numbered, ?_, ?_, ?_, ?_, ?_, ?_⟩
  · intro other mem
    rcases List.mem_append.mp mem with mem | mem
    · exact sound.unthrown other mem
    · rw [List.mem_singleton.mp mem, entering]
      exact nofun
  · exact fun other at' => sound.first other ((same other).mp at')
  · intro none
    exact absurd none (List.append_ne_nil_of_left_ne_nil made _)
  · intro _ going
    obtain ⟨count, above, based⟩ := sound.loops made going
    refine ⟨?_, .loop :: above, by rw [based]; rfl⟩
    change _ = (h.runloop.calls ++ [call]).tail.countP _ + 1
    rw [List.count_cons_self, count, nested_append made, Call.finished, entering]
    rfl
  · intro other at' past
    rw [open' other ((same other).mp at')] at past
    cases past
  · intro shut
    rw [sound.shut shut] at top
    cases top

theorem nested_set (at' : h.runloop.calls[i]? = some call) (same : call'.finished = call.finished) :
    (h.runloop.calls.set i call').tail.countP (fun call => ! call.finished) = h.nested := by
  unfold nested
  cases calls : h.runloop.calls with
  | nil => rfl
  | cons first rest =>
    cases i with
    | zero => rfl
    | succ i =>
      rw [calls, List.getElem?_cons_succ] at at'
      obtain ⟨bound, own⟩ := List.getElem?_eq_some_iff.mp at'
      have some' (open' : call.finished = false) :
          0 < rest.countP (fun call => ! call.finished) :=
        List.countP_pos_iff.mpr ⟨call, List.mem_of_getElem? at', by rw [open']; rfl⟩
      rw [List.set_cons_succ, List.tail_cons, List.tail_cons, List.countP_set bound, own, same]
      cases finished : call.finished with
      | true => rfl
      | false =>
        have := some' finished
        simp only [Bool.not_false, if_true]
        omega

/-- The innermost call goes on, maybe with something it runs. -/
theorem Sound.act {t : Runloop} {new : List Frame} (sound : h.Sound source)
    (step : Runloop.Step source h.runloop t) (clear : h.runloop.Clear source)
    (innermost : h.Innermost i) (at' : h.runloop.calls[i]? = some call)
    (open' : call.finished = false) (calls : t.calls = h.runloop.calls.set i call')
    (goes : call'.finished = false) (kind : call'.kind = call.kind)
    (sequence : t.loop.nextSequence = h.runloop.loop.nextSequence)
    (pending : t.loop.pending ⊆ h.runloop.loop.pending)
    (finished : t.loop.finished = h.runloop.loop.finished)
    (top : h.frames ≠ []) (work : .loop ∉ new) :
    Sound source { h with runloop := t, frames := new ++ h.frames } := by
  have bound := (List.getElem?_eq_some_iff.mp at').1
  have made : h.runloop.calls ≠ [] := List.ne_nil_of_mem (List.mem_of_getElem? at')
  have nested := sound.reachable_set step innermost calls
  have clear := sound.clear.step clear step rfl
  have unfinished (first : Call) (zero : (h.runloop.calls.set i call')[0]? = some first) :
      first.finished = false ∧ first.kind = .run := by
    by_cases own : i = 0
    · subst own
      rw [List.getElem?_set_self bound] at zero
      cases zero
      exact ⟨goes, kind.trans (sound.first call at')⟩
    · rw [List.getElem?_set_ne own] at zero
      refine ⟨?_, sound.first first zero⟩
      by_contra past
      have all := (sound.outlasts first zero (by simpa using past)).1 call (List.mem_of_getElem? at')
      rw [open'] at all
      cases all
  obtain ⟨⟨queued, timers, next, depth, quit, shut⟩, made', holder, reads⟩ := t
  dsimp only at calls sequence pending finished
  subst calls sequence finished
  refine ⟨nested, clear, sound.length, fun n mem => sound.numbered n (pending mem), ?_, ?_, ?_, ?_,
    ?_, ?_⟩
  · intro other mem
    rcases List.mem_or_eq_of_mem_set mem with mem | rfl
    · exact sound.unthrown other mem
    · intro thrown
      rw [Call.finished, thrown] at goes
      cases goes
  · exact fun first zero => (unfinished first zero).2
  · exact fun none => absurd ((List.set_eq_nil_iff _ _).mp none) made
  · intro _ going
    obtain ⟨count, above, based⟩ := sound.loops made going
    refine ⟨?_, new ++ above, by rw [based, List.append_assoc]⟩
    change _ = (h.runloop.calls.set i call').tail.countP _ + 1
    rw [List.count_append, List.count_eq_zero.mpr work, count, nested_set at' (goes.trans open'.symm),
      Nat.zero_add]
  · intro first zero past
    rw [(unfinished first zero).1] at past
    cases past
  · intro shut
    exact absurd (sound.shut shut) top

theorem nested_ended (at' : h.runloop.calls[i + 1]? = some call) (open' : call.finished = false)
    (past : call'.finished = true) :
    (h.runloop.calls.set (i + 1) call').tail.countP (fun call => ! call.finished) + 1 =
      h.nested := by
  unfold nested
  cases calls : h.runloop.calls with
  | nil =>
    rw [calls] at at'
    cases at'
  | cons first rest =>
    rw [calls, List.getElem?_cons_succ] at at'
    obtain ⟨bound, own⟩ := List.getElem?_eq_some_iff.mp at'
    have some' : 0 < rest.countP (fun call => ! call.finished) :=
      List.countP_pos_iff.mpr ⟨call, List.mem_of_getElem? at', by rw [open']; rfl⟩
    rw [List.set_cons_succ, List.tail_cons, List.tail_cons, List.countP_set bound, own, open', past]
    simp only [Bool.not_false, Bool.not_true, if_true, if_false, Bool.false_eq_true]
    omega

/-- The call to return is the first, or there is what it was made from to go back to. -/
theorem Sound.returns {frames : List Frame} (sound : h.Sound source)
    (top : h.frames = .loop :: frames) (innermost : h.Innermost i)
    (at' : h.runloop.calls[i]? = some call) (open' : call.finished = false) :
    (i = 0 ∧ frames = []) ∨ (0 < i ∧ ∃ frame rest, frames = frame :: rest) := by
  have made : h.runloop.calls ≠ [] := List.ne_nil_of_mem (List.mem_of_getElem? at')
  have going := sound.going (by rw [top]; exact List.cons_ne_nil _ _)
  obtain ⟨count, above, based⟩ := sound.loops made going
  rw [top, List.count_cons_self] at count
  cases i with
  | zero =>
    refine Or.inl ⟨rfl, ?_⟩
    have none : h.nested = 0 := by
      refine List.countP_eq_zero.mpr fun other mem => ?_
      obtain ⟨j, there⟩ := List.mem_iff_getElem?.mp mem
      rw [List.getElem?_tail] at there
      rw [innermost (j + 1) other (Nat.succ_pos j) there]
      exact Bool.false_ne_true
    by_contra more
    obtain ⟨last, more, rfl⟩ : ∃ last, ∃ more : List Frame, frames = more ++ [last] :=
      ⟨_, _, (List.dropLast_append_getLast more).symm⟩
    rw [top, ← List.cons_append] at based
    have same : last = .loop := (List.append_inj_right' based rfl) |> List.singleton_inj.mp
    rw [same, List.count_append, none] at count
    simp at count
  | succ i =>
    refine Or.inr ⟨Nat.succ_pos i, ?_⟩
    have some' : 0 < h.nested := by
      refine List.countP_pos_iff.mpr ⟨call, ?_, by rw [open']; rfl⟩
      have there : h.runloop.calls.tail[i]? = some call := by rw [List.getElem?_tail, at']
      exact List.mem_of_getElem? there
    cases frames with
    | nil =>
      rw [List.count_nil] at count
      omega
    | cons frame rest => exact ⟨frame, rest, rfl⟩

/-- A call's own frame goes as it returns, but for the first's. -/
theorem Sound.loops_returned {frames : List Frame} (sound : h.Sound source)
    (top : h.frames = .loop :: frames) (innermost : h.Innermost i)
    (at' : h.runloop.calls[i]? = some call) (open' : call.finished = false)
    (past : call'.finished = true) :
    (if i = 0 then h.frames else frames).count .loop =
        (h.runloop.calls.set i call').tail.countP (fun call => ! call.finished) + 1 ∧
      ∃ above, (if i = 0 then h.frames else frames) = above ++ [.loop] := by
  have made : h.runloop.calls ≠ [] := List.ne_nil_of_mem (List.mem_of_getElem? at')
  have going := sound.going (by rw [top]; exact List.cons_ne_nil _ _)
  obtain ⟨count, above, based⟩ := sound.loops made going
  rcases sound.returns top innermost at' open' with ⟨rfl, rfl⟩ | ⟨more, frame, rest, rfl⟩
  · refine ⟨?_, above, by rw [if_pos rfl, based]⟩
    have rest : (h.runloop.calls.set 0 call').tail = h.runloop.calls.tail := by
      cases h.runloop.calls <;> rfl
    rw [if_pos rfl, count, rest]
    rfl
  · obtain ⟨k, rfl⟩ := Nat.exists_eq_succ_of_ne_zero more.ne'
    have ended := nested_ended at' open' past
    rw [top, List.count_cons_self] at count
    rw [if_neg (Nat.succ_ne_zero k)]
    refine ⟨?_, ?_⟩
    · change (frame :: rest).count .loop = (h.runloop.calls.set (k + 1) _).tail.countP _ + 1
      omega
    · cases above with
      | nil =>
        rw [top] at based
        cases based
      | cons first above =>
        rw [top, List.cons_append] at based
        exact ⟨above, (List.cons.inj based).2⟩

theorem Sound.outlasts_returned {frames : List Frame} {first : Call} (sound : h.Sound source)
    (top : h.frames = .loop :: frames) (innermost : h.Innermost i)
    (at' : h.runloop.calls[i]? = some call) (open' : call.finished = false)
    (zero : (h.runloop.calls.set i call')[0]? = some first) (past : first.finished = true) :
    (∀ other ∈ h.runloop.calls.set i call', other.finished = true) ∧
      (if i = 0 then h.frames else frames) = [.loop] := by
  by_cases own : i = 0
  · subst own
    refine ⟨fun other mem => ?_, ?_⟩
    · obtain ⟨j, there⟩ := List.mem_iff_getElem?.mp mem
      by_cases same : j = 0
      · subst same
        rw [zero] at there
        cases there
        exact past
      · rw [List.getElem?_set_ne (Ne.symm same)] at there
        exact innermost j other (Nat.pos_of_ne_zero same) there
    · rcases sound.returns top innermost at' open' with ⟨_, none⟩ | ⟨more, _⟩
      · rw [if_pos rfl, top, none]
      · exact absurd rfl more.ne
  · rw [List.getElem?_set_ne own] at zero
    have all := (sound.outlasts first zero past).1 call (List.mem_of_getElem? at')
    rw [open'] at all
    cases all

theorem Sound.unmark {frames : List Frame} (sound : h.Sound source)
    (top : h.frames = .loop :: frames) (innermost : h.Innermost i)
    (at' : h.runloop.calls[i]? = some call) (free : h.runloop.holder = none)
    (leaving : call.control = .leaving) :
    Sound source { h with
      runloop := { h.runloop with
        loop := { h.runloop.loop with depth := h.runloop.loop.depth - 1 }
        calls := h.runloop.calls.set i { call with control := .returned } }
      frames := if i = 0 then h.frames else frames } := by
  have bound := (List.getElem?_eq_some_iff.mp at').1
  have made : h.runloop.calls ≠ [] := List.ne_nil_of_mem (List.mem_of_getElem? at')
  have open' : call.finished = false := by rw [Call.finished, leaving]
  have past : ({ call with control := .returned } : Call).finished = true := rfl
  have step : Runloop.Step source h.runloop _ := .unmark i call at' free leaving
  refine ⟨sound.reachable_set step innermost rfl,
    sound.clear.step (Runloop.clear_free free) step rfl, sound.length, sound.numbered,
    fun other mem => ?_, fun first zero => ?_,
    fun none => absurd ((List.set_eq_nil_iff _ _).mp none) made,
    fun _ _ => sound.loops_returned top innermost at' open' past, fun first zero ended => ?_,
    fun shut => ?_⟩
  · rcases List.mem_or_eq_of_mem_set mem with mem | rfl
    · exact sound.unthrown other mem
    · rintro ⟨⟩
  · by_cases own : i = 0
    · subst own
      rw [List.getElem?_set_self bound] at zero
      cases zero
      exact sound.first call at'
    · rw [List.getElem?_set_ne own] at zero
      exact sound.first first zero
  · obtain ⟨all, alone⟩ := sound.outlasts_returned top innermost at' open' zero ended
    exact ⟨all, fun _ => alone⟩
  · rw [sound.shut shut] at top
    cases top

theorem Sound.finish (sound : h.Sound source) (at' : h.runloop.calls[0]? = some call)
    (returned : call.control = .returned) (free : h.runloop.holder = none) :
    Sound source { h with
      runloop := { h.runloop with loop := h.runloop.loop.finish }
      frames := [] } := by
  have past : call.finished = true := by rw [Call.finished, returned]
  have step : Runloop.Step source h.runloop _ := .finish free
  refine ⟨sound.reachable_same step rfl, sound.clear.step (Runloop.clear_free free) step rfl,
    sound.length, fun _ mem => absurd mem List.not_mem_nil, sound.unthrown, sound.first,
    fun _ => rfl, by rintro _ ⟨⟩, fun first zero _ => ?_, fun _ => rfl⟩
  exact ⟨(sound.outlasts call at' past).1, by rintro ⟨⟩⟩

/-! ## What its queue sees -/

theorem worker_same {t : Runloop} {frames : List Frame}
    (pending : t.loop.pending = h.runloop.loop.pending) (quit : t.loop.quit = h.runloop.loop.quit)
    (finished : t.loop.finished = h.runloop.loop.finished)
    (told : ({ h with runloop := t, frames := frames } : Host).told = h.told)
    (same : frames = h.frames) : ({ h with runloop := t, frames := frames } : Host).worker =
      h.worker := by
  subst same
  unfold worker
  rw [told]
  dsimp only
  rw [pending, quit, finished]
  rfl

theorem told_set {t : Runloop} {frames : List Frame} (at' : h.runloop.calls[i]? = some call)
    (calls : t.calls = h.runloop.calls.set i call') (saw : call'.sawQuit = call.sawQuit) :
    ({ h with runloop := t, frames := frames } : Host).told = h.told := by
  unfold told
  rw [List.head?_eq_getElem?, List.head?_eq_getElem?]
  dsimp only
  rw [calls]
  by_cases own : i = 0
  · subst own
    rw [List.getElem?_set_self (List.getElem?_eq_some_iff.mp at').1, at']
    exact saw
  · rw [List.getElem?_set_ne own]

theorem begun_none {turn : Loop.Turn} (resting : turn.2.2.control ≠ .running) :
    h.begun turn = [] := by
  rw [begun, if_neg resting]

theorem begun_timer {turn : Loop.Turn} (running : turn.2.2.control = .running)
    (same : turn.1.pending = h.runloop.loop.pending) : h.begun turn = [.user] := by
  rw [begun, if_pos running, same]
  cases pending : h.runloop.loop.pending with
  | nil => rfl
  | cons sequence rest =>
    have other : sequence :: rest ≠ rest := List.cons_ne_self sequence rest
    simp only [if_neg other]

theorem begun_task {turn : Loop.Turn} {sequence : Nat} (running : turn.2.2.control = .running)
    (front : h.runloop.loop.pending = sequence :: turn.1.pending) :
    h.begun turn = [(h.kind sequence).frame] := by
  rw [begun, if_pos running, front]
  simp only [if_true]

theorem begun_work (turn : Loop.Turn) : .loop ∉ h.begun turn := by
  unfold begun
  split
  · split
    · split
      · rename_i sequence _ _ _
        cases h.kind sequence <;> simp [WorkItem.frame]
      · simp
    · simp
  · simp

/-- With nothing to go back to, a call that takes something has seen no request to quit. -/
theorem Sound.awake {frames : List Frame} (sound : h.Sound source)
    (top : h.frames = .loop :: frames) (innermost : h.Innermost i)
    (at' : h.runloop.calls[i]? = some call) (holds : call.control.holds = true)
    (going : call.kind = .run → h.runloop.loop.quit = false) (none : frames = []) :
    (h.runloop.loop.quit || h.told) = false := by
  have open' := Runloop.finished_of_active (Runloop.active_of_holds holds)
  rcases sound.returns top innermost at' open' with ⟨rfl, _⟩ | ⟨_, frame, rest, more⟩
  · have runs := sound.first call at'
    have known := sound.reachable.reachable.sound call (List.mem_of_getElem? at')
    have unseen : call.sawQuit = false := by
      refine (known.underway rfl ?_ ?_).1
      · intro leaving
        rw [leaving] at holds
        cases holds
      · intro returned
        rw [returned] at holds
        cases holds
    rw [going runs, told_eq at', unseen]
    rfl
  · rw [none] at more
    cases more

/-- A turn in which a timer's callback is taken. -/
theorem Sound.fires {turn : Loop.Turn} {frames : List Frame} (sound : h.Sound source)
    (top : h.frames = .loop :: frames) (at' : h.runloop.calls[i]? = some call)
    (awake : frames = [] → (h.runloop.loop.quit || h.told) = false)
    (running : turn.2.2.control = .running) (pending : turn.1.pending = h.runloop.loop.pending)
    (quit : turn.1.quit = h.runloop.loop.quit)
    (finished : turn.1.finished = h.runloop.loop.finished)
    (saw : turn.2.2.sawQuit = call.sawQuit) : Worker.Goes h.worker (h.turned i turn).worker := by
  have shut : h.runloop.loop.finished = false := sound.going (by rw [top]; exact nofun)
  have goes : Worker.Goes h.worker { h.worker with frames := .user :: .loop :: frames } := by
    rw [worker_open shut]
    exact .timer top awake
  have told : (h.turned i turn).told = h.told := told_set at' rfl saw
  have shut' : (h.turned i turn).runloop.loop.finished = false := finished.trans shut
  have calls : (h.turned i turn).frames = .user :: .loop :: frames := by
    rw [turned, begun_timer running pending, top]
    rfl
  have items : (h.turned i turn).runloop.loop.pending = h.runloop.loop.pending := pending
  have kept : (h.turned i turn).runloop.loop.quit = h.runloop.loop.quit := quit
  rw [worker_open shut] at goes ⊢
  rw [worker_open shut', told, calls, items, kept]
  exact goes

/-- A turn in which the front of the queue is taken. -/
theorem Sound.takes {turn : Loop.Turn} {sequence : Nat} {frames : List Frame}
    (sound : h.Sound source) (top : h.frames = .loop :: frames)
    (at' : h.runloop.calls[i]? = some call)
    (awake : frames = [] → (h.runloop.loop.quit || h.told) = false)
    (running : turn.2.2.control = .running)
    (front : h.runloop.loop.pending = sequence :: turn.1.pending)
    (quit : turn.1.quit = h.runloop.loop.quit)
    (finished : turn.1.finished = h.runloop.loop.finished)
    (saw : turn.2.2.sawQuit = call.sawQuit) : Worker.Goes h.worker (h.turned i turn).worker := by
  have shut : h.runloop.loop.finished = false := sound.going (by rw [top]; exact nofun)
  have goes : Worker.Goes h.worker { h.worker with
      items := turn.1.pending.map h.kind
      frames := (h.kind sequence).frame :: .loop :: frames } := by
    rw [worker_open shut]
    refine .next ?_ top awake
    dsimp only
    rw [front]
    rfl
  have told : (h.turned i turn).told = h.told := told_set at' rfl saw
  have shut' : (h.turned i turn).runloop.loop.finished = false := finished.trans shut
  have calls : (h.turned i turn).frames = (h.kind sequence).frame :: .loop :: frames := by
    rw [turned, begun_task running front, top]
    rfl
  have kept : (h.turned i turn).runloop.loop.quit = h.runloop.loop.quit := quit
  rw [worker_open shut] at goes ⊢
  rw [worker_open shut', told, calls, kept]
  exact goes

/-- A turn in which a request to quit is seen: it stays with the loop, or with the first call. -/
theorem Sound.quits (sound : h.Sound source) (at' : h.runloop.calls[i]? = some call)
    (holds : call.control.holds = true) {reads : Nat} (quit : h.runloop.loop.quit = true) :
    (h.turned i ({ h.runloop.loop with quit := ! call.outermost }, reads,
      { call with sawQuit := true, control := .leaving })).worker = h.worker := by
  have bound := (List.getElem?_eq_some_iff.mp at').1
  have active := Runloop.active_of_holds holds
  have first := sound.reachable.nested.outermost i call at' active
  have still : ((! call.outermost) || (h.turned i ({ h.runloop.loop with quit := ! call.outermost },
      reads, { call with sawQuit := true, control := .leaving })).told) = true := by
    by_cases own : i = 0
    · subst own
      rw [told_eq (List.getElem?_set_self bound)]
      exact Bool.or_true _
    · cases outermost : call.outermost with
      | false => rfl
      | true =>
        obtain ⟨zero, there⟩ : ∃ zero, h.runloop.calls[0]? = some zero :=
          ⟨_, List.getElem?_eq_getElem (Nat.zero_lt_of_lt bound)⟩
        have past := (first.mp outermost) 0 zero (Nat.pos_of_ne_zero own) there
        have all := (sound.outlasts zero there past).1 call (List.mem_of_getElem? at')
        rw [Runloop.finished_of_active active] at all
        cases all
  unfold worker
  rw [quit, Bool.true_or]
  change (if h.runloop.loop.finished = true then _ else _) = _
  split
  · rfl
  · rw [Worker.mk.injEq]
    refine ⟨rfl, still, ?_, rfl⟩
    simp [turned, begun]

/-- A turn shows as what was taken in it, if anything was. -/
theorem Sound.turn_seen {turn : Loop.Turn} {frames : List Frame} (sound : h.Sound source)
    (top : h.frames = .loop :: frames) (innermost : h.Innermost i)
    (at' : h.runloop.calls[i]? = some call) (holds : call.control.holds = true)
    (outcome : Runloop.Outcome source.now h.runloop call turn) :
    (h.turned i turn).worker = h.worker ∨ Worker.Goes h.worker (h.turned i turn).worker := by
  have known := sound.reachable.reachable.sound call (List.mem_of_getElem? at')
  have awake (going : call.kind = .run → h.runloop.loop.quit = false) (none : frames = []) :=
    sound.awake top innermost at' holds going none
  have rests {turn : Loop.Turn} (resting : turn.2.2.control ≠ .running)
      (left : turn.1 = h.runloop.loop) (saw : turn.2.2.sawQuit = call.sawQuit) :
      (h.turned i turn).worker = h.worker := by
    refine worker_same ?_ ?_ ?_ (told_set at' rfl saw) (by rw [begun_none resting]; rfl)
    · exact congrArg Loop.pending left
    · exact congrArg Loop.quit left
    · exact congrArg Loop.finished left
  cases outcome with
  | looping here after =>
    refine Or.inl (rests ?_ rfl rfl)
    rcases after with rfl | rfl <;> exact nofun
  | next here round =>
    cases round with
    | quits quit => exact Or.inl (sound.quits at' holds quit)
    | timer going due =>
      exact Or.inr (sound.fires top at' (awake fun _ => going) rfl rfl rfl rfl rfl)
    | task going timers idle front =>
      exact Or.inr (sound.takes top at' (awake fun _ => going) rfl front rfl rfl rfl)
    | taskAlone going timers front =>
      exact Or.inr (sound.takes top at' (awake fun _ => going) rfl front rfl rfl rfl)
    | refresh going timers idle empty => exact Or.inl (rests nofun rfl rfl)
    | wait going idle empty le resting =>
      refine Or.inl (rests ?_ rfl rfl)
      rcases resting with rfl | rfl <;> exact nofun
  | draining here round =>
    have kind := known.pending _ here
    have other (runs : call.kind = .run) : h.runloop.loop.quit = false := by
      rw [kind] at runs
      cases runs
    cases round with
    | timer due => exact Or.inr (sound.fires top at' (awake other) rfl rfl rfl rfl rfl)
    | timersDone idle => exact Or.inl (rests nofun rfl rfl)
    | task front => exact Or.inr (sound.takes top at' (awake other) rfl front rfl rfl rfl)
    | done => exact Or.inl (rests nofun rfl rfl)
  | unheld free =>
    rw [holds] at free
    cases free

/-- A step of the innermost call in which nothing is taken. -/
theorem Sound.resumes {t : Runloop} (sound : h.Sound source)
    (step : Runloop.Step source h.runloop t) (free : h.runloop.holder = none)
    (innermost : h.Innermost i) (at' : h.runloop.calls[i]? = some call)
    (open' : call.finished = false) (calls : t.calls = h.runloop.calls.set i call')
    (goes : call'.finished = false) (kind : call'.kind = call.kind)
    (saw : call'.sawQuit = call.sawQuit)
    (sequence : t.loop.nextSequence = h.runloop.loop.nextSequence)
    (pending : t.loop.pending = h.runloop.loop.pending)
    (quit : t.loop.quit = h.runloop.loop.quit)
    (finished : t.loop.finished = h.runloop.loop.finished) (top : h.frames ≠ []) :
    Sound source { h with runloop := t } ∧ (({ h with runloop := t } : Host).worker = h.worker ∨
      Worker.Goes h.worker ({ h with runloop := t } : Host).worker) := by
  have acted := @Sound.act source h i call call' t [] sound step (Runloop.clear_free free) innermost
    at' open' calls goes kind sequence (fun n mem => pending ▸ mem) finished top List.not_mem_nil
  exact ⟨acted, Or.inl (worker_same pending quit finished (told_set at' calls saw) rfl)⟩

/-- A call made on the loop shows as one. -/
theorem Sound.entered {t : Runloop} {frame : Frame} {frames : List Frame} (sound : h.Sound source)
    (step : Runloop.Step source h.runloop t) (entering : call.control = .entering)
    (top : h.frames = frame :: frames) (nests : frame.nests = true)
    (working : ∀ call ∈ h.runloop.calls, call.finished = true ∨ call.control = .running)
    (calls : t.calls = h.runloop.calls ++ [call]) (loop : t.loop = h.runloop.loop) :
    Sound source { h with runloop := t, frames := .loop :: h.frames } ∧
      Worker.Goes h.worker
        ({ h with runloop := t, frames := .loop :: h.frames } : Host).worker := by
  refine ⟨sound.enter step entering top nests working calls loop, ?_⟩
  have shut : h.runloop.loop.finished = false := sound.going (by rw [top]; exact nofun)
  have told : ({ h with runloop := t, frames := .loop :: h.frames } : Host).told = h.told := by
    unfold told
    dsimp only
    rw [calls]
    cases made : h.runloop.calls with
    | nil =>
      rw [sound.idle made] at top
      cases top
    | cons first rest => rfl
  have goes : Worker.Goes h.worker { h.worker with frames := .loop :: frame :: frames } := by
    rw [worker_open shut]
    exact .nest top nests
  unfold worker at goes ⊢
  rw [told]
  dsimp only
  rw [loop, shut, top]
  rw [shut, top] at goes
  exact goes

/-- A return from a call made within another shows as one. -/
theorem Sound.leaves {t : Runloop} {frame : Frame} {frames : List Frame} (sound : h.Sound source)
    (top : h.frames = .loop :: frame :: frames) (at' : h.runloop.calls[i]? = some call)
    (calls : t.calls = h.runloop.calls.set i call') (saw : call'.sawQuit = call.sawQuit)
    (pending : t.loop.pending = h.runloop.loop.pending) (quit : t.loop.quit = h.runloop.loop.quit)
    (finished : t.loop.finished = h.runloop.loop.finished) :
    Worker.Goes h.worker
      ({ h with runloop := t, frames := frame :: frames } : Host).worker := by
  have shut : h.runloop.loop.finished = false := sound.going (by rw [top]; exact nofun)
  have told : ({ h with runloop := t, frames := frame :: frames } : Host).told = h.told :=
    told_set at' calls saw
  have goes : Worker.Goes h.worker { h.worker with frames := frame :: frames } := by
    rw [worker_open shut]
    exact .leave top
  unfold worker at goes ⊢
  rw [told]
  dsimp only
  rw [pending, quit, finished, shut]
  rw [shut] at goes
  exact goes

theorem turn_keeps (source : TimeSource) (h : Host) (holds : call.control.holds = true) :
    (h.runloop.turn source.now call).1.nextSequence = h.runloop.loop.nextSequence ∧
    (h.runloop.turn source.now call).1.pending ⊆ h.runloop.loop.pending ∧
    (h.runloop.turn source.now call).1.finished = h.runloop.loop.finished := by
  have takes : Loop.Takes source.now h.runloop.reads h.runloop.loop call
    (h.runloop.turn source.now call) := Runloop.turn_takes holds
  cases takes with
  | timer due left =>
    rw [left]
    exact ⟨rfl, fun _ mem => mem, rfl⟩
  | task front left =>
    rw [left, front]
    exact ⟨rfl, fun _ mem => List.mem_cons_of_mem _ mem, rfl⟩
  | nothing quit left =>
    rw [left]
    exact ⟨rfl, fun _ mem => mem, rfl⟩

/-- Every step of a worker's loop keeps the invariant, and shows as one step of the worker, or
as none. -/
theorem Sound.moves (sound : h.Sound source) (moves : Moves source h h') :
    h'.Sound source ∧ (h'.worker = h.worker ∨ Worker.Goes h.worker h'.worker) := by
  cases moves with
  | installTimer which free fresh =>
    have kept : (h.runloop.loop.installTimer which).pending = h.runloop.loop.pending ∧
        (h.runloop.loop.installTimer which).quit = h.runloop.loop.quit ∧
        (h.runloop.loop.installTimer which).finished = h.runloop.loop.finished ∧
        (h.runloop.loop.installTimer which).nextSequence = h.runloop.loop.nextSequence := by
      unfold Loop.installTimer
      split <;> exact ⟨rfl, rfl, rfl, rfl⟩
    obtain ⟨pending, quit, finished, sequence⟩ := kept
    exact ⟨sound.quiet (.installTimer which free fresh) (Runloop.clear_free free) rfl sequence
      pending finished, Or.inl (worker_same pending quit finished rfl rfl)⟩
  | removeTimer id free =>
    exact ⟨sound.quiet (.removeTimer id free) (Runloop.clear_free free) rfl rfl rfl rfl,
      Or.inl (worker_same rfl rfl rfl rfl rfl)⟩
  | read clear =>
    exact ⟨sound.quiet .read clear rfl rfl rfl rfl, Or.inl (worker_same rfl rfl rfl rfl rfl)⟩
  | enter kind untimed top nests working =>
    obtain ⟨sound, goes⟩ := sound.entered (.enter kind untimed) rfl top nests working rfl rfl
    exact ⟨sound, Or.inr goes⟩
  | enterFor timeout top nests working =>
    obtain ⟨sound, goes⟩ := sound.entered (.enterFor timeout) rfl top nests working rfl rfl
    exact ⟨sound, Or.inr goes⟩
  | mark i call top innermost at' free entering =>
    exact sound.resumes (.mark i call at' free entering) free innermost at'
      (by rw [Call.finished, entering]) rfl rfl rfl rfl rfl rfl rfl rfl (by rw [top]; rintro ⟨⟩)
  | start i call top innermost at' free marked =>
    have kept : (h.runloop.start source.now call).finished = false ∧
        (h.runloop.start source.now call).sawQuit = call.sawQuit := by
      unfold Runloop.start
      cases call.kind <;> exact ⟨rfl, rfl⟩
    exact sound.resumes (.start i call at' free marked) free innermost at'
      (by rw [Call.finished, marked]) rfl kept.1 (Runloop.keeps_start marked).kind kept.2 rfl rfl
      rfl rfl (by rw [top]; rintro ⟨⟩)
  | turn i call top innermost at' held clear =>
    obtain ⟨_, same, holds⟩ := sound.reachable.reachable.held held
    obtain rfl := Option.some.inj (at'.symm.trans same)
    refine ⟨?_, sound.turn_seen top innermost at' holds Runloop.turn_outcome⟩
    have kept := turn_keeps source h holds
    exact sound.act (.turn i call at' held) clear innermost at'
      (Runloop.finished_of_active (Runloop.active_of_holds holds)) rfl
      (Runloop.finished_of_active (Runloop.turn_active holds)) Runloop.keeps_turn.kind
      kept.1 kept.2.1 kept.2.2 (by rw [top]; rintro ⟨⟩) (begun_work _)
  | wake i call top innermost at' free waiting =>
    exact sound.resumes (.wake i call at' free waiting) free innermost at'
      (by rw [Call.finished, waiting]) rfl rfl rfl rfl rfl rfl rfl rfl (by rw [top]; rintro ⟨⟩)
  | ran i call top innermost at' free running =>
    have kept : (Runloop.ranOne call).finished = false ∧
        (Runloop.ranOne call).sawQuit = call.sawQuit := by
      unfold Runloop.ranOne
      cases call.kind <;> exact ⟨rfl, rfl⟩
    exact sound.resumes (.ran i call at' free running) free innermost at'
      (by rw [Call.finished, running]) rfl kept.1 Runloop.keeps_ranOne.kind kept.2 rfl rfl
      rfl rfl (by rw [top]; rintro ⟨⟩)
  | unmark i call top innermost at' free leaving =>
    refine ⟨sound.unmark top innermost at' free leaving, ?_⟩
    have open' : call.finished = false := by rw [Call.finished, leaving]
    rcases sound.returns top innermost at' open' with ⟨rfl, _⟩ | ⟨more, frame, rest, rfl⟩
    · exact Or.inl (worker_same rfl rfl rfl (told_set at' rfl rfl) (if_pos rfl))
    · rw [if_neg more.ne']
      exact Or.inr (@Sound.leaves source h i call { call with control := .returned } _ frame rest
        sound top at' rfl rfl rfl rfl rfl)
  | finish call at' returned free =>
    refine ⟨sound.finish at' returned free, ?_⟩
    cases shut : h.runloop.loop.finished with
    | true => exact Or.inl ((worker_shut rfl).trans (worker_shut shut).symm)
    | false =>
      -- `run` has returned, so it was told to quit
      have kind := sound.first call at'
      have mem := List.mem_of_getElem? at'
      have saw : call.sawQuit = true := by
        rcases sound.clear.justified call mem ⟨Or.inr returned, by rw [kind]; rintro ⟨⟩,
          by rw [kind]; rintro ⟨⟩⟩ with quit | ⟨timed, _⟩
        · exact quit
        · rw [kind] at timed
          cases timed
      have alone := (sound.outlasts call at' (by rw [Call.finished, returned])).2 shut
      have goes : Worker.Goes h.worker ⟨[], false, [], true⟩ := by
        rw [worker_open shut]
        refine .ended alone ?_
        rw [told_eq at', saw]
        exact Bool.or_true _
      have ended : ({ h with
          runloop := { h.runloop with loop := h.runloop.loop.finish }
          frames := [] } : Host).worker = ⟨[], false, [], true⟩ := worker_shut rfl
      exact Or.inr (ended ▸ goes)

/-! ## What its queue does to it -/

theorem Sound.perform (sound : h.Sound source) (free : h.runloop.holder = none) (item : WorkItem) :
    (h.perform item).Sound source ∧ (h.perform item).worker = h.worker.perform item := by
  cases shut : h.runloop.loop.finished with
  | true =>
    have same : h.perform item = h := by
      rw [Host.perform, Loop.enqueue, if_pos shut, if_pos shut]
    rw [same]
    exact ⟨sound, by rw [worker_shut shut]; rfl⟩
  | false =>
    have step : Runloop.Step source h.runloop _ := .enqueue free
    have eq : h.perform item = { h with
        runloop := { h.runloop with loop := { h.runloop.loop with
          pending := h.runloop.loop.pending ++ [h.runloop.loop.nextSequence]
          nextSequence := h.runloop.loop.nextSequence + 1 } }
        kinds := h.kinds ++ [item] } := by
      rw [Host.perform, Loop.enqueue, if_neg (by rw [shut]; exact Bool.false_ne_true),
        if_neg (by rw [shut]; exact Bool.false_ne_true)]
    have loop : (h.perform item).runloop = { h.runloop with loop := h.runloop.loop.enqueue } := rfl
    have nested : (h.perform item).runloop.NestedReachable source :=
      sound.reachable_same step rfl
    have clear := sound.clear.step (Runloop.clear_free free) step loop.symm
    have length : (h.kinds ++ [item]).length = h.kinds.length + 1 := List.length_append
    have own (n : Nat) (less : n < h.kinds.length) :
        (h.kinds ++ [item]).getD n .user = h.kinds.getD n .user := by
      simp [List.getElem?_append_left less]
    rw [eq] at nested clear ⊢
    refine ⟨⟨nested, clear, ?_, fun n mem => ?_, sound.unthrown, sound.first, sound.idle,
      sound.loops, sound.outlasts, sound.shut⟩, ?_⟩
    · exact (congrArg (· + 1) sound.length).trans length.symm
    · dsimp only
      rcases List.mem_append.mp mem with mem | mem
      · have := sound.numbered n mem
        omega
      · rw [List.mem_singleton.mp mem, length, sound.length]
        exact Nat.lt_succ_self _
    · have items : (h.runloop.loop.pending ++ [h.runloop.loop.nextSequence]).map
          (fun n => (h.kinds ++ [item]).getD n .user) =
          h.runloop.loop.pending.map h.kind ++ [item] := by
        rw [List.map_append, sound.length]
        congr 1
        · exact List.map_congr_left fun n mem => own n (sound.numbered n mem)
        · simp
      rw [worker_open shut]
      unfold worker
      rw [if_neg (by change ¬ h.runloop.loop.finished = true; rw [shut]; exact Bool.false_ne_true),
        Worker.perform, if_neg Bool.false_ne_true, Worker.mk.injEq]
      exact ⟨items, rfl, rfl, rfl⟩

/-- The thread goes on in what its loop runs. -/
theorem Sound.reframe {frame : Frame} {new rest : List Frame} (sound : h.Sound source)
    (top : h.frames = frame :: rest) (work : frame ≠ .loop) (works : .loop ∉ new) :
    Sound source { h with frames := new ++ rest } ∧
      ({ h with frames := new ++ rest } : Host).worker = { h.worker with frames := new ++ rest } := by
  have going : h.runloop.loop.finished = false := sound.going (by rw [top]; exact nofun)
  refine ⟨⟨sound.reachable, sound.clear, sound.length, sound.numbered, sound.unthrown, sound.first,
    fun none => ?_, fun made _ => ?_, fun call at' past => ?_, fun shut => ?_⟩, ?_⟩
  · rw [sound.idle none] at top
    cases top
  · obtain ⟨count, above, based⟩ := sound.loops made going
    rw [top, List.count_cons_of_ne work] at count
    refine ⟨?_, ?_⟩
    · change (new ++ rest).count .loop = h.nested + 1
      rw [List.count_append, List.count_eq_zero.mpr works, count, Nat.zero_add]
    · cases above with
      | nil =>
        rw [top] at based
        exact absurd (List.cons.inj based).1 work
      | cons first above =>
        rw [top, List.cons_append] at based
        refine ⟨new ++ above, ?_⟩
        rw [(List.cons.inj based).2, List.append_assoc]
  · rw [(sound.outlasts call at' past).2 going] at top
    exact absurd (List.cons.inj top).1.symm work
  · rw [going] at shut
    cases shut
  · rw [worker_open going]
    unfold worker
    rw [if_neg (by rw [going]; exact Bool.false_ne_true)]
    rfl

/-- A finish item's request to quit, and its return. -/
theorem Sound.requestQuit {frame : Frame} {rest : List Frame} (sound : h.Sound source)
    (top : h.frames = frame :: rest) (work : frame ≠ .loop) (free : h.runloop.holder = none) :
    Sound source { h with
      runloop := { h.runloop with loop := h.runloop.loop.requestQuit }
      frames := rest } ∧
    ({ h with
      runloop := { h.runloop with loop := h.runloop.loop.requestQuit }
      frames := rest } : Host).worker = { h.worker with quit := true, frames := rest } := by
  have going : h.runloop.loop.finished = false := sound.going (by rw [top]; exact nofun)
  have kept := sound.quiet (.quit free) (Runloop.clear_free free) rfl rfl rfl rfl
  refine ⟨(@Sound.reframe source _ frame [] rest kept top work List.not_mem_nil).1, ?_⟩
  rw [worker_open going]
  unfold worker
  rw [if_neg (by change ¬ h.runloop.loop.finished = true; rw [going]; exact Bool.false_ne_true)]
  rfl

end Host

end Dross
