import Dross.Thread.Passes
import Mathlib.Data.List.Nodup

/-!
# The passes of run and run_for are fair

A loop with a memory of what was taken from it and by which call. While a timer is due and
not taken, a task that is taken makes the call read its boundary anew, and then the timer
comes before any other task. While a task is at the front, the pass is not read anew, and
its handled list keeps every timer from a second turn.
-/

namespace Dross

structure Worked where
  runloop : Runloop
  takes : List (Nat × Work)

namespace Work

def timer? : Work → Option Nat
  | timer id => some id
  | task _ => none

def task? : Work → Option Nat
  | timer _ => none
  | task sequence => some sequence

end Work

namespace Runloop

/-- What a turn of a call takes. -/
def taken (now : Nat → TimePoint) (s : Runloop) (call : Call) : Option Work :=
  match call.control with
  | .next _ => s.loop.nextTakes now s.reads call
  | .draining timersDone => s.loop.drainTakes now s.reads call timersDone
  | _ => none

end Runloop

namespace Worked

variable {source : TimeSource} {s t : Worked} {i : Nat} {call : Call}

/-- The timers taken, in order. -/
def timers (s : Worked) : List Nat := s.takes.filterMap (fun take => take.2.timer?)

/-- The tasks taken, in order. -/
def tasks (s : Worked) : List Nat := s.takes.filterMap (fun take => take.2.task?)

/-- A step of the loop, and what it takes. In any step but a turn of the call that holds the
lock, no call comes to run anything. -/
inductive Step (source : TimeSource) (s : Worked) : Worked → Prop
  | turn (i : Nat) (call : Call) (at' : s.runloop.calls[i]? = some call)
      (held : s.runloop.holder = some i) :
      Step source s ⟨s.runloop.turned source i call,
        s.takes ++ (s.runloop.taken source.now call).toList.map (fun work => (i, work))⟩
  | other {runloop : Runloop} (step : Runloop.Step source s.runloop runloop)
      (idle : ∀ (i : Nat) (call : Call), runloop.calls[i]? = some call →
        call.control = .running → s.runloop.calls[i]? = some call) :
      Step source s { s with runloop := runloop }

/-! ## The memory follows the loop -/

theorem Step.runloop (step : Step source s t) : Runloop.Step source s.runloop t.runloop := by
  cases step with
  | turn i call at' held => exact .turn i call at' held
  | other step idle => exact step

/-- A turn takes something when it leaves its call running. -/
theorem taken_isSome {now : Nat → TimePoint} {s : Runloop} (holds : call.control.holds = true) :
    (s.taken now call).isSome = true ↔ (s.turn now call).2.2.control = .running := by
  unfold Runloop.taken
  cases at' : call.control with
  | looping =>
    unfold Runloop.turn Loop.condition
    simp only [at']
    split
    · simp
    · split <;> simp
  | next refreshed =>
    have round := @Runloop.turn_next now s _ _ at'
    generalize s.turn now call = turn at round
    dsimp only
    generalize s.loop.nextTakes now s.reads call = taken at round
    cases round with
    | quits | refresh => simp
    | timer | task | taskAlone => simp
    | wait going idle empty le resting => rcases resting with rfl | rfl <;> simp
  | draining timersDone =>
    unfold Runloop.turn Loop.drain Loop.drainTakes
    simp only [at']
    cases timersDone with
    | false =>
      cases TimerSchedule.takeDue s.loop.timers call.pass.boundary (now s.reads)
        call.pass.handled <;> simp
    | true =>
      cases s.loop.pending with
      | nil => simp
      | cons sequence rest => by_cases early : sequence < call.limit <;> simp [early]
  | entering | marked | waiting | running | leaving | returned | thrown =>
    rw [at'] at holds
    cases holds

/-- Every step of a loop is one of the loop with its memory. -/
theorem follows {runloop : Runloop} (step : Runloop.Step source s.runloop runloop) :
    ∃ t, Step source s t ∧ t.runloop = runloop := by
  have rests {i : Nat} {before after : Call} (there : s.runloop.calls[i]? = some before)
      (resting : after.control ≠ .running) (j : Nat) (call : Call)
      (at' : (s.runloop.calls.set i after)[j]? = some call) (running : call.control = .running) :
      s.runloop.calls[j]? = some call := by
    by_cases own : i = j
    · subst own
      rw [List.getElem?_set_self (List.getElem?_eq_some_iff.mp there).1] at at'
      obtain rfl := Option.some.inj at'
      exact absurd running resting
    · rwa [List.getElem?_set_ne own] at at'
  have enters {kind : RunKind} {deadline : TimePoint} (j : Nat) (call : Call)
      (at' : (s.runloop.calls ++ [Runloop.enter kind deadline])[j]? = some call)
      (running : call.control = .running) : s.runloop.calls[j]? = some call := by
    rcases Nat.lt_or_ge j s.runloop.calls.length with old | new
    · rwa [List.getElem?_append_left old] at at'
    · rw [List.getElem?_append_right new] at at'
      obtain rfl := List.mem_singleton.mp (List.mem_of_getElem? at')
      cases running
  have same (idle : ∀ (i : Nat) (call : Call), runloop.calls[i]? = some call →
      call.control = .running → s.runloop.calls[i]? = some call) :
      ∃ t, Step source s t ∧ t.runloop = runloop := ⟨_, .other step idle, rfl⟩
  cases step with
  | turn i call at' held => exact ⟨_, .turn i call at' held, rfl⟩
  | enqueue | installTimer | removeTimer | quit | clear | finish | read =>
    exact same fun _ _ at' _ => at'
  | enter kind untimed => exact same enters
  | enterFor timeout => exact same enters
  | mark i call at' free entering => exact same (rests at' nofun)
  | start i call at' free marked =>
    refine same (rests at' ?_)
    unfold Runloop.start
    cases call.kind with
    | run | runOne | runFor | runPending => nofun
  | wake i call at' free waiting => exact same (rests at' nofun)
  | ran i call at' free running =>
    refine same (rests at' ?_)
    unfold Runloop.ranOne
    cases call.kind with
    | run | runOne | runFor | runPending => nofun
  | throws i call at' running free => exact same (rests at' nofun)
  | unmark i call at' free leaving => exact same (rests at' nofun)

/-- For a call, a step is a turn of its own with what it takes, or one in which it takes
nothing and has no turn. -/
theorem Step.acts (h : Runloop.Reachable source s.runloop) (step : Step source s t)
    (at' : s.runloop.calls[i]? = some call) :
    (s.runloop.holder = some i ∧ t = ⟨s.runloop.turned source i call,
      s.takes ++ (s.runloop.taken source.now call).toList.map (fun work => (i, work))⟩) ∨
    ((∃ more, t.takes = s.takes ++ more ∧ ∀ take ∈ more, take.1 ≠ i) ∧
      ∃ call', t.runloop.calls[i]? = some call' ∧ (call' = call ∨
        s.runloop.holder = none ∧ Runloop.Moves source s.runloop call t.runloop.reads call')) := by
  have acts := step.runloop.acts at'
  cases step with
  | turn j other there holding =>
    by_cases own : j = i
    · subst own
      obtain rfl := Option.some.inj (at'.symm.trans there)
      exact Or.inl ⟨holding, rfl⟩
    · refine Or.inr ⟨⟨_, rfl, fun take mem => ?_⟩, acts.resolve_left fun mine => ?_⟩
      · obtain ⟨work, _, rfl⟩ := List.mem_map.mp mem
        exact own
      · exact own (Option.some.inj (holding.symm.trans mine.1))
  | @other runloop step idle =>
    rcases acts with ⟨held, turned⟩ | moved
    · left
      have turned : runloop = s.runloop.turned source i call := turned
      obtain ⟨holding, there, holds⟩ := h.held held
      obtain rfl := Option.some.inj (at'.symm.trans there)
      have none : s.runloop.taken source.now call = none := by
        by_contra some
        have running := (taken_isSome holds).mp (Option.isSome_iff_ne_none.mpr some)
        have before := idle i _ (turned ▸ Runloop.turned_call at') running
        have unmoved := congrArg Call.control (Option.some.inj (at'.symm.trans before))
        rw [running] at unmoved
        rw [unmoved] at holds
        cases holds
      exact ⟨held, by rw [none, turned]; simp⟩
    · exact Or.inr ⟨⟨[], (List.append_nil _).symm, nofun⟩, moved⟩

/-! ## The call that takes everything -/

/-- A call of `run` or `run_for` that has taken all that was taken. -/
structure Drives (source : TimeSource) (i : Nat) (s : Worked) (call : Call) : Prop where
  reachable : Runloop.Reachable source s.runloop
  at' : s.runloop.calls[i]? = some call
  kind : call.kind = .run ∨ call.kind = .runFor
  early : call.started = false → s.takes = []

/-- A step is a round of `next` of the call, or takes nothing and leaves its pass. -/
inductive Progress (source : TimeSource) (i : Nat) (s t : Worked) (call call' : Call) : Prop
  | round {work : Option Work} {turn : Loop.Turn}
      (round : Loop.Round source.now s.runloop.reads s.runloop.loop call work turn)
      (pass : call'.pass = turn.2.2.pass)
      (takes : t.takes = s.takes ++ work.toList.map (fun work => (i, work))) :
      Progress source i s t call call'
  | other (takes : t.takes = s.takes) (pass : s.takes = [] ∨ call'.pass = call.pass) :
      Progress source i s t call call'

theorem Drives.other (h : Drives source i s call) {call' : Call}
    (step : Runloop.Step source s.runloop t.runloop) (there : t.runloop.calls[i]? = some call')
    (takes : t.takes = s.takes) : Drives source i t call' := by
  obtain ⟨after, at'', keeps⟩ := step.keeps h.at'
  obtain rfl := Option.some.inj (there.symm.trans at'')
  refine ⟨Transition.Reachable.next h.reachable step, there, ?_, fun early => ?_⟩
  · rw [keeps.kind]
    exact h.kind
  · rw [takes]
    refine h.early ?_
    by_contra started
    rw [keeps.started (by simpa using started)] at early
    cases early

theorem Drives.step (h : Drives source i s call) (step : Step source s t)
    (own : ∀ take ∈ t.takes, take.1 = i) :
    ∃ call', Drives source i t call' ∧ Progress source i s t call call' := by
  rcases step.acts h.reachable h.at' with ⟨held, rfl⟩ | ⟨⟨more, takes, others⟩, call', there, moved⟩
  · obtain ⟨holding, there, holds⟩ := h.reachable.held held
    obtain rfl := Option.some.inj (h.at'.symm.trans there)
    have started := Runloop.started_of_holds holds
    have turn : Runloop.Step source s.runloop (s.runloop.turned source i call) :=
      .turn i call h.at' held
    have there := @Runloop.turned_call source _ _ _ h.at'
    obtain ⟨after, at'', keeps⟩ := turn.keeps h.at'
    obtain rfl := Option.some.inj (there.symm.trans at'')
    refine ⟨_, ⟨Transition.Reachable.next h.reachable turn, there, ?_, fun early => ?_⟩, ?_⟩
    · rw [keeps.kind]
      exact h.kind
    · rw [keeps.started started] at early
      cases early
    cases control : call.control with
    | looping =>
      have none : s.runloop.taken source.now call = none := by simp [Runloop.taken, control]
      refine .other (by simp [none]) (Or.inr ?_)
      unfold Runloop.turn Loop.condition
      simp only [control]
      split
      · rfl
      · split <;> rfl
    | next refreshed =>
      refine .round (Runloop.turn_next control) rfl ?_
      simp [Runloop.taken, control]
    | draining timersDone =>
      have sound := h.reachable.sound call (List.mem_of_getElem? h.at')
      have kind := h.kind
      rw [sound.pending timersDone control] at kind
      rcases kind with kind | kind <;> cases kind
    | entering | marked | waiting | running | leaving | returned | thrown =>
      rw [control] at holds
      cases holds
  · have none : more = [] := by
      rw [List.eq_nil_iff_forall_not_mem]
      intro take mem
      exact others take mem (own take (takes ▸ List.mem_append_right _ mem))
    have takes : t.takes = s.takes := by rw [takes, none, List.append_nil]
    refine ⟨call', h.other step.runloop there takes, .other takes ?_⟩
    rcases moved with rfl | ⟨free, moves⟩
    · exact Or.inr rfl
    · cases started : call.started with
      | true => exact Or.inr (moves.pass free started).2.2
      | false => exact Or.inl (h.early started)

/-! ## Within a pass, and past its end -/

/-- All that was taken are timers, each once, and all of them in the pass of the call. -/
structure InPass (s : Worked) (call : Call) : Prop where
  tasks : s.tasks = []
  once : s.timers.Nodup
  handled : ∀ id ∈ s.timers, id ∈ call.pass.handled

/-- The call has a pass in which a timer is due and not handled; at most one task was taken,
and no timer more than once before the pass and once in it. -/
structure InNextPass (which : Slot) (s : Worked) (call : Call) : Prop where
  tasks : s.tasks.length ≤ 1
  due : which.deadline ≤ call.pass.boundary
  untaken : which.id ∉ call.pass.handled
  twice : ∀ id, s.timers.count id ≤ if id ∈ call.pass.handled then 2 else 1

theorem takes_append {work : Option Work}
    (takes : t.takes = s.takes ++ work.toList.map (fun work => (i, work))) :
    t.timers = s.timers ++ (work.bind Work.timer?).toList ∧
      t.tasks = s.tasks ++ (work.bind Work.task?).toList := by
  unfold timers tasks
  rw [takes, List.filterMap_append, List.filterMap_append]
  cases work with
  | none => exact ⟨rfl, rfl⟩
  | some work =>
    cases work with
    | timer id => exact ⟨rfl, rfl⟩
    | task sequence => exact ⟨rfl, rfl⟩

theorem takes_same (takes : t.takes = s.takes) : t.timers = s.timers ∧ t.tasks = s.tasks := by
  unfold timers tasks
  rw [takes]
  exact ⟨rfl, rfl⟩

theorem InPass.start (none : s.takes = []) : InPass s call := by
  have timers : s.timers = [] := by
    unfold timers
    rw [none]
    rfl
  have tasks : s.tasks = [] := by
    unfold Worked.tasks
    rw [none]
    rfl
  exact ⟨tasks, timers ▸ List.nodup_nil, timers ▸ nofun⟩

theorem InPass.same {call' : Call} (h : InPass s call) (takes : t.takes = s.takes)
    (pass : call'.pass = call.pass) : InPass t call' := by
  obtain ⟨timers, tasks⟩ := takes_same takes
  exact ⟨tasks ▸ h.tasks, timers ▸ h.once, timers ▸ pass ▸ h.handled⟩

theorem InPass.timer {call' : Call} {id : Nat} (h : InPass s call)
    (takes : t.takes = s.takes ++ [(i, .timer id)]) (new : id ∉ call.pass.handled)
    (handled : call'.pass.handled = call.pass.handled ++ [id]) : InPass t call' := by
  obtain ⟨timers, tasks⟩ := @takes_append _ _ _ (some (.timer id)) takes
  have timers : t.timers = s.timers ++ [id] := timers
  constructor
  · rw [tasks, h.tasks]
    rfl
  · rw [timers, List.nodup_append]
    refine ⟨h.once, List.pairwise_singleton _ _, ?_⟩
    rintro other mem last same rfl
    exact new (List.mem_singleton.mp same ▸ h.handled other mem)
  · rw [timers, handled]
    intro other mem
    rcases List.mem_append.mp mem with old | last
    · exact List.mem_append_left _ (h.handled other old)
    · exact List.mem_append_right _ last

/-- While a task is at the front, a pass goes on. -/
theorem InPass.front {call' : Call} {sequence : Nat} (h : InPass s call)
    (front : s.runloop.loop.pending.head? = some sequence)
    (untaken : ∀ take ∈ t.takes, take.2 ≠ .task sequence)
    (progress : Progress source i s t call call') : InPass t call' := by
  have queued : s.runloop.loop.pending ≠ [] := by
    intro empty
    rw [empty] at front
    cases front
  have first {other : Nat} {rest : List Nat} (popped : s.runloop.loop.pending = other :: rest) :
      other = sequence := by
    rw [popped] at front
    exact Option.some.inj front
  cases progress with
  | other takes pass =>
    rcases pass with none | pass
    · exact .start (takes.trans none)
    · exact h.same takes pass
  | round round pass takes =>
    cases round with
    | quits quit => exact h.same (by simpa using takes) pass
    | timer going due =>
      exact h.timer takes (TimerSchedule.takeDue_due due).2 (congrArg Pass.handled pass)
    | task going timers idle popped =>
      exact absurd (congrArg Work.task (first popped)) (untaken (i, _) (by simp [takes]))
    | taskAlone going timers popped =>
      exact absurd (congrArg Work.task (first popped)) (untaken (i, _) (by simp [takes]))
    | refresh going timers idle empty => exact absurd empty queued
    | wait going idle empty le resting => exact absurd empty queued

theorem InNextPass.enter {which : Slot} {call' : Call} (h : InPass s call) {work : Option Work}
    (takes : t.takes = s.takes ++ work.toList.map (fun work => (i, work)))
    (task : work.bind Work.timer? = none) (due : which.deadline ≤ call'.pass.boundary)
    (handled : call'.pass.handled = []) : InNextPass which t call' := by
  obtain ⟨timers, tasks⟩ := takes_append takes
  have timers : t.timers = s.timers := by
    rw [timers, task]
    exact List.append_nil _
  refine ⟨?_, due, by simp [handled], fun id => ?_⟩
  · rw [tasks, h.tasks, List.nil_append]
    cases work.bind Work.task? with
    | none => exact Nat.zero_le 1
    | some task => exact Nat.le_refl 1
  · rw [timers, handled, if_neg List.not_mem_nil]
    exact List.nodup_iff_count_le_one.mp h.once id

theorem InNextPass.same {which : Slot} {call' : Call} (h : InNextPass which s call)
    (takes : t.takes = s.takes) (pass : call'.pass = call.pass) : InNextPass which t call' := by
  obtain ⟨timers, tasks⟩ := takes_same takes
  exact ⟨tasks ▸ h.tasks, pass ▸ h.due, pass ▸ h.untaken, timers ▸ pass ▸ h.twice⟩

theorem InNextPass.timer {which : Slot} {call' : Call} {id : Nat} (h : InNextPass which s call)
    (takes : t.takes = s.takes ++ [(i, .timer id)]) (new : id ∉ call.pass.handled)
    (pass : call'.pass = ⟨call.pass.boundary, call.pass.handled ++ [id]⟩) (other : id ≠ which.id) :
    InNextPass which t call' := by
  obtain ⟨timers, tasks⟩ := @takes_append _ _ _ (some (.timer id)) takes
  have timers : t.timers = s.timers ++ [id] := timers
  have tasks : t.tasks = s.tasks := tasks.trans (List.append_nil _)
  refine ⟨tasks ▸ h.tasks, pass ▸ h.due, ?_, fun again => ?_⟩
  · rw [pass]
    intro mem
    rcases List.mem_append.mp mem with old | last
    · exact h.untaken old
    · exact other (List.mem_singleton.mp last).symm
  · have before := h.twice again
    rw [timers, pass, List.count_append, List.count_singleton]
    by_cases same : id = again
    · subst same
      rw [if_neg new] at before
      simp
      omega
    · simpa [same, Ne.symm same] using before

/-- While a timer is due and is not taken, there is at most one pass more. -/
theorem InNextPass.awaits {which : Slot} {call' : Call}
    (h : InPass s call ∨ InNextPass which s call)
    (installed : which ∈ s.runloop.loop.timers)
    (due : which.deadline ≤ source.now s.runloop.reads)
    (untaken : ∀ take ∈ t.takes, take.2 ≠ .timer which.id)
    (progress : Progress source i s t call call') :
    InPass t call' ∨ InNextPass which t call' := by
  have later : which.deadline ≤ source.now (s.runloop.reads + 1) :=
    due.trans (source.monotone _ _ (Nat.le_succ _))
  have candidate (h : InNextPass which s call) (idle : s.runloop.loop.NoneDue call) : False := by
    have late := idle which installed
    rw [TimerSchedule.due_iff.mpr ⟨h.due, h.untaken⟩] at late
    cases late
  cases progress with
  | other takes pass =>
    rcases pass with none | pass
    · exact Or.inl (.start (takes.trans none))
    · exact h.imp (fun h => h.same takes pass) (fun h => h.same takes pass)
  | round round pass takes =>
    cases round with
    | quits quit =>
      have takes : t.takes = s.takes := by simpa using takes
      exact h.imp (fun h => h.same takes pass) (fun h => h.same takes pass)
    | @timer other slots going taken =>
      have new := (TimerSchedule.takeDue_due taken).2
      refine h.imp (fun h => h.timer takes new (congrArg Pass.handled pass))
        (fun h => h.timer takes new pass ?_)
      intro same
      exact untaken (i, .timer other.id) (by simp [takes]) (congrArg Work.timer same)
    | task going timers idle popped =>
      rcases h with h | h
      · exact Or.inr (.enter h takes rfl (pass ▸ later) (congrArg Pass.handled pass))
      · exact (candidate h idle).elim
    | taskAlone going timers popped => exact absurd timers (List.ne_nil_of_mem installed)
    | refresh going timers idle empty =>
      rcases h with h | h
      · exact Or.inr (.enter h takes rfl (pass ▸ later) (congrArg Pass.handled pass))
      · exact (candidate h idle).elim
    | wait going idle empty le resting =>
      rcases h with h | h
      · exact Or.inl (h.same (by simpa using takes) pass)
      · exact (candidate h idle).elim

/-- A round of `next` with a task at the front takes something. -/
theorem nextTakes_front {now : Nat → TimePoint} {reads : Nat} {loop : Loop} {sequence : Nat}
    (going : loop.quit = false) (front : loop.pending.head? = some sequence) :
    (loop.nextTakes now reads call).isSome = true := by
  unfold Loop.nextTakes
  rw [going, if_neg Bool.false_ne_true, front]
  split <;> rfl

/-! ## Between two takes -/

/-- A step before a timer that is due is taken, with work taken by one call alone. -/
def WhileDue (source : TimeSource) (i : Nat) (which : Slot) (s t : Worked) : Prop :=
  Step source s t ∧ which ∈ t.runloop.loop.timers ∧
    ∀ take ∈ t.takes, take.1 = i ∧ take.2 ≠ .timer which.id

/-- A step before the task at the front is taken, with work taken by one call alone. -/
def WhileFront (source : TimeSource) (i : Nat) (sequence : Nat) (s t : Worked) : Prop :=
  Step source s t ∧ t.runloop.loop.pending.head? = some sequence ∧
    ∀ take ∈ t.takes, take.1 = i ∧ take.2 ≠ .task sequence

/-- Whoever else posts, installs or removes: within one call of `run` or `run_for`, at most one
task is taken while a timer is due, and no other timer more than twice; while a task is at the
front, no timer is taken twice, and each round of `next` takes one of them or the task. -/
theorem pass_fairness (source : TimeSource) (s : Runloop) (h : Runloop.Reachable source s)
    (i : Nat) (call : Call) (at' : s.calls[i]? = some call)
    (kind : call.kind = .run ∨ call.kind = .runFor) :
    (∀ which ∈ s.loop.timers, which.deadline ≤ source.now s.reads →
      ∀ t, Relation.ReflTransGen (WhileDue source i which) ⟨s, []⟩ t →
        t.tasks.length ≤ 1 ∧ ∀ id, t.timers.count id ≤ 2) ∧
    (∀ sequence, s.loop.pending.head? = some sequence →
      ∀ t, Relation.ReflTransGen (WhileFront source i sequence) ⟨s, []⟩ t →
        t.tasks = [] ∧ t.timers.Nodup ∧
        ∀ call' refreshed, t.runloop.calls[i]? = some call' →
          call'.control = .next refreshed → t.runloop.loop.quit = false →
          (t.runloop.taken source.now call').isSome = true) := by
  have start : Drives source i ⟨s, []⟩ call := ⟨h, at', kind, fun _ => rfl⟩
  constructor
  · intro which installed due t run
    have known := Transition.preserved (P := fun u => which ∈ u.runloop.loop.timers ∧
      which.deadline ≤ source.now u.runloop.reads ∧
      ∃ call, Drives source i u call ∧ (InPass u call ∨ InNextPass which u call)) ?_
      ⟨installed, due, call, start, Or.inl (.start rfl)⟩ run
    · obtain ⟨_, _, call', _, pass | pass⟩ := known
      · refine ⟨by simp [pass.tasks], fun id => ?_⟩
        exact (List.nodup_iff_count_le_one.mp pass.once id).trans (by decide)
      · refine ⟨pass.tasks, fun id => (pass.twice id).trans ?_⟩
        split
        · exact Nat.le_refl 2
        · decide
    · rintro u v ⟨installed, due, call, drives, pass⟩ ⟨step, stays, takes⟩
      obtain ⟨call', drives', progress⟩ := drives.step step (fun take mem => (takes take mem).1)
      refine ⟨stays, due.trans (source.monotone _ _ step.runloop.calls.1), call', drives', ?_⟩
      exact InNextPass.awaits pass installed due (fun take mem => (takes take mem).2) progress
  · intro sequence front t run
    have known := Transition.preserved (P := fun u =>
      u.runloop.loop.pending.head? = some sequence ∧
      ∃ call, Drives source i u call ∧ InPass u call) ?_ ⟨front, call, start, .start rfl⟩ run
    · obtain ⟨front, call', drives, pass⟩ := known
      refine ⟨pass.tasks, pass.once, fun other refreshed there next going => ?_⟩
      simp only [Runloop.taken, next]
      exact nextTakes_front going front
    · rintro u v ⟨front, call, drives, pass⟩ ⟨step, stays, takes⟩
      obtain ⟨call', drives', progress⟩ := drives.step step (fun take mem => (takes take mem).1)
      exact ⟨stays, call', drives', pass.front front (fun take mem => (takes take mem).2) progress⟩

/-- A repeating timer of no interval and a task, and a call of `run` at its first round. -/
def crowded : Runloop :=
  ⟨⟨[0], [⟨0, true, 0, 0⟩], 1, 1, false, false⟩,
    [{ Runloop.enter .run noDeadline with outermost := true, control := .next false }], some 0, 1⟩

theorem crowded_reachable : Runloop.Reachable Runloop.stoppedClock crowded := by
  have installed := (@Runloop.reachable_initial Runloop.stoppedClock).step
    (.installTimer ⟨0, true, 0, 0⟩ rfl nofun) rfl
  have queued := installed.step (.enqueue rfl) rfl
  have entered := queued.step (.enter .run nofun) rfl
  have marked := entered.step (.mark 0 _ rfl rfl rfl) rfl
  have started := marked.step (.start 0 _ rfl rfl rfl) rfl
  exact started.step (.turn 0 _ rfl rfl) rfl

/-- The timer is taken once before the task. -/
theorem pass_fairness_crowded : ∃ t : Worked, t.timers = [0] ∧ t.tasks = [] ∧ t.timers.Nodup := by
  have run : ∃ t : Worked, t.timers = [0] ∧
      Relation.ReflTransGen (WhileFront Runloop.stoppedClock 0 0) ⟨crowded, []⟩ t :=
    ⟨_, rfl, .single ⟨.turn 0 _ rfl rfl, rfl, by decide⟩⟩
  obtain ⟨t, taken, run⟩ := run
  have fair := (pass_fairness Runloop.stoppedClock crowded crowded_reachable 0 _ rfl (Or.inl rfl)).2
    0 rfl t run
  exact ⟨t, taken, fair.1, fair.2.1⟩

end Worked

end Dross
