import Dross.Thread.WorkerHosts
import Mathlib.Data.Nat.Find

/-!
# A worker's loop gets on

A thread in its loop with something queued on it, or told to quit, comes by steps of its own
to one that its queue sees: an item or a timer's callback is begun, a call returns, or the
thread ends its loop.
-/

namespace Dross

/-- How many steps a running call is at most from one that shows, with something to take. -/
def Control.distance : Control → Nat
  | .entering => 8
  | .marked => 7
  | .running => 6
  | .waiting => 5
  | .looping => 5
  | .next _ => 4
  | .draining false => 4
  | .draining true => 3
  | .leaving => 2
  | .returned => 1
  | .thrown => 0

namespace Runloop

variable {source : TimeSource} {s t : Runloop} {i : Nat} {call : Call}

/-- Whether a call that goes on with the lock is the one that has it. -/
def Owned (s : Runloop) : Prop :=
  ∀ (i : Nat) (call : Call), s.calls[i]? = some call → call.control.holds = true →
    s.holder = some i

theorem Owned.others (owned : s.Owned) (held : ∀ j, s.holder = some j → j = i) (j : Nat)
    (other : Call) (differs : j ≠ i) (there : s.calls[j]? = some other) :
    other.control.holds = false := by
  by_contra holds
  exact differs (held j (owned j other there (by simpa using holds)))

/-- A call goes on without the lock. -/
theorem Owned.drops {call' : Call} (owned : s.Owned) (at' : s.calls[i]? = some call)
    (quiet : call'.control.holds = false) (calls : t.calls = s.calls.set i call')
    (holder : t.holder = s.holder) : t.Owned := by
  intro j other there holds
  rw [calls] at there
  rw [holder]
  by_cases own : i = j
  · subst own
    rw [List.getElem?_set_self (List.getElem?_eq_some_iff.mp at').1] at there
    rw [← Option.some.inj there, quiet] at holds
    cases holds
  · rw [List.getElem?_set_ne own] at there
    exact owned j other there holds

/-- A call goes on that had the lock, or took it from nobody. -/
theorem Owned.puts {call' : Call} (owned : s.Owned) (at' : s.calls[i]? = some call)
    (held : ∀ j, s.holder = some j → j = i) (calls : t.calls = (s.put i call').calls)
    (holder : t.holder = (s.put i call').holder) : t.Owned := by
  intro j other there holds
  rw [calls, put] at there
  rw [holder, put]
  by_cases own : i = j
  · subst own
    rw [List.getElem?_set_self (List.getElem?_eq_some_iff.mp at').1] at there
    rw [Option.some.inj there]
    exact if_pos holds
  · rw [List.getElem?_set_ne own] at there
    rw [owned.others held j other (Ne.symm own) there] at holds
    cases holds

/-- A call begins without the lock. -/
theorem Owned.enters {kind : RunKind} {deadline : TimePoint} (owned : s.Owned)
    (calls : t.calls = s.calls ++ [enter kind deadline]) (holder : t.holder = s.holder) :
    t.Owned := by
  intro j other there holds
  rw [calls] at there
  rw [holder]
  rcases Nat.lt_or_ge j s.calls.length with old | out
  · rw [List.getElem?_append_left old] at there
    exact owned j other there holds
  · rw [List.getElem?_append_right out] at there
    rw [List.mem_singleton.mp (List.mem_of_getElem? there)] at holds
    cases holds

theorem Owned.step (owned : s.Owned) (step : Step source s t) : t.Owned := by
  have nobody (free : s.holder = none) (i j : Nat) (held : s.holder = some j) : j = i := by
    rw [free] at held
    cases held
  cases step with
  | enqueue | installTimer | removeTimer | quit | clear | finish | read => exact owned
  | enter kind untimed => exact owned.enters rfl rfl
  | enterFor timeout => exact owned.enters rfl rfl
  | mark i call at' free entering => exact owned.drops at' rfl rfl rfl
  | start i call at' free marked => exact owned.puts at' (nobody free i) rfl rfl
  | turn i call at' held =>
    exact owned.puts at' (fun j other => Option.some.inj (other.symm.trans held)) rfl rfl
  | wake i call at' free waiting => exact owned.puts at' (nobody free i) rfl rfl
  | ran i call at' free running => exact owned.puts at' (nobody free i) rfl rfl
  | throws i call at' running free => exact owned.drops at' rfl rfl rfl
  | unmark i call at' free leaving => exact owned.drops at' rfl rfl rfl

theorem Reachable.owned (h : Reachable source s) : s.Owned := by
  refine Transition.Reachable.invariant (fun s start => ?_) (fun s t owned step =>
    owned.step step) h
  subst start
  intro j other there
  cases there

end Runloop

namespace Host

variable {source : TimeSource} {h h' : Host} {i : Nat} {call call' : Call}

/-- A step its queue does not see. -/
def Silent (source : TimeSource) (h h' : Host) : Prop :=
  Moves source h h' ∧ h'.worker = h.worker

/-- Whether steps of its own take a worker to one that shows. -/
def GetsOn (source : TimeSource) (h : Host) : Prop :=
  ∃ t u, Relation.ReflTransGen (Silent source) h t ∧ Moves source t u ∧
    Worker.Goes h.worker u.worker

theorem GetsOn.shows (moves : Moves source h h') (goes : Worker.Goes h.worker h'.worker) :
    GetsOn source h := ⟨h, h', .refl, moves, goes⟩

theorem GetsOn.later (silent : Silent source h h') (gets : GetsOn source h') :
    GetsOn source h := by
  obtain ⟨t, u, run, moves, goes⟩ := gets
  exact ⟨t, u, run.head silent, moves, silent.2 ▸ goes⟩

/-- The call a thread is in with its loop at hand: the innermost, or the first once it has
returned. -/
structure At (h : Host) (i : Nat) (call : Call) : Prop where
  at' : h.runloop.calls[i]? = some call
  innermost : h.Innermost i
  open' : call.finished = false ∨ i = 0

/-- Whether a silent step of the call brings it nearer to one that shows. -/
def Nears (source : TimeSource) (h : Host) (i : Nat) (call : Call) : Prop :=
  ∃ h' call', Silent source h h' ∧ h'.frames = h.frames ∧ h'.At i call' ∧
    call'.control.distance < call.control.distance

theorem Sound.free (sound : h.Sound source) (here : h.At i call)
    (idle : call.control.holds = false) : h.runloop.holder = none := by
  cases held : h.runloop.holder with
  | none => rfl
  | some j =>
    obtain ⟨other, there, holds⟩ := sound.reachable.reachable.held held
    have live := Runloop.finished_of_active (Runloop.active_of_holds holds)
    rcases Nat.lt_trichotomy j i with before | rfl | after
    · have still : call.finished = false := by
        rcases here.open' with still | first
        · exact still
        · omega
      rcases sound.reachable.nested.working j i other call before there here.at' still with
        past | running
      · rw [live] at past
        cases past
      · rw [running] at holds
        cases holds
    · rw [Option.some.inj (here.at'.symm.trans there), holds] at idle
      cases idle
    · rw [here.innermost j other after there] at live
      cases live

theorem Sound.exists_at (sound : h.Sound source) (top : h.frames ≠ []) :
    ∃ i call, h.At i call := by
  classical
  have made : h.runloop.calls ≠ [] := fun none => top (sound.idle none)
  have length := List.length_pos_iff.mpr made
  by_cases some' : ∃ (i : Nat) (call : Call), h.runloop.calls[i]? = some call ∧
      call.finished = false
  · obtain ⟨k, known⟩ := some'
    have bound : k ≤ h.runloop.calls.length := by
      obtain ⟨call, there, -⟩ := known
      exact (List.getElem?_eq_some_iff.mp there).1.le
    let still (i : Nat) : Prop :=
      ∃ call : Call, h.runloop.calls[i]? = some call ∧ call.finished = false
    obtain ⟨call, at', open'⟩ := Nat.findGreatest_spec (P := still) bound known
    refine ⟨_, call, at', fun j other after there => ?_, Or.inl open'⟩
    by_contra open'
    exact Nat.findGreatest_is_greatest after (List.getElem?_eq_some_iff.mp there).1.le
      ⟨other, there, by simpa using open'⟩
  · refine ⟨0, h.runloop.calls[0], List.getElem?_eq_getElem length, fun j other _ there => ?_,
      Or.inr rfl⟩
    by_contra still
    exact some' ⟨j, other, there, by simpa using still⟩

/-- A call that goes on has a queue to take from, or a request to quit before it. -/
theorem Sound.due (sound : h.Sound source) (top : h.frames ≠ []) (here : h.At i call)
    (going : call.control ≠ .leaving ∧ call.control ≠ .returned)
    (due : h.worker.items ≠ [] ∨ h.worker.quit = true) :
    h.runloop.loop.pending ≠ [] ∨ h.runloop.loop.quit = true := by
  rw [worker_open (sound.going top)] at due
  rcases due with items | quit
  · exact Or.inl fun none => items (by rw [none]; rfl)
  rcases Bool.or_eq_true _ _ |>.mp quit with quit | told
  · exact Or.inr quit
  have bound := (List.getElem?_eq_some_iff.mp here.at').1
  obtain ⟨first, zero⟩ : ∃ first, h.runloop.calls[0]? = some first :=
    ⟨_, List.getElem?_eq_getElem (Nat.zero_lt_of_lt bound)⟩
  rw [told_eq zero] at told
  have ends := (sound.reachable.reachable.sound first (List.mem_of_getElem? zero)).quits told
  by_cases own : i = 0
  · subst own
    obtain rfl := Option.some.inj (zero.symm.trans here.at')
    rcases ends with leaving | returned
    · exact absurd leaving going.1
    · exact absurd returned going.2
  · -- a call made within the first one, which is not at work
    have open' : call.finished = false := here.open'.resolve_right own
    have past : first.finished = true := by
      rcases sound.reachable.nested.working 0 i first call (Nat.pos_of_ne_zero own) zero here.at'
        open' with past | running
      · exact past
      · rcases ends with other | other <;> rw [running] at other <;> cases other
    have all := (sound.outlasts first zero past).1 call (List.mem_of_getElem? here.at')
    rw [open'] at all
    cases all

/-- A silent step of the call brings it nearer to one that shows. -/
theorem Sound.nears (sound : h.Sound source) (here : h.At i call) (moves : Moves source h h')
    (frames : h'.frames = h.frames) (calls : h'.runloop.calls = h.runloop.calls.set i call')
    (open' : call'.finished = false ∨ i = 0)
    (less : call'.control.distance < call.control.distance) :
    GetsOn source h ∨ h.Nears source i call := by
  rcases (sound.moves moves).2 with same | goes
  · refine Or.inr ⟨h', call', ⟨moves, same⟩, frames, ⟨?_, fun j other after there => ?_, open'⟩,
      less⟩
    · rw [calls, List.getElem?_set_self (List.getElem?_eq_some_iff.mp here.at').1]
    · rw [calls, List.getElem?_set_ne after.ne] at there
      exact here.innermost j other after there
  · exact Or.inl (.shows moves goes)

theorem begun_some {turn : Loop.Turn} (running : turn.2.2.control = .running) :
    h.begun turn ≠ [] := by
  unfold begun
  rw [if_pos running]
  split
  · split <;> exact nofun
  · exact nofun

/-- A turn of the call at hand takes something, or brings the call nearer to what it takes. -/
theorem Sound.turns {frames : List Frame} (sound : h.Sound source)
    (top : h.frames = .loop :: frames) (here : h.At i call) (holds : call.control.holds = true)
    (held : h.runloop.holder = some i)
    (due : h.runloop.loop.pending ≠ [] ∨ h.runloop.loop.quit = true) :
    GetsOn source h ∨ h.Nears source i call := by
  have clear : h.runloop.Clear source := by
    rintro j other held' there ⟨_, _, going, empty, _⟩
    rcases due with some' | quit
    · exact absurd empty some'
    · rw [going] at quit
      cases quit
  have moves : Moves source h _ := .turn i call top here.innermost here.at' held clear
  by_cases running : (h.runloop.turn source.now call).2.2.control = .running
  · refine Or.inl ?_
    rcases (sound.moves moves).2 with same | goes
    · exfalso
      have going := sound.going (by rw [top]; exact nofun)
      have going' : (h.turned i (h.runloop.turn source.now call)).runloop.loop.finished = false :=
        (turn_keeps source h holds).2.2.trans going
      have calls := congrArg Worker.frames same
      rw [worker_open going, worker_open going'] at calls
      exact begun_some running (List.append_left_eq_self.mp calls)
    · exact .shows moves goes
  · refine sound.nears here moves ?_ rfl
      (Or.inl (Runloop.finished_of_active (Runloop.turn_active holds))) ?_
    · rw [turned, begun_none running]
      rfl
    · have outcome : Runloop.Outcome source.now h.runloop call _ := Runloop.turn_outcome
      generalize h.runloop.turn source.now call = turn at outcome running
      cases outcome with
      | looping at' after => rcases after with rfl | rfl <;> simp [at', Control.distance]
      | @next refreshed _ _ at' round =>
        cases round with
        | quits quit => simp [at', Control.distance]
        | timer | task | taskAlone => exact absurd rfl running
        | refresh going _ _ empty | wait going _ empty =>
          rcases due with some' | quit
          · exact absurd empty some'
          · rw [going] at quit
            cases quit
      | draining at' round =>
        cases round with
        | timer | task => exact absurd rfl running
        | timersDone | done => simp [at', Control.distance]
      | unheld free =>
        rw [holds] at free
        cases free

/-- In its loop, with something to take or told to quit, a thread shows its next step, or is
nearer to one after a silent one. -/
theorem Sound.nearer {frames : List Frame} (sound : h.Sound source)
    (top : h.frames = .loop :: frames) (here : h.At i call)
    (due : h.worker.items ≠ [] ∨ h.worker.quit = true) :
    GetsOn source h ∨ h.Nears source i call := by
  have some' : h.frames ≠ [] := by rw [top]; exact nofun
  cases control : call.control with
  | entering =>
    have free := sound.free here (by rw [control]; rfl)
    exact sound.nears here (.mark i call top here.innermost here.at' free control) rfl rfl
      (Or.inl rfl) (by simp [control, Control.distance])
  | marked =>
    have free := sound.free here (by rw [control]; rfl)
    refine sound.nears here (.start i call top here.innermost here.at' free control) rfl rfl
      (Or.inl ?_) ?_
    · unfold Runloop.start
      cases call.kind <;> rfl
    · unfold Runloop.start
      cases call.kind <;> simp [control, Control.distance]
  | looping | next | draining =>
    have holds : call.control.holds = true := by rw [control]; rfl
    have held := sound.reachable.reachable.owned i call here.at' holds
    refine sound.turns top here holds held (sound.due some' here ?_ due)
    rw [control]
    exact ⟨nofun, nofun⟩
  | waiting =>
    have free := sound.free here (by rw [control]; rfl)
    exact sound.nears here (.wake i call top here.innermost here.at' free control) rfl rfl
      (Or.inl rfl) (by simp [control, Control.distance])
  | running =>
    have free := sound.free here (by rw [control]; rfl)
    refine sound.nears here (.ran i call top here.innermost here.at' free control) rfl rfl
      (Or.inl ?_) ?_
    · unfold Runloop.ranOne
      cases call.kind <;> rfl
    · unfold Runloop.ranOne
      cases call.kind with
      | run | runOne | runFor => simp [control, Control.distance]
      | runPending => cases call.timersDone <;> simp [control, Control.distance]
  | leaving =>
    have free := sound.free here (by rw [control]; rfl)
    have moves : Moves source h _ := .unmark i call top here.innermost here.at' free control
    have open' : call.finished = false := by rw [Call.finished, control]
    rcases sound.returns top here.innermost here.at' open' with ⟨rfl, _⟩ | ⟨more, frame, rest, rfl⟩
    · exact sound.nears here moves (by simp) rfl (Or.inr rfl)
        (by simp [control, Control.distance])
    · refine Or.inl (.shows moves ?_)
      rw [if_neg more.ne']
      exact @Sound.leaves source h i call { call with control := .returned } _ frame rest
        sound top here.at' rfl rfl rfl rfl rfl
  | returned =>
    have free := sound.free here (by rw [control]; rfl)
    have past : call.finished = true := by rw [Call.finished, control]
    obtain rfl : i = 0 := by
      rcases here.open' with open' | first
      · rw [past] at open'
        cases open'
      · exact first
    have moves : Moves source h _ := .finish call here.at' control free
    rcases (sound.moves moves).2 with same | goes
    · have ended := congrArg Worker.ended same
      rw [worker_shut rfl, worker_open (sound.going some')] at ended
      cases ended
    · exact Or.inl (.shows moves goes)
  | thrown => exact absurd control (sound.unthrown call (List.mem_of_getElem? here.at'))

/-- A thread in its loop, with something to take or told to quit, comes by silent steps of its
own to one that shows. -/
theorem Sound.gets_on {frames : List Frame} (sound : h.Sound source)
    (top : h.frames = .loop :: frames) (due : h.worker.items ≠ [] ∨ h.worker.quit = true) :
    GetsOn source h := by
  obtain ⟨i, call, here⟩ := sound.exists_at (by rw [top]; exact nofun)
  induction distance : call.control.distance using Nat.strongRecOn generalizing h call with
  | ind n ih =>
    rcases sound.nearer top here due with gets | ⟨h', call', silent, same, there, less⟩
    · exact gets
    · refine .later silent (ih _ (distance ▸ less) (sound.moves silent.1).1 (same.trans top) ?_
        call' there rfl)
      rw [silent.2]
      exact due

end Host

end Dross
