import Dross.Thread.Passes
import Mathlib.Data.List.Count

/-!
# Nested running calls and quit

The running calls on a loop belong to its thread: one made within the work of another
ends before that work does. The outermost call is the one that clears a request to
quit, whatever has been thrown in the meantime.
-/

namespace Dross

namespace Call

/-- Whether a call has its `running_mark`. -/
def active (call : Call) : Bool :=
  match call.control with
  | .entering | .returned | .thrown => false
  | _ => true

def finished (call : Call) : Bool :=
  match call.control with
  | .returned | .thrown => true
  | _ => false

end Call

/-- `is_running` -/
def Loop.isRunning (loop : Loop) : Bool := decide (loop.depth > 0)

namespace Runloop

variable {source : TimeSource} {now : Nat → TimePoint} {s t u : Runloop} {call : Call} {i : Nat}

/-! ## The depth -/

theorem active_of_holds (holds : call.control.holds = true) : call.active = true := by
  unfold Call.active
  cases control : call.control with
  | entering | returned | thrown =>
    rw [control] at holds
    cases holds
  | marked | looping | next | draining | waiting | running | leaving => rfl

theorem turn_active (holds : call.control.holds = true) : (s.turn now call).2.2.active = true := by
  have outcome := @turn_outcome now s call
  generalize s.turn now call = turn at outcome
  cases outcome with
  | looping at' after => rcases after with rfl | rfl <;> rfl
  | next at' round =>
    cases round with
    | wait going idle empty le resting => rcases resting with rfl | rfl <;> rfl
    | _ => rfl
  | draining at' round => cases round <;> rfl
  | unheld free => exact active_of_holds holds

theorem turn_depth : (s.turn now call).1.depth = s.loop.depth := by
  have outcome := @turn_outcome now s call
  generalize s.turn now call = turn at outcome
  cases outcome with
  | next at' round => cases round <;> rfl
  | draining at' round => cases round <;> rfl
  | looping | unheld => rfl

theorem start_active : (s.start now call).active = true := by
  unfold Runloop.start
  cases call.kind with
  | run | runOne | runFor | runPending => rfl

theorem ranOne_active : (ranOne call).active = true := by
  unfold ranOne
  cases call.kind with
  | run | runOne | runFor | runPending => rfl

/-- The number of active calls after one of them changes. -/
theorem count_set {calls : List Call} {call' : Call} (at' : calls[i]? = some call) :
    (calls.set i call').countP Call.active + (if call.active then 1 else 0) =
      calls.countP Call.active + (if call'.active then 1 else 0) := by
  obtain ⟨bound, same⟩ := List.getElem?_eq_some_iff.mp at'
  rw [List.countP_set bound, same]
  have some (active : call.active = true) : 0 < calls.countP Call.active :=
    List.countP_pos_iff.mpr ⟨call, List.mem_of_getElem? at', active⟩
  split
  · rename_i active
    have := some active
    omega
  · omega

theorem count_kept {calls : List Call} {call' : Call} (at' : calls[i]? = some call)
    (active : call.active = true) (active' : call'.active = true) :
    (calls.set i call').countP Call.active = calls.countP Call.active := by
  have count := @count_set call i calls call' at'
  rw [active, active'] at count
  exact Nat.succ.inj count

/-- The depth is the number of active calls, in every run. -/
theorem depth_eq (h : Reachable source s) : s.loop.depth = s.calls.countP Call.active := by
  suffices s.loop.depth = s.calls.countP Call.active ∧ Reachable source s from this.1
  refine Transition.Reachable.invariant (P := fun s => s.loop.depth = s.calls.countP Call.active ∧
    Reachable source s) ?_ ?_ h
  · rintro s rfl
    exact ⟨rfl, reachable_initial⟩
  · rintro s t ⟨depth, reachable⟩ step
    refine ⟨?_, reachable.next step⟩
    have entered (kind : RunKind) (deadline : TimePoint) :
        s.loop.depth = (s.calls ++ [Runloop.enter kind deadline]).countP Call.active := by
      rw [depth, List.countP_append]
      rfl
    cases step with
    | enqueue =>
      unfold Loop.enqueue
      split <;> exact depth
    | installTimer =>
      unfold Loop.installTimer
      split <;> exact depth
    | removeTimer | quit | clear | finish | read => exact depth
    | enter kind untimed => exact entered kind _
    | enterFor timeout => exact entered _ _
    | mark i call at' free entering =>
      have count := @count_set call i s.calls
        { call with outermost := s.loop.depth == 0, control := .marked } at'
      have inactive : call.active = false := by rw [Call.active, entering]
      rw [inactive] at count
      exact (congrArg Nat.succ depth).trans count.symm
    | start i call at' free marked =>
      have active : call.active = true := by rw [Call.active, marked]
      exact depth.trans (count_kept at' active start_active).symm
    | turn i call at' held =>
      obtain ⟨call', same, holds⟩ := reachable.held held
      obtain rfl := Option.some.inj (at'.symm.trans same)
      exact turn_depth.trans
        (depth.trans (count_kept at' (active_of_holds holds) (turn_active holds)).symm)
    | wake i call at' free waiting =>
      have active : call.active = true := by rw [Call.active, waiting]
      exact depth.trans (count_kept at' active rfl).symm
    | ran i call at' free running =>
      have active : call.active = true := by rw [Call.active, running]
      exact depth.trans (count_kept at' active ranOne_active).symm
    | throws i call at' running free =>
      have active : call.active = true := by rw [Call.active, running]
      have count := @count_set call i s.calls { call with control := .thrown } at'
      rw [active] at count
      exact (congrArg (· - 1) depth).trans (Nat.sub_eq_of_eq_add count.symm)
    | unmark i call at' free leaving =>
      have active : call.active = true := by rw [Call.active, leaving]
      have count := @count_set call i s.calls { call with control := .returned } at'
      rw [active] at count
      exact (congrArg (· - 1) depth).trans (Nat.sub_eq_of_eq_add count.symm)

/-- A call is active on a loop that is running, and on no other. -/
theorem isRunning_iff (h : Reachable source s) :
    s.loop.isRunning = true ↔ ∃ call ∈ s.calls, call.active = true := by
  rw [Loop.isRunning, decide_eq_true_iff, depth_eq h]
  exact List.countP_pos_iff

/-! ## A request to quit -/

/-- The call has seen the request, and is on its way out. -/
theorem turn_quits {refreshed : Bool} (at' : call.control = .next refreshed)
    (quit : s.loop.quit = true) :
    s.turn now call = ({ s.loop with quit := ! call.outermost }, s.reads,
      { call with sawQuit := true, control := .leaving }) := by
  simp [Runloop.turn, at', Loop.next, quit]

/-- Whatever else a turn does, it leaves a request to quit. -/
theorem turn_quit (notNext : ∀ refreshed, call.control ≠ .next refreshed) :
    (s.turn now call).1.quit = s.loop.quit := by
  have outcome := @turn_outcome now s call
  generalize s.turn now call = turn at outcome
  cases outcome with
  | @next refreshed _ _ at' round => exact absurd at' (notNext refreshed)
  | draining at' round => cases round <;> rfl
  | looping | unheld => rfl

/-- Only `next` clears a request to quit, for an outermost call, and takes nothing. -/
theorem Step.clears (step : Step source s t) (quit : s.loop.quit = true)
    (cleared : t.loop.quit = false) :
    ∃ i call refreshed, s.calls[i]? = some call ∧ s.holder = some i ∧
      call.control = .next refreshed ∧ call.outermost = true ∧ t = s.turned source i call := by
  have kept {P : Prop} (same : t.loop.quit = s.loop.quit) : P := by
    rw [same, quit] at cleared
    cases cleared
  cases step with
  | turn i call at' held =>
    have own : ∃ refreshed, call.control = .next refreshed := by
      by_contra none
      have same := @turn_quit source.now s call fun refreshed here => none ⟨refreshed, here⟩
      exact kept same
    obtain ⟨refreshed, here⟩ := own
    refine ⟨i, call, refreshed, at', held, here, ?_, rfl⟩
    dsimp only at cleared
    rw [turn_quits here quit] at cleared
    simpa using cleared
  | enqueue =>
    refine kept ?_
    unfold Loop.enqueue
    split <;> rfl
  | installTimer =>
    refine kept ?_
    unfold Loop.installTimer
    split <;> rfl
  | quit => cases cleared
  | _ => exact kept rfl

/-- A call that has nothing more to do takes nothing more. -/
theorem Step.stops (step : Step source s t) (at' : s.calls[i]? = some call)
    (past : call.control = .leaving ∨ call.control = .returned) :
    ∃ call', t.calls[i]? = some call' ∧
      (call'.control = .leaving ∨ call'.control = .returned) ∧ call'.ran = call.ran := by
  have not {control : Control} (here : call.control = control) (leaving : control ≠ .leaving)
      (returned : control ≠ .returned) : False := by
    rcases past with other | other
    · exact leaving (here.symm.trans other)
    · exact returned (here.symm.trans other)
  rcases step.acts at' with ⟨held, rfl⟩ | ⟨call', there, rfl | ⟨free, moves⟩⟩
  · have rests : s.turn source.now call = (s.loop, s.reads, call) := by
      rcases past with here | here
      · rw [Runloop.turn, here]
      · rw [Runloop.turn, here]
    refine ⟨call, ?_, past, rfl⟩
    rw [turned_call at', rests]
  · exact ⟨call', there, past, rfl⟩
  · generalize t.reads = reads at moves
    cases moves with
    | mark outermost here => exact (not here nofun nofun).elim
    | start here => exact (not here nofun nofun).elim
    | turn j there held =>
      rw [free] at held
      cases held
    | wake here => exact (not here nofun nofun).elim
    | ran here => exact (not here nofun nofun).elim
    | throws here => exact (not here nofun nofun).elim
    | unmark leaving => exact ⟨_, there, Or.inr rfl, rfl⟩

/-! ## Nesting -/

/-- A step of calls that are made on one thread: a call acts when those made after it have ended,
and one is made when all that have not ended are at work. -/
structure NestedStep (source : TimeSource) (s t : Runloop) : Prop where
  step : Step source s t
  acts : ∀ i : Nat, s.calls[i]? ≠ t.calls[i]? → ∀ (j : Nat) (call : Call), i < j →
    s.calls[j]? = some call → call.finished = true
  makes : s.calls.length < t.calls.length → ∀ call ∈ s.calls,
    call.finished = true ∨ call.control = .running

def NestedReachable (source : TimeSource) : Runloop → Prop :=
  Transition.Reachable (· = initial) (NestedStep source)

theorem NestedReachable.reachable (h : NestedReachable source s) : Reachable source s :=
  h.mono fun _ _ nested => nested.step

structure Nested (s : Runloop) : Prop where
  /-- All but the last of the calls that have not ended are at work. -/
  working : ∀ (i j : Nat) (call other : Call), i < j → s.calls[i]? = some call →
    s.calls[j]? = some other →
    other.finished = false → call.finished = true ∨ call.control = .running
  outermost : ∀ (i : Nat) (call : Call), s.calls[i]? = some call → call.active = true →
    (call.outermost = true ↔
      ∀ (j : Nat) (other : Call), j < i → s.calls[j]? = some other → other.finished = true)

theorem turn_outermost : (s.turn now call).2.2.outermost = call.outermost := by
  have outcome := @turn_outcome now s call
  generalize s.turn now call = turn at outcome
  cases outcome with
  | next at' round => cases round <;> rfl
  | draining at' round => cases round <;> rfl
  | looping | unheld => rfl

/-- What a step does to the calls: it marks one, or one that is active goes on or ends. -/
theorem Step.changes (step : Step source s t) (h : Reachable source s) :
    t.calls = s.calls ∨
      (∃ kind deadline, t.calls = s.calls ++ [Runloop.enter kind deadline]) ∨
      ∃ i call call', s.calls[i]? = some call ∧ t.calls = s.calls.set i call' ∧
        (call.control = .entering ∧ call'.outermost = (s.loop.depth == 0) ∨
          call.active = true ∧ call'.outermost = call.outermost) := by
  have goes {i : Nat} {call call' : Call} {control : Control} (at' : s.calls[i]? = some call)
      (here : call.control = control) (active : ({ call with control := control } : Call).active = true)
      (same : call'.outermost = call.outermost) :
      ∃ j before after, s.calls[j]? = some before ∧ s.calls.set i call' = s.calls.set j after ∧
        (before.control = .entering ∧ after.outermost = (s.loop.depth == 0) ∨
          before.active = true ∧ after.outermost = before.outermost) := by
    refine ⟨i, call, call', at', rfl, Or.inr ⟨?_, same⟩⟩
    subst here
    exact active
  cases step with
  | enqueue | installTimer | removeTimer | quit | clear | finish | read => exact Or.inl rfl
  | enter kind untimed => exact Or.inr (Or.inl ⟨kind, _, rfl⟩)
  | enterFor timeout => exact Or.inr (Or.inl ⟨.runFor, _, rfl⟩)
  | mark i call at' free entering =>
    exact Or.inr (Or.inr ⟨i, call, _, at', rfl, Or.inl ⟨entering, rfl⟩⟩)
  | start i call at' free marked =>
    refine Or.inr (Or.inr (goes at' marked rfl ?_))
    unfold Runloop.start
    cases call.kind with
    | run | runOne | runFor | runPending => rfl
  | turn i call at' held =>
    obtain ⟨call', same, holds⟩ := h.held held
    obtain rfl := Option.some.inj (at'.symm.trans same)
    exact Or.inr (Or.inr (goes at' rfl (active_of_holds holds) turn_outermost))
  | wake i call at' free waiting => exact Or.inr (Or.inr (goes at' waiting rfl rfl))
  | ran i call at' free running =>
    refine Or.inr (Or.inr (goes at' running rfl ?_))
    unfold ranOne
    cases call.kind with
    | run | runOne | runFor | runPending => rfl
  | throws i call at' running free => exact Or.inr (Or.inr (goes at' running rfl rfl))
  | unmark i call at' free leaving => exact Or.inr (Or.inr (goes at' leaving rfl rfl))

theorem finished_of_active (active : call.active = true) : call.finished = false := by
  unfold Call.active at active
  unfold Call.finished
  cases control : call.control with
  | returned | thrown | entering => simp [control] at active
  | marked | looping | next | draining | waiting | running | leaving => rfl

/-- A call that is marked is outermost if those before it have all ended. -/
theorem Nested.marked (h : Nested s) (reachable : Reachable source s)
    (at' : s.calls[i]? = some call)
    (entering : call.control = .entering)
    (last : ∀ (j : Nat) (other : Call), i < j → s.calls[j]? = some other → other.finished = true) :
    (s.loop.depth == 0) = true ↔
      ∀ (j : Nat) (other : Call), j < i → s.calls[j]? = some other → other.finished = true := by
  have waits : call.finished = false := by rw [Call.finished, entering]
  rw [beq_iff_eq, depth_eq reachable, List.countP_eq_zero]
  constructor
  · intro none j other before there
    rcases h.working j i other call before there at' waits with past | running
    · exact past
    · have active : other.active = true := by rw [Call.active, running]
      exact absurd active (none other (List.mem_of_getElem? there))
  · intro past other mem active
    obtain ⟨j, there⟩ := List.mem_iff_getElem?.mp mem
    have still := finished_of_active active
    rcases Nat.lt_trichotomy j i with before | rfl | after
    · rw [past j other before there] at still
      cases still
    · obtain rfl := Option.some.inj (at'.symm.trans there)
      rw [Call.active, entering] at active
      cases active
    · rw [last j other after there] at still
      cases still

theorem Nested.step (h : Nested s) (reachable : Reachable source s)
    (nested : NestedStep source s t) :
    Nested t := by
  rcases nested.step.changes reachable with same | ⟨kind, deadline, more⟩ |
      ⟨i, call, call', at', set, change⟩
  · refine ⟨?_, ?_⟩
    · rw [same]
      exact h.working
    · rw [same]
      exact h.outermost
  · have old {j : Nat} (bound : j < s.calls.length) : t.calls[j]? = s.calls[j]? := by
      rw [more, List.getElem?_append_left bound]
    have last {j : Nat} {other : Call} (there : t.calls[j]? = some other)
        (out : ¬ j < s.calls.length) : other = Runloop.enter kind deadline := by
      rw [more, List.getElem?_append_right (Nat.le_of_not_lt out)] at there
      exact List.mem_singleton.mp (List.mem_of_getElem? there)
    have bounded {j : Nat} {other : Call} (there : t.calls[j]? = some other) :
        j < s.calls.length + 1 := by
      have bound := (List.getElem?_eq_some_iff.mp there).1
      rwa [more, List.length_append] at bound
    constructor
    · intro i j call other before here there still
      have early : i < s.calls.length := by
        have := bounded there
        omega
      rw [old early] at here
      by_cases inside : j < s.calls.length
      · rw [old inside] at there
        exact h.working i j call other before here there still
      · refine nested.makes ?_ call (List.mem_of_getElem? here)
        rw [more, List.length_append]
        exact Nat.lt_succ_self _
    · intro i call here active
      have inside : i < s.calls.length := by
        by_contra out
        rw [last here out] at active
        cases active
      rw [old inside] at here
      rw [h.outermost i call here active]
      refine forall_congr' fun j => forall_congr' fun other => forall_congr' fun before => ?_
      rw [old (before.trans inside)]
  · by_cases unchanged : call' = call
    · have same : t.calls = s.calls := by
        obtain ⟨bound, own⟩ := List.getElem?_eq_some_iff.mp at'
        rw [set, unchanged, ← own, List.set_getElem_self bound]
      exact ⟨by rw [same]; exact h.working, by rw [same]; exact h.outermost⟩
    · have own : t.calls[i]? = some call' := by
        rw [set, List.getElem?_set_self (List.getElem?_eq_some_iff.mp at').1]
      have old {j : Nat} (other : j ≠ i) : t.calls[j]? = s.calls[j]? := by
        rw [set, List.getElem?_set_ne (Ne.symm other)]
      have last := nested.acts i (by
        rw [own, at']
        exact fun same => unchanged (Option.some.inj same).symm)
      have still : call.finished = false := by
        rcases change with ⟨entering, -⟩ | ⟨active, -⟩
        · rw [Call.finished, entering]
        · exact finished_of_active active
      constructor
      · intro a b first second before here there open'
        by_cases second' : b = i
        · subst second'
          rw [old before.ne] at here
          exact h.working a b first call before here at' still
        · rw [old second'] at there
          by_cases first' : a = i
          · subst first'
            rw [last b second before there] at open'
            cases open'
          · rw [old first'] at here
            exact h.working a b first second before here there open'
      · intro k other there active
        by_cases other' : k = i
        · subst other'
          obtain rfl := Option.some.inj (own.symm.trans there)
          have before : (∀ (j : Nat) (other : Call), j < k → t.calls[j]? = some other →
              other.finished = true) ↔ ∀ (j : Nat) (other : Call), j < k →
              s.calls[j]? = some other → other.finished = true := by
            refine forall_congr' fun j => forall_congr' fun other => forall_congr' fun before => ?_
            rw [old before.ne]
          rw [before]
          rcases change with ⟨entering, outermost⟩ | ⟨active, outermost⟩
          · rw [outermost]
            exact h.marked reachable at' entering last
          · rw [outermost]
            exact h.outermost k call at' active
        · rw [old other'] at there
          rw [h.outermost k other there active]
          have early : k < i := by
            by_contra late
            have past := last k other (lt_of_le_of_ne (Nat.le_of_not_lt late) (Ne.symm other')) there
            rw [finished_of_active active] at past
            cases past
          refine forall_congr' fun j => forall_congr' fun other => forall_congr' fun before => ?_
          rw [old (before.trans early).ne]

theorem NestedReachable.nested (h : NestedReachable source s) : Nested s := by
  suffices Nested s ∧ Reachable source s from this.1
  refine Transition.Reachable.invariant (P := fun s => Nested s ∧ Reachable source s) ?_ ?_ h
  · rintro s rfl
    refine ⟨⟨fun i j call other before here => ?_, fun i call here => ?_⟩, reachable_initial⟩
    · cases here
    · cases here
  · rintro s t ⟨nested, reachable⟩ step
    exact ⟨nested.step reachable step, reachable.next step.step⟩

/-- The call takes nothing more, whatever comes, and can return at once. -/
def Stops (source : TimeSource) (s : Runloop) (i ran : Nat) : Prop :=
  (∀ t, Relation.ReflTransGen (NestedStep source) s t → ∃ call, t.calls[i]? = some call ∧
    (call.control = .leaving ∨ call.control = .returned) ∧ call.ran = ran) ∧
  ∃ t, NestedStep source s t ∧ ∃ call, t.calls[i]? = some call ∧ call.control = .returned

theorem Nested.last (h : Nested s) (at' : s.calls[i]? = some call) (still : call.finished = false)
    (idle : call.control ≠ .running) {j : Nat} {other : Call} (after : i < j)
    (there : s.calls[j]? = some other) : other.finished = true := by
  by_contra open'
  rcases h.working i j call other after at' there (by simpa using open') with past | running
  · rw [still] at past
    cases past
  · exact idle running

theorem Nested.stops (h : Nested s) (at' : s.calls[i]? = some call)
    (leaving : call.control = .leaving) (free : s.holder = none) : Stops source s i call.ran := by
  constructor
  · intro t run
    induction run with
    | refl => exact ⟨call, at', Or.inl leaving, rfl⟩
    | tail _ step ih =>
      obtain ⟨before, there, past, same⟩ := ih
      obtain ⟨after, there', past', same'⟩ := step.step.stops there past
      exact ⟨after, there', past', same'.trans same⟩
  · have bound := (List.getElem?_eq_some_iff.mp at').1
    refine ⟨_, ⟨.unmark i call at' free leaving, fun k changed j other after there => ?_, fun more => ?_⟩,
      _, List.getElem?_set_self bound, rfl⟩
    · have own : k = i := by
        by_contra other
        exact changed (List.getElem?_set_ne (Ne.symm other)).symm
      subst own
      have still : call.finished = false := by rw [Call.finished, leaving]
      exact h.last at' still (by rw [leaving]; nofun) after there
    · rw [List.length_set] at more
      exact absurd more (lt_irrefl _)

/-- A call of `next` acts by its turns alone. -/
theorem NestedStep.turned {refreshed : Bool} (nested : NestedStep source s t)
    (at' : s.calls[i]? = some call) (next : call.control = .next refreshed)
    (acts : t.calls[i]? ≠ some call) : t = s.turned source i call := by
  rcases nested.step.acts at' with ⟨-, rfl⟩ | ⟨call', there, rfl | ⟨free, moves⟩⟩
  · rfl
  · exact absurd there acts
  · generalize t.reads = reads at moves
    cases moves with
    | turn j there held =>
      rw [free] at held
      cases held
    | mark _ here | start here | wake here | ran here | throws here | unmark here =>
      cases next.symm.trans here

theorem turned_quits {refreshed : Bool} (at' : s.calls[i]? = some call)
    (next : call.control = .next refreshed) (quit : s.loop.quit = true) (nested : Nested (s.turned source i call)) :
    (s.turned source i call).loop = { s.loop with quit := ! call.outermost } ∧
      Stops source (s.turned source i call) i call.ran := by
  have turn := @turn_quits source.now s call refreshed next quit
  have there := @turned_call source s call i at'
  rw [turn] at there
  have free : (s.turned source i call).holder = none := by
    rw [Runloop.turned, turn]
    rfl
  have stops := @Nested.stops source (s.turned source i call)
    { call with sawQuit := true, control := .leaving } i nested there rfl free
  refine ⟨?_, stops⟩
  rw [Runloop.turned, turn]

/-- The outermost of nested calls is the only one that has not ended. -/
theorem Nested.alone (h : Nested s) {refreshed : Bool} (at' : s.calls[i]? = some call)
    (next : call.control = .next refreshed) :
    call.outermost = true ↔
      ∀ (j : Nat) (other : Call), j ≠ i → s.calls[j]? = some other → other.finished = true := by
  have active : call.active = true := by rw [Call.active, next]
  rw [h.outermost i call at' active]
  constructor
  · intro before j other apart there
    rcases Nat.lt_or_gt_of_ne apart with early | late
    · exact before j other early there
    · exact h.last at' (finished_of_active active) (by rw [next]; nofun) late there
  · exact fun all j other early => all j other early.ne

/-! ## Pending work -/

/-- The same loop with or without a request to quit. -/
def withQuit (s : Runloop) (quit : Bool) : Runloop :=
  { s with loop := { s.loop with quit := quit } }

theorem drain_quit (now : Nat → TimePoint) (reads : Nat) (loop : Loop) (call : Call)
    (timersDone quit : Bool) :
    ({ loop with quit := quit } : Loop).drain now reads call timersDone =
      ({ (loop.drain now reads call timersDone).1 with quit := quit },
        (loop.drain now reads call timersDone).2) := by
  unfold Loop.drain
  dsimp only
  split
  · split
    · split <;> rfl
    · rfl
  · split <;> rfl

/-- `run_pending` does the same with and without a request to quit, which it leaves. -/
theorem Step.pending (step : Step source s t) (h : Reachable source s)
    (at' : s.calls[i]? = some call)
    (kind : call.kind = .runPending) (acts : t.calls[i]? ≠ some call) :
    t.loop.quit = s.loop.quit ∧ ∀ quit, Step source (s.withQuit quit) (t.withQuit quit) := by
  cases step with
  | enqueue | installTimer | removeTimer | quit | clear | finish | read => exact absurd at' acts
  | enter | enterFor =>
    have bound := (List.getElem?_eq_some_iff.mp at').1
    exact absurd ((List.getElem?_append_left bound).trans at') acts
  | mark j before there free here => exact ⟨rfl, fun _ => .mark j before there free here⟩
  | start j before there free here => exact ⟨rfl, fun _ => .start j before there free here⟩
  | wake j before there free here => exact ⟨rfl, fun _ => .wake j before there free here⟩
  | ran j before there free here => exact ⟨rfl, fun _ => .ran j before there free here⟩
  | throws j before there here free => exact ⟨rfl, fun _ => .throws j before there here free⟩
  | unmark j before there free here => exact ⟨rfl, fun _ => .unmark j before there free here⟩
  | turn j before there held =>
    by_cases own : j = i
    · subst own
      obtain rfl := Option.some.inj (there.symm.trans at')
      obtain ⟨notLooping, -, notNext⟩ := (h.sound before (List.mem_of_getElem? there)).drains kind
      refine ⟨turn_quit notNext, fun quit => ?_⟩
      have turn : (s.withQuit quit).turn source.now before =
          ({ (s.turn source.now before).1 with quit := quit }, (s.turn source.now before).2) := by
        unfold Runloop.turn
        split
        · exact absurd ‹_› notLooping
        · exact absurd ‹_› (notNext _)
        · exact drain_quit source.now s.reads s.loop before _ quit
        · rfl
      have again := @Step.turn source (s.withQuit quit) j before there held
      rw [turn] at again
      exact again
    · exact absurd ((List.getElem?_set_ne own).trans at') acts

/-- A request to quit is cleared by the outermost call, which then stops; the others see it and
stop as well, but for `run_pending`, and what is thrown leaves no call behind. -/
theorem quit_is_kept (h : NestedReachable source s) :
    (∀ t, NestedStep source s t → s.loop.quit = true → t.loop.quit = false →
      ∃ (i : Nat) (call : Call) (refreshed : Bool), s.calls[i]? = some call ∧
        call.control = .next refreshed ∧ call.kind ≠ .runPending ∧
        (∀ (j : Nat) (other : Call), j ≠ i → s.calls[j]? = some other → other.finished = true) ∧
        t.loop = { s.loop with quit := false } ∧ Stops source t i call.ran) ∧
    (∀ t (i : Nat) (call : Call) (refreshed : Bool), NestedStep source s t → s.loop.quit = true →
      s.calls[i]? = some call → call.control = .next refreshed → t.calls[i]? ≠ some call →
      (∃ (j : Nat) (other : Call), j ≠ i ∧ s.calls[j]? = some other ∧ other.finished = false) →
      t.loop = s.loop ∧ Stops source t i call.ran) ∧
    (∀ t (i : Nat) (call : Call), NestedStep source s t → s.calls[i]? = some call →
      call.kind = .runPending → t.calls[i]? ≠ some call →
      t.loop.quit = s.loop.quit ∧
        ∀ quit, NestedStep source (s.withQuit quit) (t.withQuit quit)) ∧
    (s.loop.isRunning = true ↔ ∃ call ∈ s.calls, call.active = true) := by
  have nested := h.nested
  have reachable := h.reachable
  refine ⟨fun t step quit cleared => ?_, fun t i call refreshed step quit at' next acts others => ?_,
    fun t i call step at' kind acts => ?_, isRunning_iff reachable⟩
  · obtain ⟨i, call, refreshed, at', held, next, outermost, rfl⟩ := step.step.clears quit cleared
    obtain ⟨loop, stops⟩ := turned_quits at' next quit (nested.step reachable step)
    refine ⟨i, call, refreshed, at', next, fun kind => ?_, (nested.alone at' next).mp outermost, ?_,
      stops⟩
    · exact ((reachable.sound call (List.mem_of_getElem? at')).drains kind).2.2 refreshed next
    · rw [loop, outermost]
      rfl
  · obtain rfl := step.turned at' next acts
    obtain ⟨loop, stops⟩ := turned_quits at' next quit (nested.step reachable step)
    refine ⟨?_, stops⟩
    have inner : call.outermost = false := by
      rw [← Bool.not_eq_true]
      intro outermost
      obtain ⟨j, other, apart, there, still⟩ := others
      rw [(nested.alone at' next).mp outermost j other apart there] at still
      cases still
    have same : { s.loop with quit := true } = s.loop := by rw [← quit]
    rw [loop, inner]
    exact same
  · obtain ⟨same, again⟩ := step.step.pending reachable at' kind acts
    exact ⟨same, fun quit => ⟨again quit, step.acts, step.makes⟩⟩

theorem NestedReachable.next (h : NestedReachable source s) (step : Step source s t) (same : t = u)
    (front : ∀ i < s.calls.length - 1, s.calls[i]? = t.calls[i]?)
    (makes : s.calls.length < t.calls.length → ∀ call ∈ s.calls,
      call.finished = true ∨ call.control = .running) : NestedReachable source u := by
  subst same
  refine Transition.Reachable.next h ⟨step, fun i changed j call after there => ?_, makes⟩
  have bound := (List.getElem?_eq_some_iff.mp there).1
  exact absurd (front i (by omega)) changed

/-- `run` at work on a task that has asked to quit and called `run_one`. -/
def nestedRunOne : Runloop :=
  ⟨⟨[], [], 1, 2, true, false⟩,
    [{ Runloop.enter .run noDeadline with outermost := true, control := .running },
      { Runloop.enter .runOne noDeadline with control := .next false }], some 1, 2⟩

theorem nestedRunOne_reachable : NestedReachable stoppedClock nestedRunOne := by
  have start : NestedReachable stoppedClock initial := Transition.Reachable.start rfl
  have queued := start.next (.enqueue rfl) rfl (by decide) (by decide)
  have made := queued.next (.enter .run (by decide)) rfl (by decide) (by decide)
  have marked := made.next (.mark 0 _ rfl rfl rfl) rfl (by decide) (by decide)
  have started := marked.next (.start 0 _ rfl rfl rfl) rfl (by decide) (by decide)
  have looped := started.next (.turn 0 _ rfl rfl) rfl (by decide) (by decide)
  have running : NestedReachable stoppedClock ⟨⟨[], [], 1, 1, false, false⟩,
      [{ Runloop.enter .run noDeadline with outermost := true, control := .running }], none, 1⟩ :=
    looped.next (.turn 0 _ rfl rfl) (by rfl) (by decide) (by decide)
  have asked := running.next (.quit rfl) rfl (by decide) (by decide)
  have called := asked.next (.enter .runOne (by decide)) rfl (by decide) (by decide)
  have nested := called.next (.mark 1 _ rfl rfl rfl) rfl (by decide) (by decide)
  exact nested.next (.start 1 _ rfl rfl rfl) (by rfl) (by decide) (by decide)

theorem quit_is_kept_nested :
    (∃ t, NestedStep stoppedClock nestedRunOne t ∧ t.loop = nestedRunOne.loop ∧
      Stops stoppedClock t 1 0) ∧
    nestedRunOne.loop.isRunning = true := by
  obtain ⟨-, inner, -, running⟩ := quit_is_kept nestedRunOne_reachable
  have step : NestedStep stoppedClock nestedRunOne (nestedRunOne.turned stoppedClock 1
      { Runloop.enter .runOne noDeadline with control := .next false }) := by
    refine ⟨.turn 1 _ rfl rfl, fun i changed j call after there => ?_, by decide⟩
    have front : ∀ i < 1, nestedRunOne.calls[i]? = (nestedRunOne.turned stoppedClock 1
      { Runloop.enter .runOne noDeadline with control := .next false }).calls[i]? := by decide
    have bound : j < 2 := (List.getElem?_eq_some_iff.mp there).1
    exact absurd (front i (by omega)) changed
  refine ⟨⟨_, step, inner _ 1 _ false step rfl rfl rfl (by decide) ⟨0, _, by decide, rfl, rfl⟩⟩, ?_⟩
  exact running.mpr ⟨_, List.mem_cons_self, rfl⟩

end Runloop

end Dross
