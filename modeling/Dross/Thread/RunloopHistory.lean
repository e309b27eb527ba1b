import Dross.Thread.RunloopReturns
import Dross.Thread.RunloopTurns
import Mathlib.Data.List.Perm.Subperm

/-!
# What becomes of a queued task

A run loop with a memory of its tasks: those it accepted, those a call took and which
call that was, and those that `clear` or `finish` dropped. A task is its sequence
number.
-/

namespace Dross

structure History where
  runloop : Runloop
  accepted : List Nat
  /-- The calls that took something, and what. -/
  takes : List (Nat × Nat)
  discarded : List Nat

namespace History

variable {source : TimeSource} {s t u : History}

abbrev pending (s : History) : List Nat := s.runloop.loop.pending

def taken (s : History) : List Nat := s.takes.map Prod.snd

def takenBy (s : History) (i : Nat) : List Nat :=
  (s.takes.filter (fun take => take.1 == i)).map Prod.snd

/-- The loop after the turn of a call. -/
def turned (source : TimeSource) (s : History) (i : Nat) (call : Call) : Runloop :=
  { s.runloop.put i (s.runloop.turn source.now call).2.2 with
    loop := (s.runloop.turn source.now call).1
    reads := (s.runloop.turn source.now call).2.1 }

/-- A step of the loop, and what it means for the tasks. -/
inductive Step (source : TimeSource) (s : History) : History → Prop
  | perform (free : s.runloop.holder = none) :
      Step source s { s with
        runloop := { s.runloop with loop := s.runloop.loop.enqueue }
        accepted :=
          if s.runloop.loop.finished then s.accepted
          else s.accepted ++ [s.runloop.loop.nextSequence] }
  | clear (free : s.runloop.holder = none) :
      Step source s { s with
        runloop := { s.runloop with loop := s.runloop.loop.clear }
        discarded := s.discarded ++ s.pending }
  | finish (free : s.runloop.holder = none) :
      Step source s { s with
        runloop := { s.runloop with loop := s.runloop.loop.finish }
        discarded := s.discarded ++ s.pending }
  | takes (i : Nat) (call : Call) {sequence : Nat} {rest : List Nat}
      (at' : s.runloop.calls[i]? = some call) (held : s.runloop.holder = some i)
      (front : s.pending = sequence :: rest)
      (popped : (turned source s i call).loop.pending = rest) :
      Step source s { s with
        runloop := turned source s i call
        takes := s.takes ++ [(i, sequence)] }
  | other {runloop : Runloop} (step : Runloop.Step source s.runloop runloop)
      (pending : runloop.loop.pending = s.pending)
      (nextSequence : runloop.loop.nextSequence = s.runloop.loop.nextSequence)
      (finished : runloop.loop.finished = s.runloop.loop.finished) :
      Step source s { s with runloop := runloop }

def Starts (s : History) : Prop := s = ⟨Runloop.initial, [], [], []⟩

def Reachable (source : TimeSource) : History → Prop :=
  Transition.Reachable Starts (Step source)

/-- Every task accepted is in one place, and those not dropped are in order. -/
structure Tallied (nextSequence : Nat) (pending taken discarded accepted : List Nat) : Prop where
  counted : accepted = List.range nextSequence
  ordered : (taken ++ pending).Pairwise (· < ·)
  once : (pending ++ taken ++ discarded).Perm accepted

/-- What holds of the tasks at every moment. -/
structure Accounts (source : TimeSource) (s : History) : Prop where
  reachable : Runloop.Reachable source s.runloop
  tallied : Tallied s.runloop.loop.nextSequence s.pending s.taken s.discarded s.accepted
  gone : s.runloop.loop.finished = true → s.pending = []
  started : ∀ take ∈ s.takes, ∃ call, s.runloop.calls[take.1]? = some call ∧ call.started = true

/-! ## The memory follows the loop -/

theorem Step.runloop (step : Step source s t) : Runloop.Step source s.runloop t.runloop := by
  cases step with
  | perform free => exact .enqueue free
  | clear free => exact .clear free
  | finish free => exact .finish free
  | takes i call at' held front popped => exact .turn i call at' held
  | other step => exact step

theorem turned_loop {i : Nat} {call : Call} :
    (turned source s i call).loop = (s.runloop.turn source.now call).1 := rfl

/-- Every step of a loop is one of the loop with its memory. -/
theorem follows (reachable : Runloop.Reachable source s.runloop) {runloop : Runloop}
    (step : Runloop.Step source s.runloop runloop) : ∃ t, Step source s t ∧ t.runloop = runloop := by
  have quiet (pending : runloop.loop.pending = s.pending)
      (nextSequence : runloop.loop.nextSequence = s.runloop.loop.nextSequence)
      (finished : runloop.loop.finished = s.runloop.loop.finished) :
      ∃ t, Step source s t ∧ t.runloop = runloop :=
    ⟨_, .other step pending nextSequence finished, rfl⟩
  cases step with
  | enqueue free => exact ⟨_, .perform free, rfl⟩
  | clear free => exact ⟨_, .clear free, rfl⟩
  | finish free => exact ⟨_, .finish free, rfl⟩
  | installTimer which free fresh =>
    have kept : (s.runloop.loop.installTimer which).pending = s.pending ∧
        (s.runloop.loop.installTimer which).nextSequence = s.runloop.loop.nextSequence ∧
        (s.runloop.loop.installTimer which).finished = s.runloop.loop.finished := by
      unfold Loop.installTimer
      split <;> exact ⟨rfl, rfl, rfl⟩
    exact quiet kept.1 kept.2.1 kept.2.2
  | turn i call at' held =>
    obtain ⟨call', there, holds⟩ := reachable.held held
    obtain rfl := Option.some.inj (at'.symm.trans there)
    cases (Runloop.turn_takes holds : Loop.Takes source.now s.runloop.reads s.runloop.loop call
        (s.runloop.turn source.now call)) with
    | timer due left running =>
      have pending := congrArg Loop.pending left
      have nextSequence := congrArg Loop.nextSequence left
      have finished := congrArg Loop.finished left
      exact quiet pending nextSequence finished
    | task front left running early =>
      have popped := congrArg Loop.pending left
      exact ⟨_, .takes i call at' held front popped, rfl⟩
    | nothing quit left resting =>
      have pending := congrArg Loop.pending left
      have nextSequence := congrArg Loop.nextSequence left
      have finished := congrArg Loop.finished left
      exact quiet pending nextSequence finished
  | removeTimer | quit | read | enter | enterFor | mark | start | wake | ran | throws | unmark =>
    exact quiet rfl rfl rfl

/-! ## Every moment -/

section
variable {nextSequence sequence : Nat} {pending taken discarded accepted : List Nat}

theorem Tallied.below (h : Tallied nextSequence pending taken discarded accepted)
    (mem : sequence ∈ taken ++ pending) : sequence < nextSequence := by
  rw [← List.mem_range, ← h.counted, ← h.once.mem_iff]
  exact List.mem_append_left _ ((List.perm_append_comm).mem_iff.mp mem)

theorem Tallied.accept (h : Tallied nextSequence pending taken discarded accepted) :
    Tallied (nextSequence + 1) (pending ++ [nextSequence]) taken discarded
      (accepted ++ [nextSequence]) where
  counted := by rw [List.range_succ, h.counted]
  ordered := by
    rw [← List.append_assoc]
    refine List.pairwise_append.mpr ⟨h.ordered, List.pairwise_singleton _ _, ?_⟩
    intro a mem b last
    rw [List.mem_singleton.mp last]
    exact h.below mem
  once := by
    have last : (pending ++ [nextSequence] ++ taken ++ discarded).Perm
        (pending ++ taken ++ discarded ++ [nextSequence]) := by
      simp only [List.append_assoc]
      refine List.Perm.append_left pending ?_
      rw [← List.append_assoc taken]
      exact List.perm_append_comm
    exact last.trans (h.once.append_right _)

theorem Tallied.discard (h : Tallied nextSequence pending taken discarded accepted) :
    Tallied nextSequence [] taken (discarded ++ pending) accepted where
  counted := h.counted
  ordered := by
    rw [List.append_nil]
    exact h.ordered.sublist (List.sublist_append_left _ _)
  once := by
    refine List.Perm.trans ?_ h.once
    rw [List.nil_append, ← List.append_assoc, List.append_assoc pending]
    exact List.perm_append_comm

theorem Tallied.take (h : Tallied nextSequence (sequence :: pending) taken discarded accepted) :
    Tallied nextSequence pending (taken ++ [sequence]) discarded accepted where
  counted := h.counted
  ordered := by
    rw [List.append_assoc]
    exact h.ordered
  once := by
    refine List.Perm.trans ?_ h.once
    refine List.Perm.append_right discarded ?_
    rw [← List.append_assoc]
    exact List.perm_append_singleton _ _

end

theorem Accounts.start (start : Starts s) : Accounts source s := by
  obtain rfl := start
  exact ⟨Runloop.reachable_initial, ⟨rfl, List.Pairwise.nil, List.Perm.nil⟩, fun _ => rfl,
    fun take mem => absurd mem List.not_mem_nil⟩

theorem holds_started {call : Call} (holds : call.control.holds = true) : call.started = true := by
  unfold Control.holds at holds
  unfold Call.started
  split at holds
  · next at' => rw [at']
  · next at' => rw [at']
  · next at' => rw [at']
  · cases holds

/-- The calls that took something have started. -/
theorem Accounts.started_step (h : Accounts source s) (step : Step source s t) :
    ∀ take ∈ t.takes, ∃ call, t.runloop.calls[take.1]? = some call ∧ call.started = true := by
  have old : ∀ take ∈ s.takes, ∃ call, t.runloop.calls[take.1]? = some call ∧
      call.started = true := by
    intro take mem
    obtain ⟨call, at', started⟩ := h.started take mem
    obtain ⟨call', at'', keeps⟩ := step.runloop.keeps at'
    exact ⟨call', at'', keeps.started started⟩
  cases step with
  | takes i call at' held front popped =>
    intro take mem
    rcases List.mem_append.mp mem with mem | mem
    · exact old take mem
    · obtain rfl := List.mem_singleton.mp mem
      obtain ⟨call', there, holds⟩ := h.reachable.held held
      obtain rfl := Option.some.inj (at'.symm.trans there)
      have step : Runloop.Step source _ _ := .turn i call at' held
      obtain ⟨call', at'', keeps⟩ := step.keeps at'
      exact ⟨call', at'', keeps.started (holds_started holds)⟩
  | perform | clear | finish | other => exact old

/-- A turn changes no more than the queue, the timers and the request to quit. -/
theorem turn_sequence {call : Call} (holds : call.control.holds = true) :
    (s.runloop.turn source.now call).1.nextSequence = s.runloop.loop.nextSequence ∧
      (s.runloop.turn source.now call).1.finished = s.runloop.loop.finished := by
  cases (Runloop.turn_takes holds : Loop.Takes source.now s.runloop.reads s.runloop.loop call
      (s.runloop.turn source.now call)) with
  | timer due left running => rw [left]; exact ⟨rfl, rfl⟩
  | task front left running early => rw [left]; exact ⟨rfl, rfl⟩
  | nothing quit left resting => rw [left]; exact ⟨rfl, rfl⟩

theorem Accounts.tallied_step (h : Accounts source s) (step : Step source s t) :
    Tallied t.runloop.loop.nextSequence t.pending t.taken t.discarded t.accepted := by
  have before := h.tallied
  cases step with
  | perform free =>
    unfold pending Loop.enqueue
    cases s.runloop.loop.finished with
    | true => exact before
    | false => exact before.accept
  | clear free => exact before.discard
  | finish free => exact before.discard
  | @takes i call sequence rest at' held front popped =>
    obtain ⟨call', there, holds⟩ := h.reachable.held held
    obtain rfl := Option.some.inj (at'.symm.trans there)
    rw [front] at before
    have after := before.take
    have taken : ({ s with
        runloop := turned source s i call
        takes := s.takes ++ [(i, sequence)] } : History).taken = s.taken ++ [sequence] := by
      simp [History.taken]
    rw [taken, pending, popped, turned_loop, (turn_sequence holds).1]
    exact after
  | other step pending nextSequence finished =>
    rw [History.pending, nextSequence, pending]
    exact before

theorem Accounts.step (h : Accounts source s) (step : Step source s t) : Accounts source t where
  reachable := Transition.Reachable.next h.reachable step.runloop
  tallied := h.tallied_step step
  gone := by
    cases step with
    | perform free =>
      unfold pending Loop.enqueue
      cases finished : s.runloop.loop.finished with
      | true => exact h.gone
      | false => exact fun done => absurd done Bool.false_ne_true
    | clear free => exact fun _ => rfl
    | finish free => exact fun _ => rfl
    | takes i call at' held front popped =>
      obtain ⟨call', there, holds⟩ := h.reachable.held held
      obtain rfl := Option.some.inj (at'.symm.trans there)
      intro finished
      rw [turned_loop, (turn_sequence holds).2] at finished
      rw [h.gone finished] at front
      cases front
    | other step pending nextSequence finished =>
      rw [History.pending, pending, finished]
      exact h.gone
  started := h.started_step step

theorem Reachable.accounts (h : s.Reachable source) : Accounts source s :=
  Transition.Reachable.invariant (fun _ start => .start start) (fun _ _ known => known.step) h

/-- Every run of a loop is one that the memory follows. -/
theorem remembered {runloop : Runloop} (h : Runloop.Reachable source runloop) :
    ∃ s : History, s.Reachable source ∧ s.runloop = runloop := by
  obtain ⟨first, rfl, run⟩ := h
  induction run with
  | refl => exact ⟨_, Transition.Reachable.start rfl, rfl⟩
  | tail _ step ih =>
    obtain ⟨s, reachable, rfl⟩ := ih
    obtain ⟨t, next, eq⟩ := follows reachable.accounts.reachable step
    exact ⟨t, Transition.Reachable.next reachable next, eq⟩

/-! ## After `finish` -/

theorem Accounts.shut (h : Accounts source s) (finished : s.runloop.loop.finished = true)
    (step : Step source s t) :
    t.accepted = s.accepted ∧ t.runloop.loop.finished = true := by
  cases step with
  | perform free =>
    refine ⟨if_pos finished, ?_⟩
    unfold Loop.enqueue
    rw [if_pos finished]
    exact finished
  | clear free => exact ⟨rfl, finished⟩
  | finish free => exact ⟨rfl, rfl⟩
  | takes i call at' held front popped =>
    rw [h.gone finished] at front
    cases front
  | other step pending nextSequence same => exact ⟨rfl, same.trans finished⟩

theorem Reachable.shut (h : s.Reachable source) (finished : s.runloop.loop.finished = true)
    (run : Relation.ReflTransGen (Step source) s t) :
    t.accepted = s.accepted ∧ t.pending = [] := by
  have known := Transition.preserved (P := fun u => Accounts source u ∧ u.accepted = s.accepted ∧
    u.runloop.loop.finished = true) ?_ ⟨h.accounts, rfl, finished⟩ run
  · exact ⟨known.2.1, known.1.gone known.2.2⟩
  · intro u v known step
    have shut := known.1.shut known.2.2 step
    exact ⟨known.1.step step, shut.1.trans known.2.1, shut.2⟩

/-! ## The tasks of one `run_pending` -/

/-- After a call has taken the lock for the first time. -/
def begun (source : TimeSource) (s : History) (i : Nat) (call : Call) : History :=
  { s with
    runloop := { s.runloop.put i (s.runloop.start source.now call) with
      reads := s.runloop.reads + 1 } }

/-- What holds of a call of `run_pending` that found these tasks queued. -/
structure Drains (i limit : Nat) (queued : List Nat) (s : History) : Prop where
  low : limit ≤ s.runloop.loop.nextSequence
  call : ∃ call, s.runloop.calls[i]? = some call ∧ call.kind = .runPending ∧
    call.started = true ∧ call.limit = limit
  early : ∀ sequence ∈ s.pending, sequence < limit → sequence ∈ queued
  taken : ∀ sequence, (i, sequence) ∈ s.takes → sequence ∈ queued

/-- What `run_pending` takes is before its cutoff. -/
theorem Accounts.takes_early (h : Accounts source s) {i sequence : Nat} {rest : List Nat}
    {call : Call} (at' : s.runloop.calls[i]? = some call) (held : s.runloop.holder = some i)
    (front : s.pending = sequence :: rest) (popped : (turned source s i call).loop.pending = rest)
    (kind : call.kind = .runPending) : sequence < call.limit := by
  obtain ⟨call', there, holds⟩ := h.reachable.held held
  obtain rfl := Option.some.inj (at'.symm.trans there)
  have sound := (h.reachable.sound call (List.mem_of_getElem? at')).drains kind
  obtain ⟨timersDone, draining⟩ : ∃ timersDone, call.control = .draining timersDone := by
    cases at'' : call.control with
    | draining timersDone => exact ⟨timersDone, rfl⟩
    | looping => exact absurd at'' sound.1
    | next refreshed => exact absurd at'' (sound.2.2 refreshed)
    | entering | marked | waiting | running | leaving | returned | thrown =>
      rw [at''] at holds
      cases holds
  have whole {turn : Loop.Turn} (left : turn.1.pending = s.pending)
      (popped : turn.1.pending = rest) : False :=
    List.cons_ne_self sequence rest (front.symm.trans (left.symm.trans popped))
  rw [turned_loop] at popped
  cases (Runloop.turn_takes holds : Loop.Takes source.now s.runloop.reads s.runloop.loop call
      (s.runloop.turn source.now call)) with
  | timer due left running =>
    have same := congrArg Loop.pending left
    exact (whole same popped).elim
  | nothing quit left resting =>
    have same := congrArg Loop.pending left
    exact (whole same popped).elim
  | task first left running early =>
    obtain rfl := (List.cons.inj (front.symm.trans first)).1
    exact early timersDone draining

/-- What a step queues is not before any cutoff there has been. -/
theorem Accounts.grows (h : Accounts source s) (step : Step source s t) :
    s.runloop.loop.nextSequence ≤ t.runloop.loop.nextSequence ∧ ∀ sequence ∈ t.pending,
      sequence ∈ s.pending ∨ s.runloop.loop.nextSequence ≤ sequence := by
  have none (sequence : Nat) (mem : sequence ∈ ([] : List Nat)) :
      sequence ∈ s.pending ∨ s.runloop.loop.nextSequence ≤ sequence :=
    absurd mem List.not_mem_nil
  cases step with
  | perform free =>
    unfold pending Loop.enqueue
    cases s.runloop.loop.finished with
    | true => exact ⟨Nat.le_refl _, fun _ mem => Or.inl mem⟩
    | false =>
      refine ⟨Nat.le_succ _, fun sequence mem => ?_⟩
      rcases List.mem_append.mp mem with old | new
      · exact Or.inl old
      · exact Or.inr (Nat.le_of_eq (List.mem_singleton.mp new).symm)
  | clear free => exact ⟨Nat.le_refl _, none⟩
  | finish free => exact ⟨Nat.le_refl _, none⟩
  | takes i call at' held front popped =>
    obtain ⟨call', there, holds⟩ := h.reachable.held held
    obtain rfl := Option.some.inj (at'.symm.trans there)
    refine ⟨Nat.le_of_eq ?_, fun sequence mem => Or.inl ?_⟩
    · exact (turn_sequence holds).1.symm
    · rw [pending, popped] at mem
      rw [front]
      exact List.mem_cons_of_mem _ mem
  | other step pending nextSequence finished =>
    refine ⟨Nat.le_of_eq nextSequence.symm, fun sequence mem => Or.inl ?_⟩
    rw [← pending]
    exact mem

theorem Drains.step {i limit : Nat} {queued : List Nat} (h : Drains i limit queued s)
    (accounts : Accounts source s) (step : Step source s t) : Drains i limit queued t where
  low := Nat.le_trans h.low (accounts.grows step).1
  call := by
    obtain ⟨call, at', kind, started, cutoff⟩ := h.call
    obtain ⟨call', at'', keeps⟩ := step.runloop.keeps at'
    exact ⟨call', at'', keeps.kind.trans kind, keeps.started started,
      (keeps.limit started).trans cutoff⟩
  early := by
    intro sequence mem before
    rcases (accounts.grows step).2 sequence mem with old | new
    · exact h.early sequence old before
    · have := h.low
      omega
  taken := by
    cases step with
    | takes j call at' held front popped =>
      intro sequence mem
      rcases List.mem_append.mp mem with old | new
      · exact h.taken sequence old
      · obtain ⟨rfl, rfl⟩ := Prod.mk.inj (List.mem_singleton.mp new)
        obtain ⟨call', there, kind, _, cutoff⟩ := h.call
        obtain rfl := Option.some.inj (at'.symm.trans there)
        refine h.early sequence ?_ ?_
        · rw [front]
          exact List.mem_cons_self
        · rw [← cutoff]
          exact accounts.takes_early at' held front popped kind
    | perform | clear | finish | other => exact h.taken

theorem Accounts.drains_begun (h : Accounts source s) {i : Nat} {call : Call}
    (at' : s.runloop.calls[i]? = some call) (marked : call.control = .marked)
    (kind : call.kind = .runPending) :
    Drains i s.runloop.loop.nextSequence s.pending (s.begun source i call) where
  low := Nat.le_refl _
  call := by
    have bound := (List.getElem?_eq_some_iff.mp at').1
    refine ⟨s.runloop.start source.now call, List.getElem?_set_self bound, ?_⟩
    simp [Runloop.start, kind, Call.started]
  early := fun _ mem _ => mem
  taken := by
    intro sequence mem
    obtain ⟨call', there, started⟩ := h.started _ mem
    obtain rfl := Option.some.inj (at'.symm.trans there)
    rw [Call.started, marked] at started
    cases started

/-- A call of `run_pending` takes what was queued when it started, and each of that once. -/
theorem Reachable.drains (h : s.Reachable source) {i : Nat} {call : Call}
    (at' : s.runloop.calls[i]? = some call) (free : s.runloop.holder = none)
    (marked : call.control = .marked) (kind : call.kind = .runPending)
    (run : Relation.ReflTransGen (Step source) (s.begun source i call) t) :
    Drains i s.runloop.loop.nextSequence s.pending t ∧ Accounts source t := by
  have step : Step source s (s.begun source i call) :=
    .other (.start i call at' free marked) rfl rfl rfl
  refine Transition.preserved (P := fun u => Drains i s.runloop.loop.nextSequence s.pending u ∧
    Accounts source u) ?_ ⟨h.accounts.drains_begun at' marked kind, h.accounts.step step⟩ run
  exact fun u v known step => ⟨known.1.step known.2 step, known.2.step step⟩

theorem mem_takenBy {i sequence : Nat} :
    sequence ∈ s.takenBy i ↔ (i, sequence) ∈ s.takes := by
  simp [takenBy]

theorem takenBy_sublist {i : Nat} : (s.takenBy i).Sublist s.taken :=
  List.filter_sublist.map Prod.snd

/-- What one call took, in the order it was queued, is no more than what was queued. -/
theorem Drains.takenBy {i limit : Nat} {queued : List Nat} (h : Drains i limit queued s)
    (accounts : Accounts source s) :
    (s.takenBy i).Pairwise (· < ·) ∧ (∀ sequence ∈ s.takenBy i, sequence ∈ queued) ∧
      (s.takenBy i).length ≤ queued.length := by
  have sorted : (s.takenBy i).Pairwise (· < ·) :=
    accounts.tallied.ordered.sublist (takenBy_sublist.trans (List.sublist_append_left _ _))
  have inside : ∀ sequence ∈ s.takenBy i, sequence ∈ queued :=
    fun sequence mem => h.taken sequence (mem_takenBy.mp mem)
  exact ⟨sorted, inside, (List.Nodup.subperm (sorted.imp Nat.ne_of_lt) inside).length_le⟩

/-- A turn of the drain takes the front of the queue, or is the call's last. -/
theorem turn_drains {call : Call} (draining : call.control = .draining true) :
    (∃ sequence, s.pending = sequence :: (s.runloop.turn source.now call).1.pending) ∨
      (s.runloop.turn source.now call).2.2.control = .leaving := by
  unfold Runloop.turn
  rw [draining]
  cases queued : s.pending with
  | nil => exact Or.inr (by simp [Loop.drain, show s.runloop.loop.pending = [] from queued])
  | cons sequence rest =>
    have front : s.runloop.loop.pending = sequence :: rest := queued
    by_cases early : sequence < call.limit
    · exact Or.inl ⟨sequence, by simp [Loop.drain, front, early]⟩
    · exact Or.inr (by simp [Loop.drain, front, early])

/-- The tasks of a loop, in every run: each is queued, taken or dropped, in its turn; none is
accepted once the loop has finished; and a call of `run_pending` takes, one at a turn, no more
than what was queued when it started. -/
theorem fifo_exactly_once (source : TimeSource) :
    (∀ runloop, Runloop.Reachable source runloop →
      ∃ s : History, s.Reachable source ∧ s.runloop = runloop) ∧
    ∀ s : History, s.Reachable source →
      s.accepted = List.range s.runloop.loop.nextSequence ∧
      (s.pending ++ s.taken ++ s.discarded).Perm s.accepted ∧
      (s.taken ++ s.pending).Pairwise (· < ·) ∧
      (s.runloop.loop.finished = true → ∀ t, Relation.ReflTransGen (Step source) s t →
        t.accepted = s.accepted ∧ t.pending = []) ∧
      ∀ i call, s.runloop.calls[i]? = some call → s.runloop.holder = none →
        call.control = .marked → call.kind = .runPending →
        ∀ t, Relation.ReflTransGen (Step source) (s.begun source i call) t →
          (t.takenBy i).Pairwise (· < ·) ∧
          (∀ sequence ∈ t.takenBy i, sequence ∈ s.accepted ∧ sequence ∈ s.pending) ∧
          (t.takenBy i).length ≤ s.pending.length ∧
          ∀ call', t.runloop.calls[i]? = some call' → call'.control = .draining true →
            (∃ sequence, t.pending = sequence :: (t.runloop.turn source.now call').1.pending) ∨
              (t.runloop.turn source.now call').2.2.control = .leaving := by
  refine ⟨fun runloop h => remembered h, fun s h => ?_⟩
  have tallied := h.accounts.tallied
  refine ⟨tallied.counted, tallied.once, tallied.ordered, ?_, ?_⟩
  · exact fun finished t run => h.shut finished run
  · intro i call at' free marked kind t run
    obtain ⟨drains, accounts⟩ := h.drains at' free marked kind run
    obtain ⟨sorted, inside, length⟩ := drains.takenBy accounts
    refine ⟨sorted, fun sequence mem => ⟨?_, inside sequence mem⟩, length, ?_⟩
    · rw [← tallied.once.mem_iff]
      exact List.mem_append_left _ (List.mem_append_left _ (inside sequence mem))
    · exact fun call' _ draining => turn_drains draining

/-- Two tasks queued, and a call of `run_pending` with its mark. -/
def waitingTasks : History :=
  ⟨⟨⟨[0, 1], [], 2, 1, false, false⟩,
    [{ Runloop.enter .runPending noDeadline with outermost := true, control := .marked }],
    none, 0⟩, [0, 1], [], []⟩

theorem waitingTasks_reachable : waitingTasks.Reachable Runloop.slippingClock := by
  have start : Reachable Runloop.slippingClock ⟨Runloop.initial, [], [], []⟩ :=
    Transition.Reachable.start rfl
  have first := Transition.Reachable.next start (.perform rfl)
  have second := Transition.Reachable.next first (.perform rfl)
  have entered := Transition.Reachable.next second (.other (.enter .runPending nofun) rfl rfl rfl)
  exact Transition.Reachable.next entered (.other (.mark 0 _ rfl rfl rfl) rfl rfl rfl)

/-- The call has started. -/
def drainBegun : History :=
  waitingTasks.begun Runloop.slippingClock 0
    { Runloop.enter .runPending noDeadline with outermost := true, control := .marked }

/-- Each of the two tasks posts another while it runs. -/
theorem drainBegun_posts : ∃ t, Relation.ReflTransGen (Step Runloop.slippingClock) drainBegun t ∧
    t.takenBy 0 = [0, 1] ∧ t.pending = [2, 3] := by
  have timers : Step Runloop.slippingClock drainBegun _ := .other (.turn 0 _ rfl rfl) rfl rfl rfl
  have taken := (Relation.ReflTransGen.single timers).tail (.takes 0 _ rfl rfl rfl rfl)
  have posted := taken.tail (.perform rfl)
  have ran := posted.tail (.other (.ran 0 _ rfl rfl rfl) rfl rfl rfl)
  have taken' := ran.tail (.takes 0 _ rfl rfl rfl rfl)
  have posted' := taken'.tail (.perform rfl)
  exact ⟨_, posted'.tail (.other (.ran 0 _ rfl rfl rfl) rfl rfl rfl), rfl, rfl⟩

/-- The call takes what was queued when it started, and neither of the tasks posted since. -/
theorem fifo_exactly_once_waiting : ∃ t : History, t.takenBy 0 = [0, 1] ∧ t.pending = [2, 3] ∧
    (∀ sequence ∈ t.takenBy 0,
      sequence ∈ waitingTasks.accepted ∧ sequence ∈ waitingTasks.pending) ∧
    (t.takenBy 0).length ≤ waitingTasks.pending.length := by
  obtain ⟨t, run, taken, pending⟩ := drainBegun_posts
  have known := ((fifo_exactly_once Runloop.slippingClock).2 _ waitingTasks_reachable).2.2.2.2 0 _
    rfl rfl rfl rfl t run
  exact ⟨t, taken, pending, known.2.1, known.2.2.1⟩

end History

end Dross
