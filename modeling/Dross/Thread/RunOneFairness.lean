import Dross.Thread.RunloopHistory
import Dross.Thread.TimerFires

/-!
# Calls of run_one, one after another

Each call of `run_one` has a pass of its own, so nothing of what the call before it took is
handled. A timer taken before is kept from a second turn only by its deadline: where it is
due again when the next call reads its boundary, it is taken again, before the task at the
front of the queue.
-/

namespace Dross

namespace Call

/-- Whether a call has yet to take something. -/
def seeking (call : Call) : Bool :=
  match call.control with
  | .looping | .next _ | .draining _ | .waiting => true
  | _ => false

def underWay (call : Call) : Bool :=
  call.seeking || call.control == .running

/-- Whether a call has taken what it takes, or gone without. -/
def settled (call : Call) : Bool :=
  call.started && ! call.seeking

/-- Whether a call will take nothing more. -/
def ended (call : Call) : Bool :=
  match call.control with
  | .leaving | .returned | .thrown => true
  | _ => false

end Call

namespace Runloop

variable {source : TimeSource} {s t : Runloop}

/-- The calls under way are of `run_one`, one at a time. -/
def Successive (s : Runloop) : Prop :=
  s.calls.countP Call.underWay ≤ 1 ∧ ∀ call ∈ s.calls, call.underWay = true → call.kind = .runOne

instance decidableSuccessive : Decidable s.Successive := instDecidableAnd

theorem countP_le_one {α : Type} {p : α → Bool} {items : List α} (few : items.countP p ≤ 1)
    {i j : Nat} {a b : α} (first : items[i]? = some a) (second : items[j]? = some b)
    (pa : p a = true) (pb : p b = true) : i = j := by
  induction items generalizing i j with
  | nil => cases first
  | cons item items ih =>
    have none {k : Nat} {c : α} (here : p item = true) (at' : items[k]? = some c)
        (pc : p c = true) : False := by
      have positive := List.countP_pos_iff.mpr ⟨c, List.mem_of_getElem? at', pc⟩
      rw [List.countP_cons_of_pos here] at few
      omega
    cases i with
    | zero =>
      obtain rfl := Option.some.inj first
      cases j with
      | zero => rfl
      | succ j => exact (none pa second pb).elim
    | succ i =>
      cases j with
      | zero =>
        obtain rfl := Option.some.inj second
        exact (none pb first pa).elim
      | succ j =>
        refine congrArg Nat.succ (ih ?_ first second)
        exact (List.Sublist.countP_le (List.sublist_cons_self item items)).trans few

theorem seeking_of_holds {call : Call} (holds : call.control.holds = true) :
    call.seeking = true := by
  unfold Call.seeking
  cases control : call.control with
  | looping | next | draining | waiting => rfl
  | entering | marked | running | leaving | returned | thrown =>
    rw [control] at holds
    cases holds

theorem settled_of_ended {call : Call} (finished : call.ended = true) : call.settled = true := by
  unfold Call.ended at finished
  unfold Call.settled Call.started Call.seeking
  split at finished
  · next leaving => simp [leaving]
  · next returned => simp [returned]
  · next thrown => simp [thrown]
  · cases finished

/-- A task is not queued twice. -/
theorem Reachable.popped (h : Reachable source s) {sequence : Nat} {rest : List Nat}
    (front : s.loop.pending = sequence :: rest) : rest.head? ≠ some sequence := by
  obtain ⟨history, reachable, rfl⟩ := History.remembered h
  have ordered := (List.pairwise_append.mp reachable.accounts.tallied.ordered).2.1
  rw [show history.pending = sequence :: rest from front, List.pairwise_cons] at ordered
  intro same
  exact absurd (ordered.1 sequence (List.mem_of_mem_head? same)) (Nat.lt_irrefl sequence)

/-- What a step in which nothing is taken does to a call of `run_one`. -/
inductive Fares (source : TimeSource) (s : Runloop) (call call' : Call) : Prop
  | same (same : call' = call)
  | seeks (before : call.seeking = true) (seeking : call'.seeking = true)
      (pass : call'.pass = call.pass)
  | starts (marked : call.control = .marked) (seeking : call'.seeking = true)
      (boundary : call'.pass.boundary = source.now s.reads)
  | quits (quit : s.loop.quit = true) (finished : call'.seeking = false)
  | ends (settled : call.settled = true) (finished : call'.seeking = false)
  | marks (unstarted : call'.started = false)

theorem Successive.kind {call : Call} (h : s.Successive) (mem : call ∈ s.calls)
    (seeking : call.seeking = true) : call.kind = .runOne :=
  h.2 call mem (by simp [Call.underWay, seeking])

theorem Moves.fares {call call' : Call} {reads : Nat} (moves : Moves source s call reads call')
    (free : s.holder = none) (successive : s.Successive) (mem : call ∈ s.calls) :
    Fares source s call call' := by
  cases moves with
  | mark outermost entering => exact .marks rfl
  | start marked =>
    refine .starts marked ?_ ?_
    · unfold Runloop.start
      cases call.kind with
      | run | runOne | runFor | runPending => rfl
    · unfold Runloop.start
      cases call.kind with
      | run | runOne | runFor | runPending => rfl
  | turn i at' held =>
    rw [free] at held
    cases held
  | wake waiting => exact .seeks (by simp [Call.seeking, waiting]) rfl rfl
  | ran running =>
    have kind := successive.2 call mem (by simp [Call.underWay, running])
    refine .ends (by simp [Call.settled, Call.started, Call.seeking, running]) ?_
    simp [Runloop.ranOne, kind, Call.seeking]
  | throws running =>
    exact .ends (by simp [Call.settled, Call.started, Call.seeking, running]) rfl
  | unmark leaving =>
    exact .ends (by simp [Call.settled, Call.started, Call.seeking, leaving]) rfl

theorem Reachable.fares (h : Reachable source s) (successive : s.Successive) {sequence : Nat}
    (front : s.loop.pending.head? = some sequence) (stays : t.loop.pending.head? = some sequence)
    (step : Step source s t)
    (idle : t.loop.pending = s.loop.pending → ∀ (i : Nat) (call : Call),
      t.calls[i]? = some call → call.control = .running → s.calls[i]? = some call)
    {i : Nat} {call call' : Call} (at' : s.calls[i]? = some call)
    (there : t.calls[i]? = some call') : Fares source s call call' := by
  have mem := List.mem_of_getElem? at'
  rcases step.acts at' with ⟨held, rfl⟩ | ⟨other, there', moved⟩
  · obtain ⟨holding, there', holds⟩ := h.held held
    obtain rfl := Option.some.inj (at'.symm.trans there')
    obtain rfl := Option.some.inj ((turned_call at').symm.trans there)
    have sound := h.sound call mem
    have queued : s.loop.pending ≠ [] := by
      intro empty
      rw [empty] at front
      cases front
    have kept {first : Nat} {rest : List Nat} (popped : s.loop.pending = first :: rest)
        (left : (s.turn source.now call).1.pending = rest) : False := by
      rw [popped] at front
      obtain rfl := Option.some.inj front
      exact h.popped popped (left ▸ stays)
    cases control : call.control with
    | looping =>
      have kind := successive.kind mem (by simp [Call.seeking, control])
      have untimed := sound.untimed (by simp [kind])
      refine .seeks (by simp [Call.seeking, control]) ?_ ?_
      · simp [Runloop.turn, control, Loop.condition, untimed, Call.seeking]
      · simp [Runloop.turn, control, Loop.condition, untimed]
    | next refreshed =>
      have unmoved (pending : (s.turn source.now call).1.pending = s.loop.pending)
          (running : (s.turn source.now call).2.2.control = .running) : False := by
        have before := idle pending i _ there running
        have same := congrArg Call.control (Option.some.inj (at'.symm.trans before))
        rw [control, running] at same
        cases same
      have round := @turn_next source.now s _ _ control
      generalize s.turn source.now call = turn at round kept unmoved ⊢
      generalize s.loop.nextTakes source.now s.reads call = work at round
      cases round with
      | quits quit => exact .quits quit rfl
      | timer going due => exact (unmoved rfl rfl).elim
      | task going timers idle popped => exact (kept popped rfl).elim
      | taskAlone going timers popped => exact (kept popped rfl).elim
      | refresh going timers idle empty => exact absurd empty queued
      | wait going idle empty le resting => exact absurd empty queued
    | draining timersDone =>
      have kind := successive.kind mem (by simp [Call.seeking, control])
      rw [sound.pending timersDone control] at kind
      cases kind
    | entering | marked | waiting | running | leaving | returned | thrown =>
      rw [control] at holds
      cases holds
  · obtain rfl := Option.some.inj (there.symm.trans there')
    rcases moved with rfl | ⟨free, moves⟩
    · exact .same rfl
    · exact moves.fares free successive mem

end Runloop

namespace Timers

variable {source : TimeSource} {s t : Timers} {n : Nat}

/-- The timers taken after the first `n` takes. -/
def since (s : Timers) (n : Nat) : List Nat := (s.takes.drop n).map Prod.snd

/-- A step while the calls are of `run_one`, one at a time, and a task stays at the front. -/
def OneByOne (source : TimeSource) (sequence : Nat) (s t : Timers) : Prop :=
  Step source s t ∧ t.runloop.Successive ∧ t.runloop.loop.pending.head? = some sequence

/-- Where a step is the start of a call, no timer taken before is due at its boundary. -/
def Rested (source : TimeSource) (n : Nat) (s t : Timers) : Prop :=
  ∀ (j : Nat) (before after : Call), s.runloop.calls[j]? = some before →
    t.runloop.calls[j]? = some after → before.control = .marked → after.control ≠ .marked →
    ∀ slot ∈ s.slots, slot.id ∈ s.since n → source.now s.runloop.reads < slot.deadline

/-- A step that neither installs a timer nor is followed by a request to quit. -/
def Undisturbed (s t : Timers) : Prop :=
  t.runloop.loop.quit = false ∧ ∀ id ∈ t.installed, id ∈ s.installed

/-- No timer was taken twice, and none that was taken is due for a call that seeks. -/
structure Ahead (source : TimeSource) (sequence n : Nat) (s : Timers) : Prop where
  sound : Sound source s
  successive : s.runloop.Successive
  front : s.runloop.loop.pending.head? = some sequence
  length : n ≤ s.takes.length
  once : (s.since n).Nodup
  ahead : ∀ (j : Nat) (call : Call), s.runloop.calls[j]? = some call → call.seeking = true →
    ∀ slot ∈ s.slots, slot.id ∈ s.since n → call.pass.boundary < slot.deadline

theorem takes_drop {i id : Nat} (length : n ≤ s.takes.length)
    (takes : t.takes = s.takes ++ [(i, id)]) :
    t.takes.drop n = s.takes.drop n ++ [(i, id)] ∧ t.since n = s.since n ++ [id] := by
  have eq : t.takes.drop n = s.takes.drop n ++ [(i, id)] := by
    rw [takes, List.drop_append_of_le_length length]
  exact ⟨eq, by rw [since, eq, List.map_append]; rfl⟩

theorem since_subset {id : Nat} (mem : id ∈ s.since n) : id ∈ s.takes.map Prod.snd :=
  ((List.drop_sublist n s.takes).map Prod.snd).mem mem

/-- A call at which a turn takes something has nothing to seek any more. -/
theorem turn_settled {source : TimeSource} {s : Runloop} {call : Call}
    (running : (s.turn source.now call).2.2.control = .running) :
    (s.turn source.now call).2.2.seeking = false := by
  simp [Call.seeking, running]

/-- Where one call takes a timer, every other stays as it was. -/
theorem take_others {i j : Nat} {call call' : Call} (other : j ≠ i)
    (there : (s.runloop.turned source i call).calls[j]? = some call') :
    s.runloop.calls[j]? = some call' :=
  (List.getElem?_set_ne (Ne.symm other)).symm.trans there

theorem Ahead.step {sequence : Nat} (h : Ahead source sequence n s)
    (next : OneByOne source sequence s t) (rested : Rested source n s t) :
    Ahead source sequence n t := by
  obtain ⟨step, successive, stays⟩ := next
  have sound := h.sound.step step
  cases h.sound.effect step with
  | @take i call which slots at' held due left running runloop takes =>
    obtain ⟨_, since⟩ := takes_drop h.length takes
    obtain ⟨mem, _⟩ := TimerSchedule.takeDue_some due
    have seeking : call.seeking = true := by
      obtain ⟨holding, there, holds⟩ := h.sound.runloop.held held
      obtain rfl := Option.some.inj (at'.symm.trans there)
      exact Runloop.seeking_of_holds holds
    refine ⟨sound, successive, stays, ?_, ?_, ?_⟩
    · rw [takes, List.length_append]
      exact Nat.le_add_right_of_le h.length
    · rw [since, List.nodup_append]
      refine ⟨h.once, List.pairwise_singleton _ _, ?_⟩
      rintro id taken last same rfl
      rw [List.mem_singleton.mp same] at taken
      have late := h.ahead i call at' seeking which mem taken
      exact absurd (TimerSchedule.takeDue_due due).1 (Int.not_le.mpr late)
    · -- the call that took is the only one under way
      intro j other there seeks
      have mine : t.runloop.calls[i]? = some (s.runloop.turn source.now call).2.2 := by
        rw [runloop]
        exact Runloop.turned_call at'
      obtain rfl := Runloop.countP_le_one successive.1 there mine
        (by simp [Call.underWay, seeks]) (by simp [Call.underWay, running])
      obtain rfl := Option.some.inj (there.symm.trans mine)
      rw [turn_settled running] at seeks
      cases seeks
  | other runloop takes slots idle =>
    have since : t.since n = s.since n := by rw [Timers.since, takes, Timers.since]
    refine ⟨sound, successive, stays, takes ▸ h.length, since ▸ h.once, ?_⟩
    intro j call' there seeks slot mem taken
    rw [since] at taken
    have old : slot ∈ s.slots := by
      rcases slots slot mem with old | ⟨_, new⟩
      · exact old
      · exact absurd (since_subset taken) new
    rcases runloop with same | moves
    · exact h.ahead j call' (same ▸ there) seeks slot old taken
    rcases moves.entered there with ⟨call, at'⟩ | entering
    · cases h.sound.runloop.fares h.successive h.front stays moves idle at' there with
      | same same => exact h.ahead j call' (same ▸ at') seeks slot old taken
      | seeks before seeking pass =>
        rw [pass]
        exact h.ahead j call at' before slot old taken
      | starts marked seeking boundary =>
        rw [boundary]
        refine rested j call call' at' there marked ?_ slot old taken
        intro still
        simp [Call.seeking, still] at seeks
      | quits quit finished | ends settled finished =>
        rw [finished] at seeks
        cases seeks
      | marks unstarted =>
        unfold Call.started at unstarted
        unfold Call.seeking at seeks
        cases control : call'.control <;> simp [control] at unstarted seeks
    · simp [Call.seeking, entering] at seeks

/-! ## Every call takes something -/

/-- A call that has settled had started before, or has taken a timer since. -/
def Served (start : Runloop) (n : Nat) (s : Timers) : Prop :=
  ∀ (j : Nat) (call : Call), s.runloop.calls[j]? = some call → call.settled = true →
    (∃ before, start.calls[j]? = some before ∧ before.started = true) ∨
      j ∈ (s.takes.drop n).map Prod.fst

theorem Served.step {start : Runloop} {sequence : Nat} (served : Served start n s)
    (h : Ahead source sequence n s) (next : OneByOne source sequence s t)
    (going : s.runloop.loop.quit = false) : Served start n t := by
  obtain ⟨step, successive, stays⟩ := next
  intro j call' there settled
  cases h.sound.effect step with
  | @take i call which slots at' held due left running runloop takes =>
    obtain ⟨drop, _⟩ := takes_drop h.length takes
    rw [drop, List.map_append]
    by_cases own : j = i
    · exact Or.inr (List.mem_append_right _ (List.mem_singleton.mpr own))
    · rw [runloop] at there
      refine (served j call' (take_others own there) settled).imp_right ?_
      exact List.mem_append_left _
  | other runloop takes slots idle =>
    rw [takes]
    rcases runloop with same | moves
    · exact served j call' (same ▸ there) settled
    rcases moves.entered there with ⟨call, at'⟩ | entering
    · cases h.sound.runloop.fares h.successive h.front stays moves idle at' there with
      | same same => exact served j call' (same ▸ at') settled
      | seeks before seeking pass | starts marked seeking boundary =>
        simp [Call.settled, seeking] at settled
      | quits quit finished =>
        rw [going] at quit
        cases quit
      | ends before finished => exact served j call at' before
      | marks unstarted => simp [Call.settled, unstarted] at settled
    · simp [Call.settled, Call.started, entering] at settled

/-- With nothing installed, what is taken was installed before. -/
structure Settled (start : Timers) (n : Nat) (s : Timers) : Prop where
  served : Served start.runloop n s
  going : s.runloop.loop.quit = false
  installed : ∀ id ∈ s.installed, id ∈ start.installed
  taken : ∀ id ∈ s.since n, id ∈ start.installed

theorem Settled.step {start : Timers} {sequence : Nat} (h : Settled start n s)
    (ahead : Ahead source sequence n s) (next : OneByOne source sequence s t)
    (quiet : Undisturbed s t) : Settled start n t := by
  refine ⟨h.served.step ahead next h.going, quiet.1,
    fun id mem => h.installed id (quiet.2 id mem), ?_⟩
  cases ahead.sound.effect next.1 with
  | @take i call which slots at' held due left running runloop takes =>
    obtain ⟨_, since⟩ := takes_drop ahead.length takes
    rw [since]
    intro id mem
    rcases List.mem_append.mp mem with old | last
    · exact h.taken id old
    · rw [List.mem_singleton.mp last]
      exact h.installed _ (List.mem_map.mpr ⟨which, (TimerSchedule.takeDue_some due).1, rfl⟩)
  | other runloop takes slots idle =>
    rw [since, takes]
    exact h.taken

/-- In every run of calls of `run_one`, one at a time, in which no call starts at a time when a
timer it took before is due again, no timer is taken twice before the task at the front; and
with no request to quit and nothing installed, no more calls come to their end before that than
there were timers. -/
theorem run_one_fair (source : TimeSource) (s : Timers) (h : s.Reachable source) (sequence : Nat)
    (front : s.runloop.loop.pending.head? = some sequence) (successive : s.runloop.Successive) :
    (∀ t, Relation.ReflTransGen (fun u v => OneByOne source sequence u v ∧
        Rested source s.takes.length u v) s t → (t.since s.takes.length).Nodup) ∧
    (s.runloop.loop.quit = false → ∀ t, Relation.ReflTransGen (fun u v =>
        (OneByOne source sequence u v ∧ Rested source s.takes.length u v) ∧ Undisturbed u v) s t →
      ∀ calls : List Nat, calls.Nodup →
        (∀ j ∈ calls, (∀ call, s.runloop.calls[j]? = some call → call.started = false) ∧
          ∃ call, t.runloop.calls[j]? = some call ∧ call.ended = true) →
        calls.length ≤ s.slots.length) := by
  have none : s.since s.takes.length = [] := by simp [since]
  have untaken (id : Nat) : id ∉ s.since s.takes.length := by simp [none]
  have start : Ahead source sequence s.takes.length s := by
    refine ⟨h.sound, successive, front, Nat.le_refl _, ?_, ?_⟩
    · rw [none]
      exact List.nodup_nil
    · exact fun j call at' seeking slot mem taken => absurd taken (untaken slot.id)
  have settled (going : s.runloop.loop.quit = false) : Settled s s.takes.length s := by
    refine ⟨fun j call at' settled => Or.inl ⟨call, at', ?_⟩, going, fun _ mem => mem, ?_⟩
    · exact (Bool.and_eq_true_iff.mp settled).1
    · exact fun id taken => absurd taken (untaken id)
  constructor
  · intro t run
    have known := Transition.preserved (P := Ahead source sequence s.takes.length)
      (fun u v ahead next => ahead.step next.1 next.2) start run
    exact known.once
  · intro going t run calls distinct ended
    have known := Transition.preserved (P := fun u =>
      Ahead source sequence s.takes.length u ∧ Settled s s.takes.length u)
      (fun u v known next => ⟨known.1.step next.1.1 next.1.2, known.2.step known.1 next.1.1 next.2⟩)
      ⟨start, settled going⟩ run
    obtain ⟨ahead, settled⟩ := known
    have takers : ∀ j ∈ calls, j ∈ (t.takes.drop s.takes.length).map Prod.fst := by
      intro j mem
      obtain ⟨unstarted, call, there, finished⟩ := ended j mem
      refine (settled.served j call there (Runloop.settled_of_ended finished)).resolve_left ?_
      rintro ⟨before, at', started⟩
      rw [unstarted before at'] at started
      cases started
    have few := (List.Nodup.subperm distinct takers).length_le
    have timers := (List.Nodup.subperm ahead.once settled.taken).length_le
    simp only [since, installed, List.length_map] at few timers
    exact few.trans timers

/-! ## A timer that is always due -/

theorem rested_untaken (untaken : s.since n = []) : Rested source n s t := by
  intro _ _ _ _ _ _ _ slot _ taken
  rw [untaken] at taken
  cases taken

theorem rested_unmarked (unmarked : ∀ call ∈ s.runloop.calls, call.control ≠ .marked) :
    Rested source n s t :=
  fun _ before _ at' _ marked => absurd marked (unmarked before (List.mem_of_getElem? at'))

/-- A repeating timer of no interval, and a task behind it in the queue. -/
def relentless (calls : List Call) (holder : Option Nat) (depth reads : Nat) (fires : List Fire) :
    Timers :=
  ⟨⟨⟨[0], [⟨0, true, 0, 0⟩], 1, depth, false, false⟩, calls, holder, reads⟩,
    Function.update (fun _ => none) 0 (some ⟨true, 0, true, .returned true⟩), 1, fires, [], [], []⟩

/-- The last of the calls of `run_one`. -/
def latest (control : Control) (handled : List Nat) (ran : Nat) : Call :=
  { Runloop.enter .runOne noDeadline with
    outermost := true
    pass := ⟨0, handled⟩
    ran := ran
    control := control }

theorem relentless_reachable : Reachable Runloop.stoppedClock (relentless [] none 0 1 []) := by
  have start : Reachable Runloop.stoppedClock ⟨Runloop.initial, fun _ => none, 0, [], [], [], []⟩ :=
    Transition.Reachable.start ⟨0, rfl⟩
  have made := Transition.Reachable.next start (.make true 0)
  have installed := Transition.Reachable.next made
    (@Step.install _ _ 0 ⟨true, 0, true, _⟩ _ rfl rfl rfl)
  have returned := Transition.Reachable.next installed (@Step.returns _ _ 0 _ rfl rfl)
  have queued := Transition.Reachable.next returned
    (.resting (.enqueue rfl) rfl rfl (by decide) (by decide))
  simp only [put, Function.update_idem] at queued
  exact queued

/-- A step with the task at the front, nothing installed and no request to quit. -/
def Onward (s t : Timers) : Prop :=
  OneByOne Runloop.stoppedClock 0 s t ∧ Undisturbed s t

section
variable {calls : List Call} {fires : List Fire}

theorem successive_last {loop : Loop} {holder : Option Nat} {reads : Nat} {last : Call}
    (finished : ∀ call ∈ calls, call.ended = true) (kind : last.kind = .runOne) :
    (⟨loop, calls ++ [last], holder, reads⟩ : Runloop).Successive := by
  have none : ∀ call ∈ calls, ¬ call.underWay = true := by
    intro call mem
    have finished := finished call mem
    unfold Call.ended at finished
    unfold Call.underWay Call.seeking
    cases control : call.control <;> simp [control] at finished ⊢
  refine ⟨?_, fun call mem underWay => ?_⟩
  · rw [List.countP_append, List.countP_eq_zero.mpr none, Nat.zero_add]
    exact List.countP_le_length
  · rcases List.mem_append.mp mem with old | new
    · exact absurd underWay (none call old)
    · rw [List.mem_singleton.mp new]
      exact kind

theorem resting_ended (finished : ∀ call ∈ calls, call.ended = true) :
    ∀ call ∈ calls, call.control ≠ .running := by
  intro call mem running
  have finished := finished call mem
  simp [Call.ended, running] at finished

theorem resting_last {last : Call} (finished : ∀ call ∈ calls, call.ended = true)
    (resting : last.control ≠ .running) : ∀ call ∈ calls ++ [last], call.control ≠ .running := by
  intro call mem
  rcases List.mem_append.mp mem with old | new
  · exact resting_ended finished call old
  · exact List.mem_singleton.mp new ▸ resting

theorem set_last (before after : Call) :
    (calls ++ [before]).set calls.length after = calls ++ [after] := by simp

theorem set_fire (before after : Fire) :
    (fires ++ [before]).set fires.length after = fires ++ [after] := by simp

theorem onward {s : Timers} {last : Call} {holder : Option Nat} {depth reads : Nat}
    (finished : ∀ call ∈ calls, call.ended = true) (kind : last.kind = .runOne)
    (step : Step Runloop.stoppedClock s (relentless (calls ++ [last]) holder depth reads fires))
    (one : s.installed = [0]) :
    Onward s (relentless (calls ++ [last]) holder depth reads fires) := by
  refine ⟨⟨step, successive_last finished kind, rfl⟩, rfl, fun id mem => ?_⟩
  rw [one]
  exact mem

/-- A call of `run_one` comes to hold the lock, whatever came before. -/
theorem relentless_starts (finished : ∀ call ∈ calls, call.ended = true) (reads : Nat) :
    Relation.ReflTransGen Onward (relentless calls none 0 reads fires)
      (relentless (calls ++ [latest (.next false) [] 0]) (some calls.length) 1 (reads + 1)
        fires) := by
  have at' (last : Call) : (calls ++ [last])[calls.length]? = some last := by simp
  have rests {last : Call} (resting : last.control ≠ .running) := resting_last finished resting
  have enters : Step Runloop.stoppedClock (relentless calls none 0 reads fires)
      (relentless (calls ++ [Runloop.enter .runOne noDeadline]) none 0 reads fires) :=
    .resting (.enter .runOne nofun) rfl rfl (resting_ended finished) (rests nofun)
  have marks : Step Runloop.stoppedClock
      (relentless (calls ++ [Runloop.enter .runOne noDeadline]) none 0 reads fires)
      (relentless ((calls ++ [Runloop.enter .runOne noDeadline]).set calls.length
        (latest .marked [] 0)) none 1 reads fires) := by
    refine .resting (.mark calls.length (Runloop.enter .runOne noDeadline) (at' _) rfl rfl) rfl rfl (rests nofun) ?_
    exact (set_last (Runloop.enter .runOne noDeadline) (latest .marked [] 0)).symm ▸ rests nofun
  have starts : Step Runloop.stoppedClock (relentless (calls ++ [latest .marked [] 0]) none 1 reads fires)
      (relentless ((calls ++ [latest .marked [] 0]).set calls.length (latest (.next false) [] 0))
        (some calls.length) 1 (reads + 1) fires) := by
    refine .resting (.start calls.length (latest .marked [] 0) (at' _) rfl rfl) rfl rfl (rests nofun) ?_
    exact (set_last (latest .marked [] 0) (latest (.next false) [] 0)).symm ▸ rests nofun
  rw [set_last] at marks starts
  exact .head (onward finished rfl enters rfl) <| .head (onward finished rfl marks rfl) <|
    .single (onward finished rfl starts rfl)

/-- It takes the timer, and the task stays where it is. -/
theorem relentless_takes (finished : ∀ call ∈ calls, call.ended = true) (reads : Nat) :
    Relation.ReflTransGen Onward
      (relentless (calls ++ [latest (.next false) [] 0]) (some calls.length) 1 reads fires)
      (relentless (calls ++ [latest .running [0] 0]) none 1 (reads + 1)
        (fires ++ [⟨calls.length, 0, .ended⟩])) := by
  have at' : (calls ++ [latest (.next false) [] 0])[calls.length]? =
      some (latest (.next false) [] 0) := by simp
  have fire (stage : Stage) : (fires ++ [⟨calls.length, 0, stage⟩])[fires.length]? =
      some ⟨calls.length, 0, stage⟩ := by simp
  have takes : Step Runloop.stoppedClock
      (relentless (calls ++ [latest (.next false) [] 0]) (some calls.length) 1 reads fires)
      (relentless ((calls ++ [latest (.next false) [] 0]).set calls.length (latest .running [0] 0))
        none 1 (reads + 1) (fires ++ [⟨calls.length, 0, .taken⟩])) :=
    @Step.take _ _ calls.length (latest (.next false) [] 0) ⟨0, true, 0, 0⟩ [⟨0, true, 0, 0⟩]
      at' rfl rfl rfl rfl
  rw [set_last] at takes
  have goes {before after : Stage}
      (step : Step Runloop.stoppedClock
        (relentless (calls ++ [latest .running [0] 0]) none 1 (reads + 1)
          (fires ++ [⟨calls.length, 0, before⟩]))
        (relentless (calls ++ [latest .running [0] 0]) none 1 (reads + 1)
          ((fires ++ [(⟨calls.length, 0, before⟩ : Fire)]).set fires.length
            ⟨calls.length, 0, after⟩))) :
      Onward
        (relentless (calls ++ [latest .running [0] 0]) none 1 (reads + 1)
          (fires ++ [⟨calls.length, 0, before⟩]))
        (relentless (calls ++ [latest .running [0] 0]) none 1 (reads + 1)
          (fires ++ [⟨calls.length, 0, after⟩])) := by
    rw [set_fire] at step
    exact onward finished rfl step rfl
  exact .head (onward finished rfl takes rfl) <| .head (goes (.calls _ (fire .taken))) <|
    .head (goes (.back _ (fire .calling))) <| .single (goes (.repeated _ (fire .back) rfl rfl))

/-- After any calls of `run_one` that are over, the next takes the timer and not the task. -/
theorem relentless_call (finished : ∀ call ∈ calls, call.ended = true)
    (ended : ∀ fire ∈ fires, fire.stage = .ended) (reads : Nat) :
    Relation.ReflTransGen Onward (relentless calls none 0 reads fires)
      (relentless (calls ++ [latest .returned [0] 1]) none 0 (reads + 2)
        (fires ++ [⟨calls.length, 0, .ended⟩])) := by
  have at' (last : Call) : (calls ++ [last])[calls.length]? = some last := by simp
  have done : ∀ fire ∈ fires ++ [⟨calls.length, 0, .ended⟩], fire.stage = .ended := by
    intro fire mem
    rcases List.mem_append.mp mem with old | new
    · exact ended fire old
    · rw [List.mem_singleton.mp new]
  have runs : Step Runloop.stoppedClock
      (relentless (calls ++ [latest .running [0] 0]) none 1 (reads + 2)
        (fires ++ [⟨calls.length, 0, .ended⟩]))
      (relentless ((calls ++ [latest .running [0] 0]).set calls.length (latest .leaving [0] 1))
        none 1 (reads + 2) (fires ++ [⟨calls.length, 0, .ended⟩])) :=
    .ran calls.length (latest .running [0] 0) (at' _) rfl rfl (fun fire mem _ => done fire mem)
  have leaves : Step Runloop.stoppedClock
      (relentless (calls ++ [latest .leaving [0] 1]) none 1 (reads + 2)
        (fires ++ [⟨calls.length, 0, .ended⟩]))
      (relentless ((calls ++ [latest .leaving [0] 1]).set calls.length (latest .returned [0] 1))
        none 0 (reads + 2) (fires ++ [⟨calls.length, 0, .ended⟩])) := by
    refine .resting (.unmark calls.length (latest .leaving [0] 1) (at' _) rfl rfl) rfl rfl
      (resting_last finished nofun) ?_
    exact (set_last (latest .leaving [0] 1) (latest .returned [0] 1)).symm ▸
      resting_last finished nofun
  rw [set_last] at runs leaves
  exact (relentless_starts finished reads).trans <| (relentless_takes finished (reads + 1)).trans <|
    .head (onward finished rfl runs rfl) <| .single (onward finished rfl leaves rfl)

end

/-- However many calls there are, one after another. -/
theorem relentless_calls (m : Nat) : ∃ calls reads fires,
    Relation.ReflTransGen Onward (relentless [] none 0 1 []) (relentless calls none 0 reads fires) ∧
    (∀ call ∈ calls, call.ended = true) ∧ (∀ fire ∈ fires, fire.stage = .ended) ∧
    calls.length = m ∧ fires.map Fire.timer = List.replicate m 0 := by
  induction m with
  | zero => exact ⟨[], 1, [], .refl, nofun, nofun, rfl, rfl⟩
  | succ m ih =>
    obtain ⟨calls, reads, fires, run, finished, ended, count, timers⟩ := ih
    refine ⟨_, _, _, run.trans (relentless_call finished ended reads), ?_, ?_, ?_, ?_⟩
    · intro call mem
      rcases List.mem_append.mp mem with old | new
      · exact finished call old
      · rw [List.mem_singleton.mp new]
        rfl
    · intro fire mem
      rcases List.mem_append.mp mem with old | new
      · exact ended fire old
      · rw [List.mem_singleton.mp new]
    · rw [List.length_append, count]
      rfl
    · rw [List.map_append, timers, List.replicate_succ']
      rfl

/-- However many calls of `run_one` come to their end, a timer that is always due is taken by
every one of them, and the task stays at the front. -/
theorem run_one_starves : ∃ s : Timers, s.Reachable Runloop.stoppedClock ∧
    s.runloop.loop.pending.head? = some 0 ∧ s.runloop.Successive ∧
    s.runloop.loop.quit = false ∧ s.slots.length = 1 ∧ ∀ m, ∃ t, Relation.ReflTransGen (fun u v =>
      OneByOne Runloop.stoppedClock 0 u v ∧ Undisturbed u v) s t ∧
    t.since s.takes.length = List.replicate m 0 ∧
    ∀ j < m, (∀ call, s.runloop.calls[j]? = some call → call.started = false) ∧
      ∃ call, t.runloop.calls[j]? = some call ∧ call.ended = true := by
  refine ⟨relentless [] none 0 1 [], relentless_reachable, rfl, by decide, rfl, rfl, fun m => ?_⟩
  obtain ⟨calls, reads, fires, run, finished, _, count, timers⟩ := relentless_calls m
  refine ⟨_, run, ?_, fun j less => ⟨nofun, ?_⟩⟩
  · rw [← timers]
    exact (List.map_map ..).trans rfl
  · rw [← count] at less
    exact ⟨calls[j], List.getElem?_eq_getElem less, finished _ (List.getElem_mem less)⟩

/-- A single call takes the timer and comes to its end. -/
theorem run_one_fair_relentless : ∃ t : Timers,
    (t.since 0).Nodup ∧ [0].length ≤ (relentless [] none 0 1 []).slots.length ∧
    ∃ call, t.runloop.calls[0]? = some call ∧ call.ended = true := by
  have run : ∃ t, Relation.ReflTransGen (fun u v => (OneByOne Runloop.stoppedClock 0 u v ∧
        Rested Runloop.stoppedClock 0 u v) ∧ Undisturbed u v) (relentless [] none 0 1 []) t ∧
      ∃ call, t.runloop.calls[0]? = some call ∧ call.ended = true := ⟨_,
    .head ⟨⟨⟨.resting (.enter .runOne nofun) rfl rfl (by decide) (by decide), by decide, rfl⟩,
      rested_untaken rfl⟩, rfl, fun _ => id⟩ <|
    .head ⟨⟨⟨.resting (.mark 0 _ rfl rfl rfl) rfl rfl (by decide) (by decide), by decide, rfl⟩,
      rested_untaken rfl⟩, rfl, fun _ => id⟩ <|
    .head ⟨⟨⟨.resting (.start 0 _ rfl rfl rfl) rfl rfl (by decide) (by decide), by decide, rfl⟩,
      rested_untaken rfl⟩, rfl, fun _ => id⟩ <|
    .head ⟨⟨⟨.take 0 _ rfl rfl rfl rfl rfl, by decide, rfl⟩,
      rested_untaken rfl⟩, rfl, fun _ => id⟩ <|
    .head ⟨⟨⟨.calls 0 rfl, by decide, rfl⟩, rested_unmarked (by decide)⟩, rfl, fun _ => id⟩ <|
    .head ⟨⟨⟨.back 0 rfl, by decide, rfl⟩, rested_unmarked (by decide)⟩, rfl, fun _ => id⟩ <|
    .head ⟨⟨⟨.repeated 0 rfl rfl rfl, by decide, rfl⟩,
      rested_unmarked (by decide)⟩, rfl, fun _ => id⟩ <|
    .single ⟨⟨⟨.ran 0 _ rfl rfl rfl (by decide), by decide, rfl⟩,
      rested_unmarked (by decide)⟩, rfl, fun _ => id⟩, _, rfl, rfl⟩
  obtain ⟨t, run, ended⟩ := run
  have fair := run_one_fair Runloop.stoppedClock _ relentless_reachable 0 rfl (by decide)
  refine ⟨t, fair.1 t (Relation.ReflTransGen.mono (fun _ _ next => next.1) _ _ run), ?_, ended⟩
  refine fair.2 rfl t run [0] (by decide) fun j mem => ?_
  rw [List.mem_singleton.mp mem]
  exact ⟨nofun, ended⟩

end Timers

end Dross
