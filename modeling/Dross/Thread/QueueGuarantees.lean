import Dross.Thread.QueueCancellation

/-!
# What an operation queue guarantees

The invariant holds of every run, so each accepted task is in one place, runs
after the results it names, and leaves with what it runs after when that is
cancelled.
-/

namespace Dross

namespace Run

variable {α : Type} {s t u : Run α}

theorem Valid.cancelled_run {id : OperationId} {task : Entry} (h : s.Valid [])
    (found : (s.backlog.takeOut id).1 = some task) :
    (s.withBacklog (s.backlog.takeOut id).2).Removal [task] (s.shared.cancel id).2.1
      (s.cancel id) := by
  have removal := (h.takeOut found).1.cancelRemoved
    ((s.backlog.takeOut id).2.waiting.length + 1) (Nat.le_refl _)
  have out : s.shared.cancel id = (true, Shared.cancelRemoved
      ((s.backlog.takeOut id).2.waiting.length + 1) [task]
      (s.withBacklog (s.backlog.takeOut id).2).shared) := by
    unfold Shared.cancel
    simp only [found]
    rfl
  unfold Run.cancel
  rw [out]
  exact removal

theorem cancel_none {id : OperationId} (none : (s.backlog.takeOut id).1 = none) :
    s.shared.cancel id = (false, [], s.shared) ∧ s.cancel id = s := by
  have out : s.shared.cancel id = (false, [], s.shared) := by
    unfold Shared.cancel
    simp only [none]
  refine ⟨out, ?_⟩
  unfold Run.cancel
  simp [out]

theorem Valid.cancel (h : s.Valid []) (id : OperationId) : (s.cancel id).Valid [] := by
  cases found : (s.backlog.takeOut id).1 with
  | none =>
    rw [(cancel_none found).2]
    exact h
  | some task => exact (h.cancelled_run found).valid

theorem Valid.step (h : s.Valid []) (step : Step s t) : t.Valid [] := by
  cases step with
  | submit options made => exact h.submit options made
  | enqueue options made => exact h.enqueue options made
  | cancel id => exact h.cancel id
  | stop => exact h.stop
  | take worker => exact h.take worker
  | finish hand value held running => exact h.finish held running value
  | done hand held ran => exact h.done held ran
  | elsewhereMakes queue other => exact h.elsewhereMakes other
  | elsewhereSettles id state other => exact h.elsewhereSettles other

section Initially

variable {number workers : Nat} {operations : Operations α}

theorem not_live_initial (task : Entry) : ¬ (initial number workers operations).Live [] task := by
  rintro ((⟨_, ready⟩ | waiting | limbo) | running)
  · cases ready
  · cases waiting
  · cases limbo
  · cases running

theorem resultOf_initial (order : Nat) :
    (initial number workers operations).resultOf order = none := by
  simp [resultOf, initial]

theorem afterOf_initial (order : Nat) : (initial number workers operations).afterOf order = [] := by
  simp [afterOf, initial]

theorem books_initial : (initial number workers operations).Books [] := by
  refine ⟨?_, ?_, rfl, ?_, ?_, ?_, ?_⟩
  · intro order
    simp [liveTally, Backlog.readyTally, Backlog.aside, held, initial, Backlog.make]
  · intro order
    simp [liveTally, Backlog.readyTally, Backlog.aside, held, initial, Backlog.make]
  · intro task live
    exact absurd live (not_live_initial task)
  · intro order other id hr
    rw [resultOf_initial] at hr
    cases hr
  · intro order other id ha
    rw [afterOf_initial] at ha
    cases ha
  · intro order
    simp [held, initial]

theorem results_initial (fresh : ∀ id, operations.lastId < id → operations.stateOf id = none)
    (foreign : ∀ id, operations.stateOf id ≠ none → operations.queueOf id ≠ number) :
    (initial number workers operations).Results [] := by
  refine ⟨?_, List.nodup_nil, ?_, ?_, fresh, ?_, nofun, ?_, nofun, nofun⟩
  · intro id
    refine ⟨nofun, ?_⟩
    rintro ⟨task, live, -⟩
    exact absurd live (not_live_initial task)
  · intro order id hr
    rw [resultOf_initial] at hr
    cases hr
  · intro order id ha
    rw [afterOf_initial] at ha
    cases ha
  · intro task id idle
    exact absurd (Or.inl idle) (not_live_initial task)
  · intro id here pending
    change operations.stateOf id = some .pending at pending
    exact absurd here (foreign id (by rw [pending]; simp))

theorem links_initial : (initial number workers operations).Links [] := by
  refine ⟨nofun, nofun, nofun, ?_⟩
  intro order _ id ha
  rw [afterOf_initial] at ha
  cases ha

end Initially

theorem Starts.valid (h : s.Starts) : s.Valid [] := by
  obtain ⟨number, workers, operations, rfl, fresh, foreign⟩ := h
  exact ⟨books_initial, results_initial fresh foreign, links_initial⟩

theorem Reachable.valid (h : s.Reachable) : s.Valid [] :=
  @Transition.Reachable.invariant _ Starts Step _ (fun _ => Starts.valid)
    (fun _ _ => Valid.step) _ h

theorem Reachable.later (h : s.Reachable) (run : Relation.ReflTransGen Step s t) : t.Reachable :=
  Transition.Reachable.later h run

/-! ## What a run only adds to -/

/-- The log, the orders taken and the orders cancelled only grow, and a result
that has left pending stays as it is. -/
structure Extends (s t : Run α) : Prop where
  log : s.log <+: t.log
  taken : ∀ order ∈ s.taken, order ∈ t.taken
  cancelled : ∀ order ∈ s.cancelled, order ∈ t.cancelled
  settled : ∀ id state, s.operations.stateOf id = some state → state ≠ .pending →
    t.operations.stateOf id = some state

theorem Extends.refl (s : Run α) : s.Extends s :=
  ⟨List.prefix_rfl, fun _ h => h, fun _ h => h, fun _ _ h _ => h⟩

theorem Extends.trans (h : s.Extends t) (h' : t.Extends u) : s.Extends u :=
  ⟨h.log.trans h'.log, fun o ho => h'.taken o (h.taken o ho),
    fun o ho => h'.cancelled o (h.cancelled o ho),
    fun id state hs hp => h'.settled id state (h.settled id state hs hp) hp⟩

theorem record_log_cases (shared : Shared α) (submission : Submission) :
    (s.record shared submission).log = s.log ∨
      (s.record shared submission).log = s.log ++ [submission] := by
  unfold record
  dsimp only
  split
  · exact Or.inr rfl
  · exact Or.inl rfl

theorem record_log (shared : Shared α) (submission : Submission) :
    s.log <+: (s.record shared submission).log := by
  rcases record_log_cases shared submission with same | grown
  · rw [same]
  · rw [grown]
    exact List.prefix_append _ _

theorem make_keeps {operations : Operations α} (fresh : ∀ id, operations.lastId < id →
      operations.stateOf id = none) (queue : Nat) {id : OperationId} {state : ResultState α}
    (was : operations.stateOf id = some state) :
    (operations.make queue).2.stateOf id = some state := by
  have old : id ≠ operations.lastId + 1 := by
    rintro rfl
    rw [fresh _ (Nat.lt_succ_self _)] at was
    cases was
  rw [Operations.stateOf_make, if_neg old, was]

theorem Valid.extends (h : s.Valid []) (step : Step s t) : s.Extends t := by
  have fresh := h.results.fresh
  cases step with
  | submit options made =>
    refine ⟨record_log _ _, fun _ h => h, fun _ h => h, ?_⟩
    intro id state was _
    change (s.shared.submit options).2.1.operations.stateOf id = _
    rcases submit_cases s.shared options with eq | ⟨eq, -⟩ | ⟨_, _, _, _, _, eq⟩
    all_goals rw [eq]; exact was
  | enqueue options made =>
    refine ⟨record_log _ _, fun _ h => h, fun _ h => h, ?_⟩
    intro id state was settled
    change (s.shared.enqueue options).2.1.operations.stateOf id = _
    rcases enqueue_cases s.shared options with ⟨_, eq⟩ | ⟨_, _, _, eq⟩ | ⟨_, _, _, _, _, eq⟩
    · rw [eq]
      exact was
    · rw [eq]
      exact Operations.settle_keeps _ _ _ (make_keeps fresh _ was) settled
    · rw [eq]
      exact make_keeps fresh _ was
  | cancel id =>
    cases found : (s.backlog.takeOut id).1 with
    | none =>
      rw [(cancel_none found).2]
      exact .refl s
    | some task =>
      have removal := h.cancelled_run found
      have limbo := (h.takeOut found).1
      refine ⟨List.prefix_rfl, fun _ h => h, fun _ ho => List.mem_append_left _ ho, ?_⟩
      intro other state was settled
      rw [removal.states, if_neg, withBacklog_operations, was]
      intro gone
      obtain ⟨e, he, hr⟩ := List.mem_map.mp gone
      have pending := limbo.results.idle e other (removal.idle e he) hr
      rw [withBacklog_operations, was] at pending
      exact settled (Option.some.inj pending)
  | stop =>
    refine ⟨List.prefix_rfl, fun _ h => h, fun _ h => h, fun id state was _ => ?_⟩
    change s.shared.stop.1.operations.stateOf id = _
    unfold Shared.stop
    split <;> exact was
  | take worker =>
    unfold Run.take
    dsimp only
    split
    · exact ⟨List.prefix_rfl, fun _ h => h, fun _ h => h, fun _ _ was _ => was⟩
    · exact ⟨List.prefix_rfl, fun _ h => List.mem_cons_of_mem _ h, fun _ h => h,
        fun _ _ was _ => was⟩
  | finish hand value held running =>
    refine ⟨List.prefix_rfl, fun _ h => h, fun _ h => h, fun id state was settled => ?_⟩
    change (s.shared.finishResult hand.entry value).operations.stateOf id = _
    unfold Shared.finishResult
    cases hand.entry.result with
    | none => exact was
    | some own => exact Operations.settle_keeps _ _ _ was settled
  | done hand held ran =>
    exact ⟨List.prefix_rfl, fun _ h => h, fun _ h => h, fun _ _ was _ => was⟩
  | elsewhereMakes queue other =>
    exact ⟨List.prefix_rfl, fun _ h => h, fun _ h => h, fun _ _ was _ => make_keeps fresh _ was⟩
  | elsewhereSettles id state other =>
    exact ⟨List.prefix_rfl, fun _ h => h, fun _ h => h,
      fun _ _ was settled => Operations.settle_keeps _ _ _ was settled⟩

theorem Reachable.extends (h : s.Reachable) (run : Relation.ReflTransGen Step s t) :
    s.Extends t := by
  induction run with
  | refl => exact .refl s
  | tail run step ih => exact ih.trans ((h.later run).valid.extends step)

theorem Extends.resultOf (h : s.Extends t) {order : Nat} (logged : order < s.log.length) :
    t.resultOf order = s.resultOf order := by
  obtain ⟨more, eq⟩ := h.log
  simp only [Run.resultOf, ← eq, List.getElem?_append_left logged]

/-! ## Accounting -/

theorem Valid.cancelled_not_taken (h : s.Valid []) {order : Nat} (gone : order ∈ s.cancelled) :
    order ∉ s.taken := by
  intro ht
  have accounted := h.books.accounted order
  have taken := h.books.taken order
  have ht := List.count_pos_iff.mpr ht
  have gone := List.count_pos_iff.mpr gone
  unfold liveTally at accounted
  split at accounted <;> omega

/-- Every order accepted is in one place: in a ready list, aside, in a hand,
finished or cancelled. None goes out twice, and none that was cancelled does. -/
theorem exactly_once (h : s.Reachable) :
    (∀ order, tally (s.backlog.tasks .low) order + tally (s.backlog.tasks .normal) order +
      tally (s.backlog.tasks .high) order + tally s.backlog.aside order + tally s.held order +
      s.finished.count order + s.cancelled.count order =
        if order < s.backlog.accepted then 1 else 0) ∧
    (∀ order, order ∈ s.backlog.unfinished ↔
      (∃ priority, ∃ task ∈ s.backlog.tasks priority, task.order = order) ∨
      (∃ task ∈ s.backlog.aside, task.order = order) ∨
      ∃ hand ∈ s.hands, hand.entry.order = order) ∧
    s.taken.Nodup ∧
    ∀ t, Relation.ReflTransGen Step s t →
      (∀ order ∈ s.cancelled, order ∉ t.taken) ∧
      ∀ order, order ∈ s.finished ∨ order ∈ s.taken → order ∉ t.cancelled := by
  have valid := h.valid
  refine ⟨?_, ?_, ?_, ?_⟩
  · intro order
    have := valid.books.accounted order
    simpa [liveTally, Backlog.readyTally] using this
  · intro order
    rw [valid.books.unfinished, liveTally_pos]
    constructor
    · rintro ⟨task, ((⟨p, hp⟩ | ha | hn) | hh), ho⟩
      · exact Or.inl ⟨p, task, hp, ho⟩
      · exact Or.inr (Or.inl ⟨task, ha, ho⟩)
      · cases hn
      · obtain ⟨hand, hm, rfl⟩ := List.mem_map.mp hh
        exact Or.inr (Or.inr ⟨hand, hm, ho⟩)
    · rintro (⟨p, task, hp, ho⟩ | ⟨task, ha, ho⟩ | ⟨hand, hm, ho⟩)
      · exact ⟨task, Or.inl (Or.inl ⟨p, hp⟩), ho⟩
      · exact ⟨task, Or.inl (Or.inr (Or.inl ha)), ho⟩
      · exact ⟨hand.entry, Or.inr (List.mem_map_of_mem (f := Hand.entry) hm), ho⟩
  · rw [List.nodup_iff_count_le_one]
    intro order
    have accounted := valid.books.accounted order
    have taken := valid.books.taken order
    unfold liveTally at accounted
    split at accounted <;> omega
  · intro t run
    have later := (h.later run).valid
    have adds := h.extends run
    refine ⟨fun order ho => later.cancelled_not_taken (adds.cancelled order ho), ?_⟩
    rintro order (hf | ht) hc
    · have taken := valid.books.taken order
      have hf := List.count_pos_iff.mpr hf
      exact later.cancelled_not_taken hc
        (adds.taken order (List.count_pos_iff.mp (by omega)))
    · exact later.cancelled_not_taken hc (adds.taken order ht)

/-- Two tasks, the second to run after the first. -/
def paired : Run Nat := ((initial 1 1 .initial).enqueue {}).enqueue { after := [1] }

theorem paired_reachable : paired.Reachable := by
  have start : (initial 1 1 (Operations.initial : Operations Nat)).Reachable :=
    Transition.Reachable.start (initial_starts 1 1)
  have first := start.later (.single (.enqueue {} (by simp)))
  refine first.later (.single (.enqueue { after := [1] } ?_))
  intro id mem
  rw [List.mem_singleton.mp mem]
  decide

/-- A third task was cancelled while the first ran, and the second has been taken since. -/
def scattered : Run Nat :=
  (((((paired.enqueue {}).take 0).cancel 3).finish ⟨0, ⟨0, some 1⟩, false⟩ 7).done
    ⟨0, ⟨0, some 1⟩, true⟩).take 0

theorem scattered_reachable : scattered.Reachable := by
  have third := paired_reachable.later (.single (.enqueue {} (by simp)))
  have taken := third.later (.single (.take 0))
  have cancelled := taken.later (.single (.cancel 3))
  have finished := cancelled.later
    (.single (.finish ⟨0, ⟨0, some 1⟩, false⟩ 7 List.mem_cons_self rfl))
  have done := finished.later (.single (.done ⟨0, ⟨0, some 1⟩, true⟩ List.mem_cons_self rfl))
  exact done.later (.single (.take 0))

theorem exactly_once_scattered : scattered.finished = [0] ∧ scattered.cancelled = [2] ∧
    scattered.held = [⟨1, some 2⟩] ∧ scattered.backlog.accepted = 3 ∧
    (∀ order, order ∈ scattered.backlog.unfinished ↔ order = 1) ∧ scattered.taken.Nodup ∧
    ∀ t, Relation.ReflTransGen Step scattered t →
      2 ∉ t.taken ∧ 0 ∉ t.cancelled ∧ 1 ∉ t.cancelled := by
  obtain ⟨-, unfinished, once, never⟩ := exactly_once scattered_reachable
  refine ⟨rfl, rfl, rfl, rfl, fun order => ?_, once, fun t run => ?_⟩
  · rw [unfinished]
    constructor
    · rintro (⟨priority, task, mem, _⟩ | ⟨task, mem, _⟩ | ⟨hand, mem, rfl⟩)
      · cases priority <;> cases mem
      · cases mem
      · obtain rfl : hand = ⟨0, ⟨1, some 2⟩, false⟩ := List.mem_singleton.mp mem
        rfl
    · rintro rfl
      exact Or.inr (Or.inr ⟨_, List.mem_cons_self, rfl⟩)
  · obtain ⟨gone, kept⟩ := never t run
    exact ⟨gone 2 (by decide), kept 0 (Or.inl (by decide)), kept 1 (Or.inr (by decide))⟩

/-! ## Running after -/

/-- What keeps a task aside: a result it names whose task has not been through
`done`, and which came before it. -/
theorem Valid.held_up (h : s.Valid []) {w : Waiting} (mem : w ∈ s.backlog.waiting) :
    ∃ id ∈ s.afterOf w.task.order, ∃ task, s.Live [] task ∧ task.result = some id ∧
      task.order < w.task.order := by
  obtain ⟨counted, pos⟩ := h.links.counted w mem
  rw [counted, Backlog.occurrences_pos] at pos
  obtain ⟨id, orders, hm, ho⟩ := pos
  obtain ⟨named, -⟩ := h.links.listed id orders hm _ ho
  obtain ⟨task, live, hr⟩ := (h.results.keys id).mp (AssocList.contains_iff.mpr ⟨orders, hm⟩)
  refine ⟨id, named, task, live, hr, ?_⟩
  exact h.books.earlier _ _ id named ((h.books.recorded task live).trans hr)

/-- Waiting tasks cannot all wait for one another: the first of them waits for
one that is ready or in a hand. -/
theorem Valid.progress (h : s.Valid []) {w : Waiting} (mem : w ∈ s.backlog.waiting) :
    (∃ priority, s.backlog.tasks priority ≠ []) ∨ s.hands ≠ [] := by
  induction order : w.task.order using Nat.strong_induction_on generalizing w with
  | _ n ih =>
    obtain ⟨id, _, task, live, _, before⟩ := h.held_up mem
    rcases live with (⟨p, hp⟩ | ha | hn) | hh
    · exact Or.inl ⟨p, List.ne_nil_of_mem hp⟩
    · obtain ⟨w', hw', rfl⟩ := Backlog.mem_aside.mp ha
      exact ih w'.task.order (order ▸ before) hw' rfl
    · cases hn
    · obtain ⟨hand, hm, _⟩ := List.mem_map.mp hh
      exact Or.inr (List.ne_nil_of_mem hm)

/-- A task is taken once every result it names has returned, and set aside only
while one of them has not been through `done`. -/
theorem runs_after (h : s.Reachable) :
    (∀ worker task, (s.backlog.take worker).1 = some task →
      ∀ id ∈ s.afterOf task.order, ∃ value, s.operations.stateOf id = some (.returned value)) ∧
    (∀ hand ∈ s.hands, ∀ id ∈ s.afterOf hand.entry.order,
      ∃ value, s.operations.stateOf id = some (.returned value)) ∧
    (∀ w ∈ s.backlog.waiting,
      (∃ id ∈ s.afterOf w.task.order, ∃ before ∈ s.backlog.unfinished,
        s.resultOf before = some id) ∧
      w.remaining = Backlog.occurrences s.backlog.dependents w.task.order) ∧
    (s.backlog.waiting ≠ [] → (∃ priority, s.backlog.tasks priority ≠ []) ∨ s.hands ≠ []) := by
  have valid := h.valid
  refine ⟨?_, ?_, ?_, ?_⟩
  · intro worker task taken
    rcases s.backlog.take_cases worker with ⟨next, p, left, front, eq⟩ | ⟨_, eq⟩
    · rw [eq] at taken
      cases taken
      exact valid.links.started _
        (Or.inl ⟨p, task, by rw [front]; exact List.mem_cons_self, rfl⟩)
    · rw [eq] at taken
      cases taken
  · intro hand mem
    exact valid.links.started _
      (Or.inr (Or.inl ⟨_, List.mem_map_of_mem (f := Hand.entry) mem, rfl⟩))
  · intro w mem
    obtain ⟨id, named, task, live, hr, _⟩ := valid.held_up mem
    refine ⟨⟨id, named, task.order, ?_, (valid.books.recorded task live).trans hr⟩,
      (valid.links.counted w mem).1⟩
    exact (valid.books.unfinished _).mpr (liveTally_pos.mpr ⟨task, live, rfl⟩)
  · intro some
    obtain ⟨w, mem⟩ := List.exists_mem_of_ne_nil _ some
    exact valid.progress mem

theorem runs_after_paired : (∃ p, paired.backlog.tasks p ≠ []) ∨ paired.hands ≠ [] :=
  (runs_after paired_reachable).2.2.2 (by decide)

/-! ## What a cancel takes with it -/

/-- A task that runs after a cancelled one is neither ready, waiting, in a hand
nor finished, so it is cancelled too. -/
theorem Valid.after_cancelled (h : s.Valid []) {before order : Nat}
    (after : s.RunsAfter before order) (gone : before ∈ s.cancelled) : order ∈ s.cancelled := by
  obtain ⟨id, named, result⟩ := after
  have state := h.results.cancelled before gone id result
  have unreturned : ¬ ∃ v, s.operations.stateOf id = some (.returned v) := by
    rintro ⟨v, hv⟩
    rw [state] at hv
    cases hv
  have accounted := h.books.accounted order
  have lt := afterOf_lt named
  rw [h.books.logged] at lt
  rw [if_pos lt] at accounted
  by_contra kept
  have none : s.cancelled.count order = 0 := List.count_eq_zero.mpr kept
  by_cases done : order ∈ s.finished
  · exact unreturned (h.links.started order (Or.inr (Or.inr done)) id named)
  have unfinished : s.finished.count order = 0 := List.count_eq_zero.mpr done
  obtain ⟨task, live, rfl⟩ := liveTally_pos.mp (show 0 < s.liveTally [] order by omega)
  rcases live with (⟨p, hp⟩ | ha | hn) | hh
  · exact unreturned (h.links.started _ (Or.inl ⟨p, task, hp, rfl⟩) id named)
  · obtain ⟨w, hw, rfl⟩ := Backlog.mem_aside.mp ha
    rcases h.links.waits w hw id named with hv | ⟨orders, hm, _⟩
    · exact unreturned hv
    · obtain ⟨other, live, hr⟩ := (h.results.keys id).mp (AssocList.contains_iff.mpr ⟨orders, hm⟩)
      have same := h.books.distinct _ _ id ((h.books.recorded other live).trans hr) result
      have pos := liveTally_pos.mpr ⟨other, live, same⟩
      have before := h.books.accounted before
      have count := List.count_pos_iff.mpr gone
      split at before <;> omega
  · cases hn
  · exact unreturned (h.links.started _ (Or.inr (Or.inl ⟨task, hh, rfl⟩)) id named)

theorem Valid.cancel_removed {id : OperationId} {task : Entry} (h : s.Valid [])
    (found : (s.backlog.takeOut id).1 = some task) (e : Entry) :
    e ∈ (s.shared.cancel id).2.1 ↔
      s.Idle [] e ∧ Relation.ReflTransGen s.RunsAfter task.order e.order := by
  have removal := h.cancelled_run found
  have idle := (h.takeOut found).2.2
  have was : ∀ e, (s.withBacklog (s.backlog.takeOut id).2).Idle [task] e → s.Idle [] e := by
    rw [h.takeOut_frame found]
    rintro e (⟨p, hp⟩ | ha | hl)
    · exact Or.inl ⟨p, (List.mem_filter.mp hp).1⟩
    · obtain ⟨w, hw, rfl⟩ := Backlog.mem_aside.mp ha
      exact Or.inr (Or.inl (Backlog.mem_aside.mpr ⟨w, (List.mem_filter.mp hw).1, rfl⟩))
    · rw [List.mem_singleton.mp hl]
      exact idle
  constructor
  · intro he
    obtain ⟨first, hf, chain⟩ := removal.follows e he
    rw [List.mem_singleton.mp hf] at chain
    exact ⟨was e (removal.idle e he), chain⟩
  · rintro ⟨live, chain⟩
    have gone : ∀ order, Relation.ReflTransGen s.RunsAfter task.order order →
        order ∈ (s.cancel id).cancelled := by
      intro order chain
      induction chain with
      | refl =>
        exact List.mem_append_right _ (List.mem_map_of_mem (f := Entry.order)
          (removal.covers task List.mem_cons_self))
      | tail _ after ih => exact removal.valid.after_cancelled after ih
    have accounted := h.books.accounted e.order
    have pos := liveTally_pos.mpr ⟨e, Or.inl live, rfl⟩
    rcases List.mem_append.mp (gone e.order chain) with old | new
    · have := List.count_pos_iff.mpr old
      split at accounted <;> omega
    · obtain ⟨other, ho, same⟩ := List.mem_map.mp new
      have := h.books.live_unique (Or.inl (was other (removal.idle other ho))) (Or.inl live) same
      rwa [← this]

theorem Valid.cancel_frame {id : OperationId} {task : Entry} (h : s.Valid [])
    (found : (s.backlog.takeOut id).1 = some task) :
    (s.cancel id).backlog = { s.backlog with
      tasks := fun p => (s.backlog.tasks p).filter
        (fun e => decide (e ∉ (s.shared.cancel id).2.1))
      waiting := s.backlog.waiting.filter
        (fun w => decide (w.task ∉ (s.shared.cancel id).2.1))
      unfinished := s.backlog.unfinished.filter
        (fun order => order ∉ (s.shared.cancel id).2.1.map Entry.order)
      dependents := s.backlog.dependents.filter
        (fun p => decide (some p.1 ∉ (s.shared.cancel id).2.1.map Entry.result)) } := by
  have removal := h.cancelled_run found
  have frame := h.takeOut_frame found
  let removed := (s.shared.cancel id).2.1
  have covers : task ∈ removed := removal.covers task List.mem_cons_self
  have tasks : ∀ p, (s.cancel id).backlog.tasks p =
      (s.backlog.tasks p).filter (fun e => decide (e ≠ task)) := by
    intro p
    rw [removal.backlog, withBacklog_backlog, frame]
  have unready : ∀ p, ∀ e ∈ s.backlog.tasks p, e ∈ removed → e = task := by
    intro p e he hr
    by_contra ne
    have live : (s.cancel id).Live [] e := by
      refine Or.inl (Or.inl ⟨p, ?_⟩)
      rw [tasks]
      exact List.mem_filter.mpr ⟨he, by simpa using ne⟩
    have gone : e.order ∈ (s.cancel id).cancelled :=
      List.mem_append_right _ (List.mem_map_of_mem (f := Entry.order) hr)
    have accounted := removal.valid.books.accounted e.order
    have pos := liveTally_pos.mpr ⟨e, live, rfl⟩
    have count := List.count_pos_iff.mpr gone
    split at accounted <;> omega
  rw [removal.backlog, withBacklog_backlog, frame]
  dsimp only
  congr 1
  · funext p
    apply List.filter_congr
    intro e he
    have only := unready p e he
    by_cases same : e = task
    · subst same
      simp only [ne_eq, not_true_eq_false, decide_false]
      simpa using covers
    · simp only [ne_eq, same, not_false_eq_true, decide_true]
      symm
      simpa using fun hr => same (only hr)
  · rw [List.filter_filter]
    apply List.filter_congr
    intro w _
    rw [Bool.eq_iff_iff]
    simp only [Bool.and_eq_true, decide_eq_true_eq]
    constructor
    · exact fun both => both.1
    · intro out
      refine ⟨out, ?_⟩
      rintro same
      rw [same] at out
      exact out covers

/-- A result that was cancelled as it was made, or with its task, stays with no
task to run. -/
theorem Valid.unowned {id : OperationId} (h : s.Valid []) (step : Step s t)
    (cancelled : s.operations.stateOf id = some .cancelled)
    (unowned : ∀ order, s.resultOf order ≠ some id) : ∀ order, t.resultOf order ≠ some id := by
  have log : t.log = s.log ∨ ∃ submission : Submission, t.log = s.log ++ [submission] ∧
      (submission.result = none ∨ submission.result = some (s.operations.lastId + 1)) := by
    cases step with
    | submit options made =>
      rcases record_log_cases (s.shared.submit options).2.1 ⟨none, options.after⟩ with same | grown
      · exact Or.inl same
      · exact Or.inr ⟨_, grown, Or.inl rfl⟩
    | enqueue options made =>
      rcases record_log_cases (s.shared.enqueue options).2.1
        ⟨(s.shared.enqueue options).1.toOption, options.after⟩ with same | grown
      · exact Or.inl same
      · refine Or.inr ⟨_, grown, ?_⟩
        rcases enqueue_cases s.shared options with ⟨_, eq⟩ | ⟨_, _, _, eq⟩ | ⟨_, _, _, _, _, eq⟩
        · exact Or.inl (by rw [eq]; rfl)
        · exact Or.inr (by rw [eq]; rfl)
        · exact Or.inr (by rw [eq]; rfl)
    | cancel id => exact Or.inl rfl
    | stop => exact Or.inl rfl
    | take worker =>
      unfold Run.take
      dsimp only
      split <;> exact Or.inl rfl
    | finish hand value held running => exact Or.inl rfl
    | done hand held ran => exact Or.inl rfl
    | elsewhereMakes queue other => exact Or.inl rfl
    | elsewhereSettles id state other => exact Or.inl rfl
  intro order hr
  rcases log with same | ⟨submission, grown, result⟩
  · exact unowned order (by unfold resultOf at hr ⊢; rwa [same] at hr)
  · have split : t.resultOf order =
        if order = s.log.length then submission.result else s.resultOf order := by
      rw [← @resultOf_accept _ s s.operations submission order]
      unfold resultOf
      rw [grown]
      rfl
    rw [split] at hr
    split at hr
    · have fresh := h.results.fresh (s.operations.lastId + 1) (Nat.lt_succ_self _)
      rcases result with none | new
      · rw [none] at hr
        cases hr
      · rw [new] at hr
        cases hr
        rw [fresh] at cancelled
        cases cancelled
    · exact unowned order hr

theorem Reachable.unowned {id : OperationId} (h : s.Reachable)
    (run : Relation.ReflTransGen Step s t) (cancelled : s.operations.stateOf id = some .cancelled)
    (unowned : ∀ order, s.resultOf order ≠ some id) : ∀ order, t.resultOf order ≠ some id := by
  induction run with
  | refl => exact unowned
  | tail run step ih =>
    have still := (h.extends run).settled id _ cancelled (by simp)
    exact (h.later run).valid.unowned step still ih

/-- A task accepted to run after a cancelled result is destroyed as it is
accepted, with a result that is cancelled from the start. -/
theorem Valid.accepted_cancelled {id : OperationId} {options : OperationOptions} (h : s.Valid [])
    (named : id ∈ options.after) (cancelled : s.operations.stateOf id = some .cancelled) :
    s.submit options = s ∧ (s.enqueue options).backlog = s.backlog ∧
      (s.enqueue options).log = s.log ∧
      ∀ made, (s.shared.enqueue options).1 = .ok made →
        (s.enqueue options).operations.stateOf made = some .cancelled ∧
        ∀ order, (s.enqueue options).resultOf order ≠ some made := by
  have any := anyCancelled_iff.mpr ⟨id, named, cancelled⟩
  refine ⟨?_, ?_⟩
  · rcases submit_cases s.shared options with eq | ⟨eq, -⟩ | ⟨_, _, _, _, not, _⟩
    · simp [Run.submit, Run.record, eq]
    · simp [Run.submit, Run.record, eq]
    · rw [not] at any
      cases any
  · rcases enqueue_cases s.shared options with ⟨_, eq⟩ | ⟨_, _, _, eq⟩ | ⟨_, _, _, _, not, _⟩
    · have out : s.enqueue options = s := by simp [Run.enqueue, Run.record, eq]
      rw [out]
      refine ⟨rfl, rfl, ?_⟩
      intro made ok
      rw [eq] at ok
      cases ok
    · have out : s.enqueue options = s.withOperations
          ((s.operations.make s.backlog.number).2.cancel (s.operations.lastId + 1)) := by
        simp [Run.enqueue, Run.record, eq, withOperations]
      rw [out]
      refine ⟨rfl, rfl, ?_⟩
      intro made ok
      rw [eq] at ok
      cases ok
      have new : (s.operations.make s.backlog.number).2.stateOf (s.operations.lastId + 1) =
          some .pending := by
        rw [Operations.stateOf_make, if_pos rfl]
      constructor
      · change ((s.operations.make s.backlog.number).2.cancel _).stateOf _ = _
        rw [Operations.cancel, Operations.stateOf_settle, if_pos]
        exact ⟨rfl, (Operations.isPending_iff _ _).mpr new⟩
      · intro order hr
        exact (h.results.owned order _ hr).2 (h.results.fresh _ (Nat.lt_succ_self _))
    · rw [not] at any
      cases any

/-- `cancel` takes a task that has not started off the queue with all that runs
after it, and nothing else; none of them runs later, nor does any task accepted
to run after a result it cancelled. -/
theorem cancel_closure (h : s.Reachable) (id : OperationId) :
    ((s.shared.cancel id).1 = true ↔ ∃ task, s.Idle [] task ∧ task.result = some id) ∧
    ((s.shared.cancel id).1 = false → s.cancel id = s) ∧
    ∀ task, s.Idle [] task → task.result = some id →
      (∀ e, e ∈ (s.shared.cancel id).2.1 ↔
        s.Idle [] e ∧ Relation.ReflTransGen s.RunsAfter task.order e.order) ∧
      (s.cancel id).backlog = { s.backlog with
        tasks := fun p => (s.backlog.tasks p).filter
          (fun e => decide (e ∉ (s.shared.cancel id).2.1))
        waiting := s.backlog.waiting.filter
          (fun w => decide (w.task ∉ (s.shared.cancel id).2.1))
        unfinished := s.backlog.unfinished.filter
          (fun order => order ∉ (s.shared.cancel id).2.1.map Entry.order)
        dependents := s.backlog.dependents.filter
          (fun p => decide (some p.1 ∉ (s.shared.cancel id).2.1.map Entry.result)) } ∧
      (∀ other, (s.cancel id).operations.stateOf other =
        if some other ∈ (s.shared.cancel id).2.1.map Entry.result then some .cancelled
        else s.operations.stateOf other) ∧
      ∀ t, Relation.ReflTransGen Step (s.cancel id) t →
        (∀ e ∈ (s.shared.cancel id).2.1, e.order ∉ t.taken) ∧
        (∀ e ∈ (s.shared.cancel id).2.1, ∀ own, e.result = some own →
          t.operations.stateOf own = some .cancelled) ∧
        ∀ options : OperationOptions, ∀ named ∈ options.after,
          t.operations.stateOf named = some .cancelled →
          t.submit options = t ∧ (t.enqueue options).backlog = t.backlog ∧
          ∀ made, (t.shared.enqueue options).1 = .ok made →
            (∀ before ∈ options.after, t.operations.stateOf before ≠ none) →
            ∀ u, Relation.ReflTransGen Step (t.enqueue options) u →
              u.operations.stateOf made = some .cancelled ∧
              ∀ order, u.resultOf order ≠ some made := by
  have valid := h.valid
  have next : (s.cancel id).Reachable := h.later (.single (.cancel id))
  refine ⟨?_, ?_, ?_⟩
  · cases found : (s.backlog.takeOut id).1 with
    | none =>
      have missing := takeOut_none.mp found
      rw [(cancel_none found).1]
      simp only [Bool.false_eq_true, false_iff]
      rintro ⟨task, hi, hr⟩
      exact missing task hi hr
    | some task =>
      have out := valid.takeOut found
      have yes : (s.shared.cancel id).1 = true := by
        unfold Shared.cancel
        simp only [found]
      simp only [yes, true_iff]
      exact ⟨task, out.2.2, out.2.1⟩
  · intro no
    cases found : (s.backlog.takeOut id).1 with
    | none => exact (cancel_none found).2
    | some task =>
      unfold Shared.cancel at no
      simp [found] at no
  · intro task hi hr
    cases found : (s.backlog.takeOut id).1 with
    | none => exact absurd hr (takeOut_none.mp found task hi)
    | some first =>
      have out := valid.takeOut found
      have same := valid.result_unique (Or.inl out.2.2) (Or.inl hi) out.2.1 hr
      subst same
      have removal := valid.cancelled_run found
      refine ⟨valid.cancel_removed found, valid.cancel_frame found, removal.states, ?_⟩
      intro t run
      have later := next.later run
      have adds := next.extends run
      refine ⟨?_, ?_, ?_⟩
      · intro e he
        refine later.valid.cancelled_not_taken (adds.cancelled _ ?_)
        exact List.mem_append_right _ (List.mem_map_of_mem (f := Entry.order) he)
      · intro e he own hr
        refine adds.settled own _ ?_ (by simp)
        rw [removal.states, if_pos]
        rw [← hr]
        exact List.mem_map_of_mem (f := Entry.result) he
      · intro options named mem cancelled
        obtain ⟨submits, backlog, _, enqueues⟩ := later.valid.accepted_cancelled mem cancelled
        refine ⟨submits, backlog, ?_⟩
        intro made ok known u run
        obtain ⟨state, unowned⟩ := enqueues made ok
        have entered : (t.enqueue options).Reachable :=
          later.later (.single (.enqueue options known))
        exact ⟨(entered.extends run).settled made _ state (by simp),
          entered.unowned run state unowned⟩

theorem cancel_closure_paired : (paired.shared.cancel 1).1 = true ∧
    ((⟨1, some 2⟩ : Entry) ∈ (paired.shared.cancel 1).2.1 ↔
      paired.Idle [] ⟨1, some 2⟩ ∧ Relation.ReflTransGen paired.RunsAfter 0 1) := by
  have closure := cancel_closure paired_reachable 1
  have idle : paired.Idle [] ⟨0, some 1⟩ := Or.inl ⟨.normal, by decide⟩
  exact ⟨closure.1.mpr ⟨_, idle, rfl⟩, (closure.2.2 _ idle rfl).1 _⟩

end Run

end Dross
