import Dross.Thread.QueueGuarantees

/-!
# The order tasks are taken in

A worker takes the front of the highest list that is not empty, so the task it
takes is the one accepted first as long as each list is sorted by order. Only
`done` can break that: it appends a task that has waited aside behind tasks
accepted after it.
-/

namespace Dross

/-- The value of `operation_priority`, which is also the index of its list. -/
def OperationPriority.value : OperationPriority → Nat
  | .low => 0
  | .normal => 1
  | .high => 2

namespace Backlog

variable {b : Backlog}

/-- Each list is in the order its tasks were accepted. -/
def Sorted (b : Backlog) : Prop :=
  ∀ priority, (b.tasks priority).Pairwise (fun first second => first.order < second.order)

/-- Of the highest priority among the tasks ready, and of those the one accepted first. -/
def FirstReady (b : Backlog) (task : Entry) : Prop :=
  ∃ priority, task ∈ b.tasks priority ∧
    (∀ other, b.tasks other ≠ [] → other.value ≤ priority.value) ∧
    ∀ ready ∈ b.tasks priority, task.order ≤ ready.order

/-- Whether what is left to return before a task is `finished` alone. -/
def LastFor (b : Backlog) (finished : Entry) (w : Waiting) : Prop :=
  ∃ id orders, finished.result = some id ∧ (id, orders) ∈ b.dependents ∧
    w.task.order ∈ orders ∧ w.remaining = orders.count w.task.order

/-- No task that `done` makes ready was accepted before one in the list it goes to. -/
def InTurn (b : Backlog) (finished : Entry) : Prop :=
  ∀ w ∈ b.waiting, b.LastFor finished w →
    ∀ ready ∈ b.tasks w.priority, ready.order < w.task.order

/-- A task taken is the front of its list, and every list above that is empty. -/
theorem take_highest {worker : Nat} {task : Entry} (taken : (b.take worker).1 = some task) :
    ∃ priority left, b.tasks priority = task :: left ∧
      ∀ other, b.tasks other ≠ [] → other.value ≤ priority.value := by
  have front : ∃ tasks, takeFront b.tasks [.high, .normal, .low] = some (task, tasks) := by
    unfold take at taken
    cases h : takeFront b.tasks [.high, .normal, .low] with
    | none => simp [h] at taken
    | some found =>
      obtain ⟨next, tasks⟩ := found
      have same : next = task := by simpa [h] using taken
      exact ⟨tasks, by rw [same]⟩
  obtain ⟨tasks, front⟩ := front
  cases high : b.tasks .high with
  | cons first left =>
    have same : first = task := by
      simp only [takeFront, high, Option.some.injEq, Prod.mk.injEq] at front
      exact front.1
    exact ⟨.high, left, by rw [high, same], fun other _ => by cases other <;> decide⟩
  | nil =>
    cases normal : b.tasks .normal with
    | cons first left =>
      have same : first = task := by
        simp only [takeFront, high, normal, Option.some.injEq, Prod.mk.injEq] at front
        exact front.1
      refine ⟨.normal, left, by rw [normal, same], ?_⟩
      intro other some
      cases other with
      | high => exact absurd high some
      | normal => exact Nat.le_refl _
      | low => decide
    | nil =>
      cases low : b.tasks .low with
      | nil => simp [takeFront, high, normal, low] at front
      | cons first left =>
        have same : first = task := by
          simp only [takeFront, high, normal, low, Option.some.injEq, Prod.mk.injEq] at front
          exact front.1
        refine ⟨.low, left, by rw [low, same], ?_⟩
        intro other some
        cases other with
        | high => exact absurd high some
        | normal => exact absurd normal some
        | low => exact Nat.le_refl _

/-- With every list sorted, the front of the highest is the first ready. -/
theorem Sorted.firstReady (h : b.Sorted) {worker : Nat} {task : Entry}
    (taken : (b.take worker).1 = some task) : b.FirstReady task := by
  obtain ⟨priority, left, front, highest⟩ := take_highest taken
  refine ⟨priority, by rw [front]; exact List.mem_cons_self, highest, ?_⟩
  intro ready mem
  have sorted := h priority
  rw [front] at sorted mem
  rcases List.mem_cons.mp mem with rfl | later
  · exact Nat.le_refl _
  · exact Nat.le_of_lt (List.rel_of_pairwise_cons sorted later)

/-- A task made ready keeps the lists sorted exactly when it belongs at the end. -/
theorem sorted_makeReady {task : Entry} {priority : OperationPriority} :
    (b.makeReady task priority).1.Sorted ↔
      b.Sorted ∧ ∀ ready ∈ b.tasks priority, ready.order < task.order := by
  constructor
  · intro h
    have own := h priority
    rw [makeReady_tasks, Function.update_self, List.pairwise_append] at own
    refine ⟨fun other => ?_, fun ready mem => own.2.2 ready mem task List.mem_cons_self⟩
    by_cases same : other = priority
    · rw [same]
      exact own.1
    · have rest := h other
      rwa [makeReady_tasks, Function.update_of_ne same] at rest
  · rintro ⟨h, last⟩ other
    rw [makeReady_tasks]
    by_cases same : other = priority
    · rw [same, Function.update_self, List.pairwise_append]
      refine ⟨h priority, List.pairwise_singleton _ _, fun ready mem later hl => ?_⟩
      rw [List.mem_singleton.mp hl]
      exact last ready mem
    · rw [Function.update_of_ne same]
      exact h other

theorem count_le_occurrences {dependents : Dependents} {id : OperationId} {orders : List Nat}
    (listed : (id, orders) ∈ dependents) (order : Nat) :
    orders.count order ≤ occurrences dependents order := by
  induction dependents with
  | nil => cases listed
  | cons p rest ih =>
    rw [occurrences_cons]
    rcases List.mem_cons.mp listed with rfl | later
    · exact Nat.le_add_right _ _
    · exact Nat.le_trans (ih later) (Nat.le_add_left _ _)

end Backlog

namespace Run

variable {α : Type} {s t : Run α}

/-- What counting `orders` off needs of the tasks set aside: one for each order, and
waiting for as many as are to be counted off. -/
structure Countable (b : Backlog) (orders : List Nat) : Prop where
  distinct : ∀ w ∈ b.waiting, ∀ other ∈ b.waiting, w.task.order = other.task.order → w = other
  enough : ∀ w ∈ b.waiting, orders.count w.task.order ≤ w.remaining

/-- Whether counting `orders` off makes a task ready. -/
def ReleasedBy (orders : List Nat) (w : Waiting) : Prop :=
  w.task.order ∈ orders ∧ w.remaining = orders.count w.task.order

theorem Countable.next {b : Backlog} {order : Nat} {rest : List Nat}
    (h : Countable b (order :: rest)) : Countable (b.countOff order).1 rest := by
  have fewer : ∀ w ∈ b.waiting, rest.count w.task.order ≤ w.remaining :=
    fun w mem => Nat.le_trans (List.count_le_count_cons) (h.enough w mem)
  rcases countOff_cases b order with ⟨_, eq⟩ | ⟨found, _, _, _, eq⟩ | ⟨found, _, _, _, eq⟩
  · rw [eq]
    exact ⟨h.distinct, fewer⟩
  · rw [eq]
    have old : ∀ w ∈ (b.eraseWaiting order).waiting, w ∈ b.waiting :=
      fun w mem => (b.mem_eraseWaiting.mp mem).1
    exact ⟨fun w mem other mem' => h.distinct w (old w mem) other (old other mem'),
      fun w mem => fewer w (old w mem)⟩
  · rw [eq]
    constructor
    · intro w mem other mem' same
      obtain ⟨v, hv, rfl⟩ := List.mem_map.mp mem
      obtain ⟨v', hv', rfl⟩ := List.mem_map.mp mem'
      have orders : v.task.order = v'.task.order := by
        split at same <;> split at same <;> exact same
      rw [h.distinct v hv v' hv' orders]
    · intro w mem
      obtain ⟨v, hv, rfl⟩ := List.mem_map.mp mem
      split
      · rename_i same
        have enough := h.enough v hv
        rw [same, List.count_cons_self] at enough
        change rest.count v.task.order ≤ v.remaining - 1
        rw [same]
        omega
      · exact fewer v hv

/-- Whether every task that counting `orders` off makes ready belongs behind those that are. -/
def EndsBehind (b : Backlog) (orders : List Nat) : Prop :=
  ∀ w ∈ b.waiting, ReleasedBy orders w → ∀ ready ∈ b.tasks w.priority, ready.order < w.task.order

section CountingOff

variable {b : Backlog} {order : Nat} {rest : List Nat} {w found : Waiting}

theorem releasedBy_other (ne : w.task.order ≠ order) :
    ReleasedBy (order :: rest) w ↔ ReleasedBy rest w := by
  simp only [ReleasedBy, List.mem_cons, ne, false_or, List.count_cons_of_ne (Ne.symm ne)]

/-- A task counted off for the last time is released, whatever is counted off after it. -/
theorem releasedBy_last (countable : Countable b (order :: rest)) (mem : found ∈ b.waiting)
    (same : found.task.order = order) (last : found.remaining = 1) :
    ReleasedBy (order :: rest) found := by
  have enough := countable.enough found mem
  rw [last, same, List.count_cons_self] at enough
  refine ⟨by rw [same]; exact List.mem_cons_self, ?_⟩
  rw [last, same, List.count_cons_self]
  omega

/-- A task counted off, but not for the last time, is released by what is left. -/
theorem releasedBy_more (countable : Countable b (order :: rest)) (mem : w ∈ b.waiting)
    (same : w.task.order = order) (more : w.remaining ≠ 1) :
    ReleasedBy rest { w with remaining := w.remaining - 1 } ↔ ReleasedBy (order :: rest) w := by
  have enough := countable.enough w mem
  rw [same, List.count_cons_self] at enough
  unfold ReleasedBy
  dsimp only
  rw [same, List.count_cons_self]
  constructor
  · rintro ⟨_, left⟩
    exact ⟨List.mem_cons_self, by omega⟩
  · rintro ⟨_, left⟩
    refine ⟨List.count_pos_iff.mp ?_, ?_⟩ <;> omega

theorem endsBehind_gone (gone : ∀ w ∈ b.waiting, w.task.order ≠ order) :
    EndsBehind b rest ↔ EndsBehind b (order :: rest) :=
  forall₂_congr fun w hw => by rw [releasedBy_other (gone w hw)]

/-- A task made ready goes before those that are released by what is left: their orders
are no smaller. -/
theorem endsBehind_last (countable : Countable b (order :: rest))
    (least : ∀ other ∈ rest, order ≤ other) (mem : found ∈ b.waiting)
    (same : found.task.order = order) (last : found.remaining = 1) :
    (∀ ready ∈ b.tasks found.priority, ready.order < found.task.order) ∧
        EndsBehind ((b.eraseWaiting order).makeReady found.task found.priority).1 rest ↔
      EndsBehind b (order :: rest) := by
  constructor
  · rintro ⟨own, later⟩ w hw released
    by_cases ho : w.task.order = order
    · rw [countable.distinct w hw found mem (ho.trans same.symm)]
      exact own
    · intro ready hr
      refine later w (b.mem_eraseWaiting.mpr ⟨hw, ho⟩) ((releasedBy_other ho).mp released) ready ?_
      exact (Backlog.mem_makeReady _).mpr (Or.inl hr)
  · intro apart
    refine ⟨apart found mem (releasedBy_last countable mem same last), fun w hw released ready hr => ?_⟩
    obtain ⟨hw, ho⟩ := b.mem_eraseWaiting.mp hw
    rcases (Backlog.mem_makeReady _).mp hr with hr | ⟨_, rfl⟩
    · exact apart w hw ((releasedBy_other ho).mpr released) ready hr
    · have le := least _ released.1
      omega

theorem endsBehind_more (countable : Countable b (order :: rest)) (mem : found ∈ b.waiting)
    (same : found.task.order = order) (more : found.remaining ≠ 1) :
    EndsBehind { b with waiting := b.waiting.map (fun w =>
        if w.task.order = order then { w with remaining := w.remaining - 1 } else w) } rest ↔
      EndsBehind b (order :: rest) := by
  unfold EndsBehind
  dsimp only
  rw [List.forall_mem_map]
  refine forall₂_congr fun w hw => ?_
  by_cases ho : w.task.order = order
  · have only := countable.distinct w hw found mem (ho.trans same.symm)
    rw [if_pos ho, releasedBy_more countable hw ho (by rw [only]; exact more)]
  · rw [if_neg ho, releasedBy_other ho]

end CountingOff

/-- Counting orders off in turn keeps the lists sorted exactly when every task that
becomes ready belongs behind those that already were. -/
theorem sorted_countOffAll {orders : List Nat} (ascending : orders.Pairwise (· ≤ ·))
    {b : Backlog} (countable : Countable b orders) :
    (b.countOffAll orders).1.Sorted ↔ b.Sorted ∧ EndsBehind b orders := by
  induction orders generalizing b with
  | nil => exact ⟨fun h => ⟨h, fun w _ released => nomatch released.1⟩, fun h => h.1⟩
  | cons order rest ih =>
    have least : ∀ other ∈ rest, order ≤ other :=
      fun _ mem => List.rel_of_pairwise_cons ascending mem
    rw [Backlog.countOffAll]
    rw [ih ascending.of_cons countable.next]
    rcases countOff_cases b order with ⟨gone, eq⟩ | ⟨found, mem, same, last, eq⟩ |
        ⟨found, mem, same, more, eq⟩
    · rw [eq, endsBehind_gone gone]
    · rw [eq, Backlog.sorted_makeReady, and_assoc]
      exact and_congr_right fun _ => endsBehind_last countable least mem same last
    · rw [eq, endsBehind_more countable mem same more]
      rfl

/-- The dependents of each result are listed in the order they were accepted. -/
def Ascending (b : Backlog) : Prop := ∀ p ∈ b.dependents, p.2.Pairwise (· ≤ ·)

theorem Valid.waiting_unique (h : s.Valid []) : ∀ w ∈ s.backlog.waiting,
    ∀ other ∈ s.backlog.waiting, w.task.order = other.task.order → w = other := by
  have nodup : (s.backlog.waiting.map (fun w => w.task.order)).Nodup := by
    rw [List.nodup_iff_count_le_one]
    intro order
    have one := h.books.live_le_one order
    have aside : tally s.backlog.aside order =
        (s.backlog.waiting.map (fun w => w.task.order)).count order := by
      simp [tally, Backlog.aside, Function.comp_def]
    unfold liveTally at one
    omega
  exact fun w mem other mem' same => List.inj_on_of_nodup_map nodup mem mem' same

theorem Valid.countable (h : s.Valid []) {id : OperationId} {orders : List Nat}
    (listed : (id, orders) ∈ s.backlog.dependents) : Countable s.backlog orders := by
  refine ⟨h.waiting_unique, fun w mem => ?_⟩
  rw [(h.links.counted w mem).1]
  exact Backlog.count_le_occurrences listed _

/-- `done` keeps the lists sorted exactly when it makes no task ready out of turn. -/
theorem Valid.sorted_done {hand : Hand} (h : s.Valid []) (ascending : Ascending s.backlog) :
    (s.backlog.done hand.entry).1.Sorted ↔
      s.backlog.Sorted ∧ s.backlog.InTurn hand.entry := by
  have quiet (none : ∀ w ∈ s.backlog.waiting, ¬ s.backlog.LastFor hand.entry w) :
      s.backlog.InTurn hand.entry := fun w mem last => absurd last (none w mem)
  cases result : hand.entry.result with
  | none =>
    have same : (s.backlog.done hand.entry).1.tasks = s.backlog.tasks := by
      simp [Backlog.done, result]
    refine ⟨fun sorted => ⟨by rwa [Backlog.Sorted, same] at sorted, quiet ?_⟩,
      fun sorted => by rw [Backlog.Sorted, same]; exact sorted.1⟩
    rintro w mem ⟨id, orders, own, _⟩
    rw [result] at own
    cases own
  | some id =>
    have listed (orders : List Nat) :
        (id, orders) ∈ s.backlog.dependents ↔ s.backlog.dependents.lookup id = some orders :=
      ⟨AssocList.lookup_some_of_mem h.results.keysNodup, AssocList.mem_of_lookup_some⟩
    cases found : s.backlog.dependents.lookup id with
    | none =>
      have same : (s.backlog.done hand.entry).1.tasks = s.backlog.tasks := by
        simp [Backlog.done, result, Backlog.takeDependentOrders, AssocList.extract, found,
          Backlog.countOffAll]
      refine ⟨fun sorted => ⟨by rwa [Backlog.Sorted, same] at sorted, quiet ?_⟩,
        fun sorted => by rw [Backlog.Sorted, same]; exact sorted.1⟩
      rintro w mem ⟨other, orders, own, hm, _⟩
      rw [result] at own
      cases own
      rw [(listed orders).mp hm] at found
      cases found
    | some orders =>
      have mem := (listed orders).mpr found
      let b : Backlog := { s.backlog with
        unfinished := s.backlog.unfinished.erase hand.entry.order
        dependents := AssocList.erase s.backlog.dependents id }
      have done : s.backlog.done hand.entry = b.countOffAll orders := by
        simp [Backlog.done, result, Backlog.takeDependentOrders, AssocList.extract, found, b]
      have countable : Countable b orders := ⟨(h.countable mem).distinct, (h.countable mem).enough⟩
      have last (w : Waiting) : s.backlog.LastFor hand.entry w ↔ ReleasedBy orders w := by
        constructor
        · rintro ⟨other, orders', own, hm, released⟩
          rw [result] at own
          cases own
          rw [listed, found] at hm
          cases hm
          exact released
        · exact fun released => ⟨id, orders, result, mem, released⟩
      rw [done, sorted_countOffAll (ascending _ mem) countable]
      refine and_congr_right fun _ => forall₂_congr fun w _ => ?_
      rw [last]

/-! ## Runs -/

/-- A step takes from the lists, queues a task, or puts one through `done`. -/
theorem Valid.step_lists (h : s.Valid []) (step : Step s t) :
    ((∀ priority, (t.backlog.tasks priority).Sublist (s.backlog.tasks priority)) ∧
      ∀ p ∈ t.backlog.dependents, p ∈ s.backlog.dependents) ∨
    (∃ priority after result, t.backlog = (s.backlog.queue priority after result).1) ∨
    ∃ hand ∈ s.hands, t = s.done hand := by
  have same (eq : t.backlog = s.backlog) :
      (∀ priority, (t.backlog.tasks priority).Sublist (s.backlog.tasks priority)) ∧
        ∀ p ∈ t.backlog.dependents, p ∈ s.backlog.dependents :=
    ⟨fun _ => by rw [eq], fun _ mem => by rwa [eq] at mem⟩
  have admitted {woken : List Nat} (admits : Admits s.backlog t.backlog woken) :
      ((∀ priority, (t.backlog.tasks priority).Sublist (s.backlog.tasks priority)) ∧
        ∀ p ∈ t.backlog.dependents, p ∈ s.backlog.dependents) ∨
      (∃ priority after result, t.backlog = (s.backlog.queue priority after result).1) ∨
      ∃ hand ∈ s.hands, t = s.done hand := by
    generalize after : t.backlog = b at admits
    cases admits with
    | same => exact Or.inl (after ▸ same after)
    | queued priority waits result => exact Or.inr (Or.inl ⟨priority, waits, result, rfl⟩)
  cases step with
  | submit options made => exact admitted (submit_admits s options)
  | enqueue options made => exact admitted (enqueue_admits s options)
  | cancel id =>
    cases found : (s.backlog.takeOut id).1 with
    | none => exact Or.inl (same (by rw [(cancel_none found).2]))
    | some task =>
      rw [h.cancel_frame found]
      exact Or.inl ⟨fun _ => List.filter_sublist, fun p mem => (List.mem_filter.mp mem).1⟩
  | stop =>
    refine Or.inl ?_
    change (∀ priority, (s.shared.stop.1.backlog.tasks priority).Sublist _) ∧
      ∀ p ∈ s.shared.stop.1.backlog.dependents, _
    unfold Shared.stop
    split
    · exact ⟨fun _ => List.Sublist.refl _, fun _ mem => mem⟩
    · exact ⟨fun _ => List.Sublist.refl _, fun _ mem => mem⟩
  | take worker =>
    refine Or.inl ?_
    rcases s.backlog.take_cases worker with ⟨next, priority, left, front, eq⟩ | ⟨_, eq⟩
    · simp only [Run.take, eq, backlog]
      refine ⟨fun other => ?_, fun _ mem => mem⟩
      by_cases own : other = priority
      · rw [own, Function.update_self, front]
        exact List.sublist_cons_self _ _
      · rw [Function.update_of_ne own]
    · simp only [Run.take, eq, backlog]
      exact ⟨fun _ => List.Sublist.refl _, fun _ mem => mem⟩
  | finish hand value held running =>
    refine Or.inl (same ?_)
    change (s.shared.finishResult hand.entry value).backlog = _
    unfold Shared.finishResult
    split <;> rfl
  | done hand held ran => exact Or.inr (Or.inr ⟨hand, held, rfl⟩)
  | elsewhereMakes queue other => exact Or.inl (same rfl)
  | elsewhereSettles id state other => exact Or.inl (same rfl)

theorem settlePlace_dependents (b : Backlog) (task : Entry) (priority : OperationPriority)
    (after : List OperationId) :
    (settlePlace b task priority after).dependents = entered b.dependents task.order after := by
  unfold settlePlace
  dsimp only
  split <;> rfl

theorem sorted_settlePlace {b : Backlog} {task : Entry} {priority : OperationPriority}
    {after : List OperationId} (sorted : b.Sorted)
    (last : ∀ ready ∈ b.tasks priority, ready.order < task.order) :
    (settlePlace b task priority after).Sorted := by
  unfold settlePlace
  dsimp only
  split
  · exact sorted
  · exact Backlog.sorted_makeReady.mpr ⟨sorted, last⟩

/-- A task accepted is behind every other, wherever it goes. -/
theorem Valid.queue_sorted (h : s.Valid []) (priority : OperationPriority)
    (after : List OperationId) (result : Option OperationId) (sorted : s.backlog.Sorted) :
    (s.backlog.queue priority after result).1.Sorted := by
  rw [queue_eq]
  exact sorted_settlePlace sorted
    (fun ready mem => h.books.live_lt (Or.inl (Or.inl ⟨priority, mem⟩)))

theorem Valid.queue_ascending (h : s.Valid []) (priority : OperationPriority)
    (after : List OperationId) (result : Option OperationId) (ascending : Ascending s.backlog) :
    Ascending (s.backlog.queue priority after result).1 := by
  let dependents := result.elim s.backlog.dependents
    (fun id => AssocList.tryEmplace s.backlog.dependents id [])
  have known : ∀ p ∈ dependents,
      p.2.Pairwise (· ≤ ·) ∧ ∀ order ∈ p.2, order < s.backlog.accepted := by
    have old : ∀ p ∈ s.backlog.dependents,
        p.2.Pairwise (· ≤ ·) ∧ ∀ order ∈ p.2, order < s.backlog.accepted := by
      refine fun p mem => ⟨ascending p mem, fun order listed => ?_⟩
      rw [← h.books.logged]
      exact afterOf_lt (h.links.listed p.1 p.2 mem order listed).1
    cases result with
    | none => exact old
    | some id =>
      intro p mem
      change p ∈ AssocList.tryEmplace s.backlog.dependents id [] at mem
      unfold AssocList.tryEmplace at mem
      split at mem
      · exact old p mem
      · rcases List.mem_append.mp mem with mem | mem
        · exact old p mem
        · rw [List.mem_singleton.mp mem]
          exact ⟨List.Pairwise.nil, fun _ listed => absurd listed (List.not_mem_nil)⟩
  have out : (s.backlog.queue priority after result).1.dependents =
      entered dependents s.backlog.accepted after := by
    rw [queue_eq]
    cases result with
    | none => exact settlePlace_dependents _ _ _ _
    | some id => exact settlePlace_dependents _ _ _ _
  rw [Ascending, out]
  intro p mem
  obtain ⟨old, listed, rfl⟩ := List.mem_map.mp mem
  obtain ⟨pairwise, less⟩ := known old listed
  refine List.pairwise_append.mpr ⟨pairwise, ?_, fun first hf second hs => ?_⟩
  · exact List.pairwise_replicate.mpr (Or.inr (Nat.le_refl _))
  · rw [List.eq_of_mem_replicate hs]
    exact Nat.le_of_lt (less first hf)

theorem countOffAll_dependents (orders : List Nat) (b : Backlog) :
    (b.countOffAll orders).1.dependents = b.dependents := by
  induction orders generalizing b with
  | nil => rfl
  | cons order rest ih =>
    rw [Backlog.countOffAll]
    refine (ih _).trans ?_
    rcases countOff_cases b order with ⟨_, eq⟩ | ⟨_, _, _, _, eq⟩ | ⟨_, _, _, _, eq⟩
    · rw [eq]
    · rw [eq, Backlog.makeReady_dependents]
      rfl
    · rw [eq]

theorem done_dependents (b : Backlog) (task : Entry) :
    ∀ p ∈ (b.done task).1.dependents, p ∈ b.dependents := by
  intro p mem
  cases result : task.result with
  | none => simpa [Backlog.done, result] using mem
  | some id =>
    simp only [Backlog.done, result, countOffAll_dependents, Backlog.takeDependentOrders,
      AssocList.extract] at mem
    exact (AssocList.mem_erase.mp mem).1

theorem Valid.step_ascending (h : s.Valid []) (step : Step s t) (ascending : Ascending s.backlog) :
    Ascending t.backlog := by
  rcases h.step_lists step with ⟨_, less⟩ | ⟨priority, after, result, eq⟩ | ⟨hand, _, rfl⟩
  · exact fun p mem => ascending p (less p mem)
  · rw [eq]
    exact h.queue_ascending priority after result ascending
  · exact fun p mem => ascending p (done_dependents _ _ p mem)

theorem Reachable.ascending (h : s.Reachable) : Ascending s.backlog := by
  refine (@Transition.Reachable.invariant (Run α) Starts Step
    (fun s => s.Valid [] ∧ Ascending s.backlog) (fun s start => ⟨start.valid, ?_⟩)
    (fun s t known step => ⟨known.1.step step, known.1.step_ascending step known.2⟩) s h).2
  obtain ⟨number, workers, operations, rfl, _⟩ := start
  exact fun p mem => nomatch mem

/-- Whether a step puts no task through `done` out of turn. -/
def StepInTurn (s t : Run α) : Prop :=
  ∀ hand ∈ s.hands, t = s.done hand → s.backlog.InTurn hand.entry

/-- The states of the runs in which every step meets the condition. -/
def ReachableInTurn : Run α → Prop :=
  Transition.Reachable Starts (fun s t => Step s t ∧ StepInTurn s t)

/-- From sorted lists a step leads to sorted lists exactly when it meets the condition. -/
theorem Reachable.step_sorted (h : s.Reachable) (sorted : s.backlog.Sorted) (step : Step s t) :
    t.backlog.Sorted ↔ StepInTurn s t := by
  constructor
  · rintro later hand _ rfl
    exact ((h.valid.sorted_done h.ascending).mp later).2
  · intro clear
    rcases h.valid.step_lists step with ⟨less, _⟩ | ⟨priority, after, result, eq⟩ |
      ⟨hand, held, rfl⟩
    · exact fun priority => (sorted priority).sublist (less priority)
    · rw [eq]
      exact h.valid.queue_sorted priority after result sorted
    · exact (h.valid.sorted_done h.ascending).mpr ⟨sorted, clear hand held rfl⟩

theorem ReachableInTurn.sorted (h : s.ReachableInTurn) : s.backlog.Sorted := by
  refine (@Transition.Reachable.invariant (Run α) Starts (fun s t => Step s t ∧ StepInTurn s t)
    (fun s => s.Reachable ∧ s.backlog.Sorted)
    (fun s start => ⟨Transition.Reachable.start start, ?_⟩)
    (fun s t known step => ⟨Transition.Reachable.next known.1 step.1, ?_⟩) s h).2
  · obtain ⟨number, workers, operations, rfl, _⟩ := start
    exact fun _ => List.Pairwise.nil
  · exact (Reachable.step_sorted known.1 known.2 step.1).mpr step.2

/-- Along the runs whose steps put tasks through `done` in turn, lists stay sorted and
every task taken is the first ready; the first step that does not leaves a list unsorted. -/
theorem take_order :
    (∀ s : Run α, s.ReachableInTurn → s.backlog.Sorted ∧
      ∀ worker task, (s.backlog.take worker).1 = some task → s.backlog.FirstReady task) ∧
    ∀ s t : Run α, s.Reachable → s.backlog.Sorted → Step s t →
      (t.backlog.Sorted ↔ StepInTurn s t) :=
  ⟨fun _ h => ⟨h.sorted, fun _ _ taken => h.sorted.firstReady taken⟩,
    fun _ _ h sorted step => h.step_sorted sorted step⟩

theorem inTurn_of_idle {s t : Run Nat} (idle : s.hands = []) : StepInTurn s t := by
  intro hand mem
  rw [idle] at mem
  cases mem

/-- The second of three tasks was ready when the first returned, which the third runs after. -/
def queuedUp : Run Nat :=
  (((((initial 1 1 .initial).enqueue {}).submit {}).enqueue { after := [1] }).take 0).finish
    ⟨0, ⟨0, some 1⟩, false⟩ 7

theorem queuedUp_inTurn {s : Run Nat} (waiting : s.backlog.waiting = queuedUp.backlog.waiting)
    (tasks : s.backlog.tasks = queuedUp.backlog.tasks) (task : Entry) : s.backlog.InTurn task := by
  intro w mem _ ready listed
  rw [waiting] at mem
  rw [tasks] at listed
  rw [List.mem_singleton.mp mem] at listed ⊢
  rw [List.mem_singleton.mp listed]
  decide

theorem queuedUp_reachable : queuedUp.ReachableInTurn := by
  have start : (initial 1 1 (Operations.initial : Operations Nat)).ReachableInTurn :=
    Transition.Reachable.start (initial_starts 1 1)
  have first := Transition.Reachable.next start ⟨.enqueue {} (by simp), inTurn_of_idle rfl⟩
  have second := Transition.Reachable.next first ⟨.submit {} (by simp), inTurn_of_idle rfl⟩
  have third := Transition.Reachable.next second
    ⟨.enqueue { after := [1] } (by decide), inTurn_of_idle rfl⟩
  have taken := Transition.Reachable.next third ⟨.take 0, inTurn_of_idle rfl⟩
  exact Transition.Reachable.next taken
    ⟨.finish ⟨0, ⟨0, some 1⟩, false⟩ 7 List.mem_cons_self rfl,
      fun hand _ _ => queuedUp_inTurn rfl rfl hand.entry⟩

/-- The third task becomes ready behind the second, which is taken next. -/
theorem take_order_queuedUp :
    (queuedUp.done ⟨0, ⟨0, some 1⟩, true⟩).backlog.tasks .normal = [⟨1, none⟩, ⟨2, some 2⟩] ∧
      (queuedUp.done ⟨0, ⟨0, some 1⟩, true⟩).backlog.FirstReady ⟨1, none⟩ := by
  have step : Step queuedUp (queuedUp.done ⟨0, ⟨0, some 1⟩, true⟩) :=
    .done ⟨0, ⟨0, some 1⟩, true⟩ List.mem_cons_self rfl
  have done := Transition.Reachable.next queuedUp_reachable
    ⟨step, fun hand _ _ => queuedUp_inTurn rfl rfl hand.entry⟩
  exact ⟨rfl, (take_order.1 _ done).2 0 ⟨1, none⟩ rfl⟩

/-- The first of two tasks runs, and a third is submitted before it is through `done`. -/
def overtaking : Run Nat :=
  (((paired.take 0).submit {}).finish ⟨0, ⟨0, some 1⟩, false⟩ 7).done ⟨0, ⟨0, some 1⟩, true⟩

theorem overtaking_reachable : overtaking.Reachable := by
  have taken := paired_reachable.later (.single (.take 0))
  have submitted := taken.later (.single (.submit {} (by simp)))
  have finished := submitted.later
    (.single (.finish ⟨0, ⟨0, some 1⟩, false⟩ 7 List.mem_cons_self rfl))
  exact finished.later (.single (.done ⟨0, ⟨0, some 1⟩, true⟩ List.mem_cons_self rfl))

/-- A worker takes the third task, of the same priority, before the second. -/
theorem later_task_taken_first : ∃ s : Run Nat, s.Reachable ∧ ¬ s.backlog.Sorted ∧
    ∃ worker task, (s.backlog.take worker).1 = some task ∧ ¬ s.backlog.FirstReady task := by
  have normal : overtaking.backlog.tasks .normal = [⟨2, none⟩, ⟨1, some 2⟩] := rfl
  refine ⟨overtaking, overtaking_reachable, fun sorted => ?_, 0, ⟨2, none⟩, rfl, ?_⟩
  · have first := sorted .normal
    rw [normal] at first
    exact absurd first (by decide)
  · rintro ⟨priority, mem, highest, least⟩
    cases priority with
    | low => exact absurd mem (by decide)
    | high => exact absurd mem (by decide)
    | normal => exact absurd (least ⟨1, some 2⟩ (by decide)) (by decide)

end Run

end Dross
