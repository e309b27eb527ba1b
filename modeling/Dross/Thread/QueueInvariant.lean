import Dross.Thread.QueueRun

/-!
# What every run of an operation queue keeps

Each operation is taken apart into the moves it makes while it holds the mutex:
a task enters, moves from one list to another, or leaves, and a result settles.
A move keeps the invariant, so an operation does, and so does a run.
-/

namespace Dross

namespace Backlog

theorem mem_aside {b : Backlog} {task : Entry} :
    task ∈ b.aside ↔ ∃ w ∈ b.waiting, w.task = task := by
  simp [aside]

end Backlog

namespace Run

variable {α : Type} {s t : Run α} {limbo left : List Entry}

theorem liveTally_pos {order : Nat} :
    0 < s.liveTally limbo order ↔ ∃ task, s.Live limbo task ∧ task.order = order := by
  have ready := @Backlog.readyTally_pos s.backlog.tasks order
  have aside := @tally_pos s.backlog.aside order
  have between := @tally_pos limbo order
  have held := @tally_pos s.held order
  constructor
  · intro h
    unfold liveTally at h
    by_cases h₁ : 0 < Backlog.readyTally s.backlog.tasks order
    · obtain ⟨p, task, mem, same⟩ := ready.mp h₁
      exact ⟨task, Or.inl (Or.inl ⟨p, mem⟩), same⟩
    by_cases h₂ : 0 < tally s.backlog.aside order
    · obtain ⟨task, mem, same⟩ := aside.mp h₂
      exact ⟨task, Or.inl (Or.inr (Or.inl mem)), same⟩
    by_cases h₃ : 0 < tally limbo order
    · obtain ⟨task, mem, same⟩ := between.mp h₃
      exact ⟨task, Or.inl (Or.inr (Or.inr mem)), same⟩
    · obtain ⟨task, mem, same⟩ := held.mp (by omega)
      exact ⟨task, Or.inr mem, same⟩
  · rintro ⟨task, ((⟨p, mem⟩ | mem | mem) | mem), same⟩
    · have := ready.mpr ⟨p, task, mem, same⟩
      unfold liveTally
      omega
    · have := aside.mpr ⟨task, mem, same⟩
      unfold liveTally
      omega
    · have := between.mpr ⟨task, mem, same⟩
      unfold liveTally
      omega
    · have := held.mpr ⟨task, mem, same⟩
      unfold liveTally
      omega

theorem Books.live_le_one (h : s.Books limbo) (order : Nat) : s.liveTally limbo order ≤ 1 := by
  have := h.accounted order
  split at this <;> omega

theorem Books.live_lt (h : s.Books limbo) {task : Entry} (live : s.Live limbo task) :
    task.order < s.backlog.accepted := by
  have pos := liveTally_pos.mpr ⟨task, live, rfl⟩
  have := h.accounted task.order
  split at this <;> omega

/-- Tasks of one order are one task. -/
theorem Books.live_unique (h : s.Books limbo) {task other : Entry} (live : s.Live limbo task)
    (live' : s.Live limbo other) (same : task.order = other.order) : task = other := by
  have result : task.result = other.result := by
    rw [← h.recorded task live, ← h.recorded other live', same]
  cases task
  cases other
  simp_all

/-- A task between the lists is not aside. -/
theorem Books.aside_ne {task : Entry} (h : s.Books (task :: left)) {w : Waiting}
    (mem : w ∈ s.backlog.waiting) : task.order ≠ w.task.order := by
  intro same
  have one := h.live_le_one task.order
  have aside := tally_pos.mpr ⟨w.task, Backlog.mem_aside.mpr ⟨w, mem, rfl⟩, same.symm⟩
  unfold liveTally at one
  rw [tally_cons, if_pos rfl] at one
  omega

/-- Two tasks of one result are one task. -/
theorem Valid.result_unique (h : s.Valid limbo) {task other : Entry} {id : OperationId}
    (live : s.Live limbo task) (live' : s.Live limbo other) (hr : task.result = some id)
    (hr' : other.result = some id) : task = other :=
  h.books.live_unique live live' (h.books.distinct _ _ id
    ((h.books.recorded task live).trans hr) ((h.books.recorded other live').trans hr'))

/-- A move between the lists of tasks leaves the books as they were. -/
theorem Books.move (h : s.Books limbo) (accepted : t.backlog.accepted = s.backlog.accepted)
    (unfinished : t.backlog.unfinished = s.backlog.unfinished) (log : t.log = s.log)
    (finished : t.finished = s.finished) (cancelled : t.cancelled = s.cancelled)
    (taken : t.taken = s.taken) (held : ∀ order, tally t.held order = tally s.held order)
    (same : ∀ order, t.liveTally left order = s.liveTally limbo order)
    (live : ∀ task, t.Live left task → s.Live limbo task) : t.Books left := by
  have result : t.resultOf = s.resultOf := by funext order; simp [resultOf, log]
  have after : t.afterOf = s.afterOf := by funext order; simp [afterOf, log]
  exact {
    accounted := by
      intro order
      rw [same, finished, cancelled, accepted]
      exact h.accounted order
    unfinished := by
      intro order
      rw [same, unfinished]
      exact h.unfinished order
    logged := by rw [log, accepted]; exact h.logged
    recorded := by
      intro task hl
      rw [result]
      exact h.recorded task (live task hl)
    distinct := by rw [result]; exact h.distinct
    earlier := by rw [result, after]; exact h.earlier
    taken := by
      intro order
      rw [taken, held, finished]
      exact h.taken order }

theorem Results.move (h : s.Results limbo) (number : t.backlog.number = s.backlog.number)
    (operations : t.operations = s.operations) (log : t.log = s.log)
    (finished : t.finished = s.finished) (cancelled : t.cancelled = s.cancelled)
    (hands : t.hands = s.hands)
    (keys : t.backlog.dependents.map Prod.fst = s.backlog.dependents.map Prod.fst)
    (idle : ∀ task, t.Idle left task ↔ s.Idle limbo task) : t.Results left := by
  have result : t.resultOf = s.resultOf := by funext order; simp [resultOf, log]
  have after : t.afterOf = s.afterOf := by funext order; simp [afterOf, log]
  have live : ∀ task, t.Live left task ↔ s.Live limbo task := by
    intro task
    simp only [Live, idle, held, hands]
  exact {
    keys := by
      intro id
      rw [AssocList.contains_iff_key, keys, ← AssocList.contains_iff_key, h.keys]
      simp only [live]
    keysNodup := by rw [keys]; exact h.keysNodup
    owned := by rw [result, operations, number]; exact h.owned
    named := by rw [after, operations, number]; exact h.named
    fresh := by rw [operations]; exact h.fresh
    idle := by
      intro task id hi
      rw [operations]
      exact h.idle task id ((idle task).mp hi)
    running := by rw [hands, operations]; exact h.running
    settled := by
      intro id
      rw [operations, number]
      simp only [live]
      exact h.settled id
    cancelled := by rw [cancelled, result, operations]; exact h.cancelled
    finished := by rw [finished, result, operations]; exact h.finished }

/-- The run with another backlog, as an operation leaves it half way. -/
def withBacklog (s : Run α) (b : Backlog) : Run α :=
  { s with shared := { s.shared with backlog := b } }

@[simp] theorem withBacklog_backlog (b : Backlog) : (s.withBacklog b).backlog = b := rfl
@[simp] theorem withBacklog_operations (b : Backlog) :
    (s.withBacklog b).operations = s.operations := rfl
@[simp] theorem withBacklog_hands (b : Backlog) : (s.withBacklog b).hands = s.hands := rfl
@[simp] theorem withBacklog_held (b : Backlog) : (s.withBacklog b).held = s.held := rfl
@[simp] theorem withBacklog_log (b : Backlog) : (s.withBacklog b).log = s.log := rfl
@[simp] theorem withBacklog_finished (b : Backlog) : (s.withBacklog b).finished = s.finished := rfl
@[simp] theorem withBacklog_cancelled (b : Backlog) :
    (s.withBacklog b).cancelled = s.cancelled := rfl
@[simp] theorem withBacklog_afterOf (b : Backlog) (order : Nat) :
    (s.withBacklog b).afterOf order = s.afterOf order := rfl
@[simp] theorem withBacklog_resultOf (b : Backlog) (order : Nat) :
    (s.withBacklog b).resultOf order = s.resultOf order := rfl

/-! ## Counting off -/

/-- The three things counting one occurrence off can come to. -/
theorem countOff_cases (b : Backlog) (order : Nat) :
    ((∀ w ∈ b.waiting, w.task.order ≠ order) ∧ (b.countOff order).1 = b) ∨
    (∃ found ∈ b.waiting, found.task.order = order ∧ found.remaining = 1 ∧
      (b.countOff order).1 = ((b.eraseWaiting order).makeReady found.task found.priority).1) ∨
    (∃ found ∈ b.waiting, found.task.order = order ∧ found.remaining ≠ 1 ∧
      (b.countOff order).1 = { b with waiting := b.waiting.map (fun w =>
        if w.task.order = order then { w with remaining := w.remaining - 1 } else w) }) := by
  unfold Backlog.countOff
  cases h : b.findWaiting order with
  | none => exact Or.inl ⟨b.findWaiting_none.mp h, rfl⟩
  | some found =>
    obtain ⟨mem, same⟩ := b.findWaiting_some h
    by_cases last : found.remaining = 1
    · exact Or.inr (Or.inl ⟨found, mem, same, last, by simp [last]⟩)
    · exact Or.inr (Or.inr ⟨found, mem, same, last, by simp [last]⟩)

/-- While `done` counts off, the occurrences left are still listed under the
result that returned. -/
def counting (b : Backlog) (id : OperationId) (orders : List Nat) : Backlog :=
  { b with dependents := (id, orders) :: b.dependents }

section Counting

variable {b : Backlog} {id : OperationId} {order : Nat} {orders : List Nat}

theorem occurrences_counted (dependents : Dependents) (other : Nat) :
    Backlog.occurrences ((id, order :: orders) :: dependents) other =
      Backlog.occurrences ((id, orders) :: dependents) other +
        if order = other then 1 else 0 := by
  simp only [Backlog.occurrences_cons, List.count_cons, beq_iff_eq]
  omega

theorem listed_counted {dependents : Dependents} {other : OperationId} {list : List Nat}
    (order : Nat) (mem : (other, list) ∈ (id, orders) :: dependents) :
    ∃ list', (other, list') ∈ (id, order :: orders) :: dependents ∧ ∀ o ∈ list, o ∈ list' := by
  rcases List.mem_cons.mp mem with same | mem
  · cases same
    exact ⟨order :: orders, List.mem_cons_self, fun o ho => List.mem_cons_of_mem _ ho⟩
  · exact ⟨list, List.mem_cons_of_mem _ mem, fun o ho => ho⟩

/-- The result that is counted off has returned, so nothing has to be listed under it. -/
theorem waits_counted {dependents : Dependents} {other : OperationId} {o : Nat}
    (returned : ∃ value, s.operations.stateOf id = some (.returned value))
    (waits : (∃ value, s.operations.stateOf other = some (.returned value)) ∨
      ∃ list, (other, list) ∈ (id, order :: orders) :: dependents ∧ o ∈ list) :
    (∃ value, s.operations.stateOf other = some (.returned value)) ∨
      ∃ list, (other, list) ∈ (id, orders) :: dependents ∧ o ∈ list := by
  rcases waits with hv | ⟨list, hm, ho⟩
  · exact Or.inl hv
  · rcases List.mem_cons.mp hm with same | hm
    · cases same
      exact Or.inl returned
    · exact Or.inr ⟨list, List.mem_cons_of_mem _ hm, ho⟩

section

variable (h : (s.withBacklog (counting b id (order :: orders))).Valid [])

include h

/-- A task that waits keeps its count where another occurrence is counted off. -/
theorem Valid.counted_other {w : Waiting} (mem : w ∈ b.waiting) (other : w.task.order ≠ order) :
    w.remaining = Backlog.occurrences ((id, orders) :: b.dependents) w.task.order ∧
      0 < w.remaining := by
  obtain ⟨was, pos⟩ := h.links.counted w mem
  change w.remaining = Backlog.occurrences ((id, order :: orders) :: b.dependents) _ at was
  rw [occurrences_counted, if_neg (Ne.symm other)] at was
  exact ⟨was, pos⟩

theorem Valid.counted_own {w : Waiting} (mem : w ∈ b.waiting) (own : w.task.order = order) :
    w.remaining = Backlog.occurrences ((id, orders) :: b.dependents) order + 1 := by
  obtain ⟨was, -⟩ := h.links.counted w mem
  change w.remaining = Backlog.occurrences ((id, order :: orders) :: b.dependents) _ at was
  rw [own, occurrences_counted, if_pos rfl] at was
  exact was

/-- The order is that of one waiting task. -/
theorem Valid.waiting_is {found : Waiting} (mem : found ∈ b.waiting)
    (same : found.task.order = order) {task : Entry}
    (idle : (s.withBacklog (counting b id (order :: orders))).Idle [] task)
    (own : task.order = order) : task = found.task := by
  refine h.books.live_unique (Or.inl idle) (Or.inl (Or.inr (Or.inl ?_))) (own.trans same.symm)
  exact Backlog.mem_aside.mpr ⟨found, mem, rfl⟩

theorem Valid.countOff_gone (gone : ∀ w ∈ b.waiting, w.task.order ≠ order)
    (returned : ∃ value, s.operations.stateOf id = some (.returned value)) :
    (s.withBacklog (counting b id orders)).Valid [] := by
  refine ⟨h.books.move rfl rfl rfl rfl rfl rfl (fun _ => rfl) (fun _ => rfl) (fun _ hl => hl),
    h.results.move rfl rfl rfl rfl rfl rfl rfl (fun _ => Iff.rfl), ?_⟩
  exact {
    listed := by
      intro other list hm o ho
      obtain ⟨list', hm', sub⟩ := listed_counted order hm
      exact h.links.listed other list' hm' o (sub o ho)
    counted := fun w hw => h.counted_other hw (gone w hw)
    waits := fun w hw other ho => waits_counted returned (h.links.waits w hw other ho)
    started := h.links.started }

theorem Valid.idle_last {found : Waiting} (mem : found ∈ b.waiting)
    (same : found.task.order = order) (task : Entry) :
    (s.withBacklog (counting ((b.eraseWaiting order).makeReady found.task found.priority).1 id
        orders)).Idle [] task ↔
      (s.withBacklog (counting b id (order :: orders))).Idle [] task := by
  constructor
  · rintro (⟨p, hp⟩ | ha | hn)
    · rcases (Backlog.mem_makeReady _).mp hp with hp | ⟨_, rfl⟩
      · exact Or.inl ⟨p, hp⟩
      · exact Or.inr (Or.inl (Backlog.mem_aside.mpr ⟨found, mem, rfl⟩))
    · obtain ⟨w, hw, rfl⟩ := Backlog.mem_aside.mp ha
      exact Or.inr (Or.inl (Backlog.mem_aside.mpr ⟨w, (b.mem_eraseWaiting.mp hw).1, rfl⟩))
    · cases hn
  · intro hi
    by_cases ho : task.order = order
    · exact Or.inl ⟨found.priority,
        (Backlog.mem_makeReady _).mpr (Or.inr ⟨rfl, h.waiting_is mem same hi ho⟩)⟩
    rcases hi with ⟨p, hp⟩ | ha | hn
    · exact Or.inl ⟨p, (Backlog.mem_makeReady _).mpr (Or.inl hp)⟩
    · obtain ⟨w, hw, rfl⟩ := Backlog.mem_aside.mp ha
      exact Or.inr (Or.inl (Backlog.mem_aside.mpr ⟨w, b.mem_eraseWaiting.mpr ⟨hw, ho⟩, rfl⟩))
    · cases hn

theorem Valid.liveTally_last {found : Waiting} (mem : found ∈ b.waiting)
    (same : found.task.order = order) (o : Nat) :
    (s.withBacklog (counting ((b.eraseWaiting order).makeReady found.task found.priority).1 id
        orders)).liveTally [] o =
      (s.withBacklog (counting b id (order :: orders))).liveTally [] o := by
  have ready := Backlog.readyTally_makeReady (b.eraseWaiting order) found.task found.priority o
  have aside := b.tally_aside_erase order o
  have one := h.books.live_le_one order
  have pos : 0 < tally b.aside order :=
    tally_pos.mpr ⟨found.task, Backlog.mem_aside.mpr ⟨found, mem, rfl⟩, same⟩
  change Backlog.readyTally _ _ + tally (b.eraseWaiting order).aside _ + _ + _ = _
  simp only [liveTally, withBacklog_backlog, withBacklog_held, counting] at one ⊢
  rw [ready, same]
  change Backlog.readyTally b.tasks o + _ + _ + _ + _ = Backlog.readyTally b.tasks o +
    tally b.aside o + _ + _
  change Backlog.readyTally b.tasks order + tally b.aside order + _ + _ ≤ 1 at one
  by_cases ho : order = o
  · subst ho
    rw [if_pos rfl] at aside ⊢
    omega
  · rw [if_neg ho] at aside ⊢
    omega

/-- The last occurrence: the task is ready. -/
theorem Valid.countOff_last {found : Waiting} (mem : found ∈ b.waiting)
    (same : found.task.order = order) (last : found.remaining = 1)
    (returned : ∃ value, s.operations.stateOf id = some (.returned value)) :
    (s.withBacklog (counting ((b.eraseWaiting order).makeReady found.task found.priority).1 id
      orders)).Valid [] := by
  have unlisted : ∀ other list, (other, list) ∈ (id, orders) :: b.dependents → order ∉ list := by
    intro other list hm ho
    have := Backlog.occurrences_pos.mpr ⟨other, list, hm, ho⟩
    have := h.counted_own mem same
    omega
  refine ⟨h.books.move rfl rfl rfl rfl rfl rfl (fun _ => rfl) (h.liveTally_last mem same) ?_,
    h.results.move rfl rfl rfl rfl rfl rfl rfl (h.idle_last mem same), ?_⟩
  · rintro task (hi | hh)
    · exact Or.inl ((h.idle_last mem same task).mp hi)
    · exact Or.inr hh
  exact {
    listed := by
      intro other list hm o ho
      obtain ⟨list', hm', sub⟩ := listed_counted order hm
      obtain ⟨named, place⟩ := h.links.listed other list' hm' o (sub o ho)
      refine ⟨named, ?_⟩
      rcases place with ⟨task, ha, rfl⟩ | place
      · obtain ⟨w, hw, rfl⟩ := Backlog.mem_aside.mp ha
        refine Or.inl ⟨w.task, Backlog.mem_aside.mpr ⟨w, b.mem_eraseWaiting.mpr ⟨hw, ?_⟩, rfl⟩, rfl⟩
        rintro rfl
        exact unlisted other list hm ho
      · exact Or.inr place
    counted := by
      intro w hw
      obtain ⟨hw, other⟩ := b.mem_eraseWaiting.mp hw
      exact h.counted_other hw other
    waits := by
      intro w hw other ho
      exact waits_counted returned (h.links.waits w (b.mem_eraseWaiting.mp hw).1 other ho)
    started := by
      rintro o (⟨p, task, hp, rfl⟩ | place) other ho
      · rcases (Backlog.mem_makeReady _).mp hp with hp | ⟨_, rfl⟩
        · exact h.links.started _ (Or.inl ⟨p, task, hp, rfl⟩) other ho
        · rcases waits_counted returned (h.links.waits found mem other ho) with hv | ⟨list, hm, hl⟩
          · exact hv
          · rw [same] at hl
            exact absurd hl (unlisted other list hm)
      · exact h.links.started o (Or.inr place) other ho }

/-- One of more occurrences: the task waits for one less. -/
theorem Valid.countOff_more {found : Waiting} (mem : found ∈ b.waiting)
    (same : found.task.order = order) (more : found.remaining ≠ 1)
    (returned : ∃ value, s.operations.stateOf id = some (.returned value)) :
    (s.withBacklog (counting { b with waiting := b.waiting.map (fun w =>
      if w.task.order = order then { w with remaining := w.remaining - 1 } else w) } id
        orders)).Valid [] := by
  let fewer : Waiting → Waiting := fun w =>
    if w.task.order = order then { w with remaining := w.remaining - 1 } else w
  have task : ∀ w, (fewer w).task = w.task := by
    intro w
    simp only [fewer]
    split <;> rfl
  have aside : ({ b with waiting := b.waiting.map fewer } : Backlog).aside = b.aside := by
    simp [Backlog.aside, Function.comp_def, task]
  have idle : ∀ e, (s.withBacklog (counting { b with waiting := b.waiting.map fewer } id
        orders)).Idle [] e ↔
      (s.withBacklog (counting b id (order :: orders))).Idle [] e := by
    intro e
    change _ ∨ e ∈ ({ b with waiting := b.waiting.map fewer } : Backlog).aside ∨ _ ↔ _
    rw [aside]
    rfl
  refine ⟨h.books.move rfl rfl rfl rfl rfl rfl (fun _ => rfl) ?_ ?_,
    h.results.move rfl rfl rfl rfl rfl rfl rfl idle, ?_⟩
  · intro o
    change _ + tally ({ b with waiting := b.waiting.map fewer } : Backlog).aside o + _ + _ = _
    rw [aside]
    rfl
  · rintro e (hi | hh)
    · exact Or.inl ((idle e).mp hi)
    · exact Or.inr hh
  exact {
    listed := by
      intro other list hm o ho
      obtain ⟨list', hm', sub⟩ := listed_counted order hm
      have place := h.links.listed other list' hm' o (sub o ho)
      change _ ∧ ((∃ t ∈ ({ b with waiting := b.waiting.map fewer } : Backlog).aside, _) ∨ _)
      rw [aside]
      exact place
    counted := by
      intro w' hw
      obtain ⟨w, old, rfl⟩ := List.mem_map.mp hw
      change (fewer w).remaining = Backlog.occurrences ((id, orders) :: b.dependents)
        (fewer w).task.order ∧ 0 < (fewer w).remaining
      rw [task]
      by_cases ho : w.task.order = order
      · have counts := h.counted_own old ho
        have counts' := h.counted_own mem same
        simp only [fewer, ho, if_true]
        omega
      · simp only [fewer, ho, if_false]
        exact h.counted_other old ho
    waits := by
      intro w' hw other ho
      obtain ⟨w, old, rfl⟩ := List.mem_map.mp hw
      change other ∈ s.afterOf (fewer w).task.order at ho
      change _ ∨ ∃ orders', _ ∧ (fewer w).task.order ∈ orders'
      rw [task] at ho ⊢
      exact waits_counted returned (h.links.waits w old other ho)
    started := h.links.started }

end

/-- An occurrence of a task that was cancelled, or of one that waits for more. -/
theorem Valid.countOff (h : (s.withBacklog (counting b id (order :: orders))).Valid [])
    (returned : ∃ value, s.operations.stateOf id = some (.returned value)) :
    (s.withBacklog (counting (b.countOff order).1 id orders)).Valid [] := by
  rcases countOff_cases b order with ⟨gone, eq⟩ | ⟨found, mem, same, last, eq⟩ |
    ⟨found, mem, same, more, eq⟩
  · rw [eq]
    exact h.countOff_gone gone returned
  · rw [eq]
    exact h.countOff_last mem same last returned
  · rw [eq]
    exact h.countOff_more mem same more returned

end Counting

theorem Valid.countOffAll {id : OperationId}
    (returned : ∃ value, s.operations.stateOf id = some (.returned value)) (orders : List Nat)
    {b : Backlog} (h : (s.withBacklog (counting b id orders)).Valid []) :
    (s.withBacklog (counting (b.countOffAll orders).1 id [])).Valid [] := by
  induction orders generalizing b with
  | nil => exact h
  | cons order rest ih => exact ih (h.countOff returned)

theorem countOff_unfinished (b : Backlog) (unfinished : Finset Nat) (order : Nat) :
    (({ b with unfinished := unfinished } : Backlog).countOff order).1 =
      { (b.countOff order).1 with unfinished := unfinished } := by
  unfold Backlog.countOff Backlog.findWaiting
  dsimp only
  split
  · rfl
  · split <;> rfl

theorem countOffAll_unfinished (unfinished : Finset Nat) (orders : List Nat) (b : Backlog) :
    (({ b with unfinished := unfinished } : Backlog).countOffAll orders).1 =
      { (b.countOffAll orders).1 with unfinished := unfinished } := by
  induction orders generalizing b with
  | nil => rfl
  | cons order rest ih =>
    simp only [Backlog.countOffAll]
    rw [countOff_unfinished, ih]

theorem countOff_keeps (b : Backlog) (order : Nat) :
    (b.countOff order).1.unfinished = b.unfinished ∧
    (b.countOff order).1.accepting = b.accepting ∧ (b.countOff order).1.workers = b.workers := by
  rcases countOff_cases b order with ⟨_, h⟩ | ⟨_, _, _, _, h⟩ | ⟨_, _, _, _, h⟩
  all_goals
    rw [h]
    exact ⟨rfl, rfl, rfl⟩

theorem countOffAll_keeps (orders : List Nat) (b : Backlog) :
    (b.countOffAll orders).1.unfinished = b.unfinished ∧
    (b.countOffAll orders).1.accepting = b.accepting ∧
    (b.countOffAll orders).1.workers = b.workers := by
  induction orders generalizing b with
  | nil => exact ⟨rfl, rfl, rfl⟩
  | cons order rest ih =>
    obtain ⟨unfinished, accepting, workers⟩ := countOff_keeps b order
    have later := ih (b.countOff order).1
    exact ⟨later.1.trans unfinished, later.2.1.trans accepting, later.2.2.trans workers⟩

theorem done_keeps (b : Backlog) (task : Entry) :
    (b.done task).1.accepting = b.accepting ∧ (b.done task).1.workers = b.workers := by
  unfold Backlog.done
  cases task.result with
  | none => exact ⟨rfl, rfl⟩
  | some id => exact (countOffAll_keeps _ _).2

/-- The map of dependents may be kept in any order. -/
theorem Valid.permute {dependents : Dependents} (h : s.Valid limbo)
    (perm : dependents.Perm s.backlog.dependents) :
    (s.withBacklog { s.backlog with dependents := dependents }).Valid limbo := by
  obtain ⟨books, results, links⟩ := h
  refine ⟨books.move rfl rfl rfl rfl rfl rfl (fun _ => rfl) (fun _ => rfl) (fun _ hl => hl), ?_, ?_⟩
  · exact { results with
      keys := by
        intro id
        rw [AssocList.contains_iff_key]
        change id ∈ dependents.map Prod.fst ↔ _
        rw [(perm.map Prod.fst).mem_iff, ← AssocList.contains_iff_key]
        exact results.keys id
      keysNodup := (perm.map Prod.fst).nodup_iff.mpr results.keysNodup }
  · exact { links with
      listed := fun id orders hm => links.listed id orders (perm.mem_iff.mp hm)
      counted := by
        intro w hw
        change w.remaining = Backlog.occurrences dependents _ ∧ _
        rw [Backlog.occurrences_perm perm]
        exact links.counted w hw
      waits := by
        intro w hw id ho
        rcases links.waits w hw id ho with hv | ⟨orders, hm, hl⟩
        · exact Or.inl hv
        · exact Or.inr ⟨orders, perm.mem_iff.mpr hm, hl⟩ }

/-! ## The hand that is done -/

theorem held_erase {hand : Hand} (mem : hand ∈ s.hands) (order : Nat) :
    tally s.held order = tally ((s.hands.erase hand).map Hand.entry) order +
      if hand.entry.order = order then 1 else 0 := by
  have perm := ((List.perm_cons_erase mem).map Hand.entry).map Entry.order
  have count := perm.count_eq order
  simp only [List.map_cons, List.count_cons, beq_iff_eq] at count
  simp only [held, tally]
  omega

/-- The hand leaves for the list of finished orders, and its result, which has
nothing listed under it any more, leaves the map. -/
def retire (s : Run α) (hand : Hand) (dependents : Dependents) : Run α :=
  { s with
    shared := { s.shared with backlog := { s.backlog with
      unfinished := s.backlog.unfinished.erase hand.entry.order
      dependents := dependents } }
    hands := s.hands.erase hand
    finished := hand.entry.order :: s.finished }

section Retiring

variable {hand : Hand} {dependents : Dependents}

theorem live_of_retire {task : Entry} (live : (s.retire hand dependents).Live [] task) :
    s.Live [] task := by
  rcases live with hi | hh
  · exact Or.inl hi
  · obtain ⟨other, ho, rfl⟩ := List.mem_map.mp hh
    exact Or.inr (List.mem_map_of_mem (f := Hand.entry) (List.mem_of_mem_erase ho))

theorem live_retire {task : Entry} (live : s.Live [] task) (other : task ≠ hand.entry) :
    (s.retire hand dependents).Live [] task := by
  rcases live with hi | hh
  · exact Or.inl hi
  · obtain ⟨held, ho, rfl⟩ := List.mem_map.mp hh
    refine Or.inr (List.mem_map_of_mem (f := Hand.entry) ?_)
    exact (List.mem_erase_of_ne (fun same => other (by rw [same]))).mpr ho

theorem liveTally_retire (mem : hand ∈ s.hands) (order : Nat) :
    s.liveTally [] order = (s.retire hand dependents).liveTally [] order +
      if hand.entry.order = order then 1 else 0 := by
  have erased := held_erase mem order
  change _ = _ + _ + _ + tally ((s.hands.erase hand).map Hand.entry) order + _
  simp only [liveTally]
  change _ = Backlog.readyTally s.backlog.tasks order + tally s.backlog.aside order + _ + _ + _
  omega

theorem Books.not_live_retire (h : s.Books []) (mem : hand ∈ s.hands) :
    ¬ (s.retire hand dependents).Live [] hand.entry := by
  intro live
  have pos := liveTally_pos.mpr ⟨hand.entry, live, rfl⟩
  have sum := @liveTally_retire _ s hand dependents mem hand.entry.order
  have one := h.live_le_one hand.entry.order
  rw [if_pos rfl] at sum
  omega

theorem Books.retire (h : s.Books []) (mem : hand ∈ s.hands) :
    (s.retire hand dependents).Books [] where
  accounted := by
    intro order
    have was := h.accounted order
    have sum := @liveTally_retire _ s hand dependents mem order
    change _ + (hand.entry.order :: s.finished).count order + s.cancelled.count order =
      if order < s.backlog.accepted then 1 else 0
    simp only [List.count_cons, beq_iff_eq]
    omega
  unfinished := by
    intro order
    have sum := @liveTally_retire _ s hand dependents mem order
    have one := h.live_le_one order
    change order ∈ s.backlog.unfinished.erase hand.entry.order ↔ _
    rw [Finset.mem_erase, h.unfinished order]
    by_cases ho : hand.entry.order = order
    · rw [if_pos ho] at sum
      omega
    · rw [if_neg ho] at sum
      constructor
      · omega
      · intro hp
        exact ⟨Ne.symm ho, by omega⟩
  logged := h.logged
  recorded := fun task live => h.recorded task (live_of_retire live)
  distinct := h.distinct
  earlier := h.earlier
  taken := by
    intro order
    have was := h.taken order
    have erased := held_erase mem order
    change s.taken.count order = tally ((s.hands.erase hand).map Hand.entry) order +
      (hand.entry.order :: s.finished).count order
    simp only [List.count_cons, beq_iff_eq]
    omega

/-- What the map of dependents is without the result of a hand. -/
def Released (s : Run α) (hand : Hand) (dependents : Dependents) : Prop :=
  (hand.entry.result = none ∧ s.backlog.dependents = dependents) ∨
    ∃ id, hand.entry.result = some id ∧ s.backlog.dependents = (id, []) :: dependents

theorem Released.mem (released : s.Released hand dependents) {p : OperationId × List Nat}
    (mem : p ∈ dependents) : p ∈ s.backlog.dependents := by
  rcases released with ⟨_, same⟩ | ⟨id, _, same⟩
  · rwa [same]
  · rw [same]
    exact List.mem_cons_of_mem _ mem

theorem Released.occurrences (released : s.Released hand dependents) (order : Nat) :
    Backlog.occurrences s.backlog.dependents order = Backlog.occurrences dependents order := by
  rcases released with ⟨_, same⟩ | ⟨id, _, same⟩
  · rw [same]
  · rw [same]
    simp

theorem Released.nodup (released : s.Released hand dependents) (h : s.Results []) :
    (dependents.map Prod.fst).Nodup := by
  have nodup := h.keysNodup
  rcases released with ⟨_, same⟩ | ⟨id, _, same⟩
  · rwa [same] at nodup
  · rw [same, List.map_cons, List.nodup_cons] at nodup
    exact nodup.2

/-- An order that is listed is listed under a result that stays. -/
theorem Released.listed (released : s.Released hand dependents) {id : OperationId}
    {orders : List Nat} {order : Nat} (mem : (id, orders) ∈ s.backlog.dependents)
    (listed : order ∈ orders) : (id, orders) ∈ dependents := by
  rcases released with ⟨_, same⟩ | ⟨own, _, same⟩
  · rwa [same] at mem
  · rw [same] at mem
    rcases List.mem_cons.mp mem with own | mem
    · cases own
      cases listed
    · exact mem

variable (h : s.Valid []) (mem : hand ∈ s.hands)

include h mem

/-- The keys that stay are those of the tasks that stay. -/
theorem Valid.keys_retire (released : s.Released hand dependents) (id : OperationId) :
    AssocList.contains dependents id = true ↔
      ∃ task, (s.retire hand dependents).Live [] task ∧ task.result = some id := by
  rcases released with ⟨none, same⟩ | ⟨own, hr, same⟩
  · rw [← same, h.results.keys id]
    constructor
    · rintro ⟨task, live, hid⟩
      exact ⟨task, live_retire live (by rintro rfl; simp [none] at hid), hid⟩
    · rintro ⟨task, live, hid⟩
      exact ⟨task, live_of_retire live, hid⟩
  · have nodup := h.results.keysNodup
    rw [same, List.map_cons, List.nodup_cons] at nodup
    have key : AssocList.contains s.backlog.dependents id = true ↔
        id = own ∨ AssocList.contains dependents id = true := by
      rw [same, AssocList.contains_iff_key, AssocList.contains_iff_key]
      simp
    rw [h.results.keys id] at key
    constructor
    · intro hc
      obtain ⟨task, live, hid⟩ := key.mpr (Or.inr hc)
      refine ⟨task, live_retire live ?_, hid⟩
      rintro rfl
      rw [hr] at hid
      cases hid
      exact nodup.1 (AssocList.contains_iff_key.mp hc)
    · rintro ⟨task, live, hid⟩
      rcases key.mp ⟨task, live_of_retire live, hid⟩ with rfl | hc
      · have held : s.Live [] hand.entry := Or.inr (List.mem_map_of_mem (f := Hand.entry) mem)
        rw [h.result_unique (live_of_retire live) held hid hr] at live
        exact absurd live (h.books.not_live_retire mem)
      · exact hc

theorem Valid.results_retire (ran : hand.returned = true)
    (released : s.Released hand dependents) : (s.retire hand dependents).Results [] := by
  have finished : ∀ id, hand.entry.result = some id →
      ∃ value, s.operations.stateOf id = some (.returned value) :=
    fun id hr => (h.results.running hand mem id hr).2 ran
  exact {
    keys := h.keys_retire mem released
    keysNodup := released.nodup h.results
    owned := h.results.owned
    named := h.results.named
    fresh := h.results.fresh
    idle := h.results.idle
    running := fun other ho => h.results.running other (List.mem_of_mem_erase ho)
    settled := by
      intro id hn hp
      obtain ⟨task, live, hr⟩ := h.results.settled id hn hp
      refine ⟨task, live_retire live ?_, hr⟩
      rintro rfl
      obtain ⟨value, hv⟩ := finished id hr
      change s.operations.stateOf id = _ at hp
      rw [hp] at hv
      cases hv
    cancelled := h.results.cancelled
    finished := by
      intro order ho id hr
      rcases List.mem_cons.mp ho with rfl | ho
      · have held : s.Live [] hand.entry := Or.inr (List.mem_map_of_mem (f := Hand.entry) mem)
        exact finished id ((h.books.recorded _ held).symm.trans hr)
      · exact h.results.finished order ho id hr }

theorem Valid.links_retire (released : s.Released hand dependents) :
    (s.retire hand dependents).Links [] where
  listed := fun id orders hm => h.links.listed id orders (released.mem hm)
  counted := by
    intro w hw
    have counts := h.links.counted w hw
    rw [released.occurrences] at counts
    exact counts
  waits := by
    intro w hw id ho
    rcases h.links.waits w hw id ho with hv | ⟨orders, hm, hl⟩
    · exact Or.inl hv
    · exact Or.inr ⟨orders, released.listed hm hl, hl⟩
  started := by
    rintro order (ready | ⟨task, hh, rfl⟩ | ho) id ha
    · exact h.links.started order (Or.inl ready) id ha
    · obtain ⟨other, hm, rfl⟩ := List.mem_map.mp hh
      refine h.links.started _ (Or.inr (Or.inl ⟨other.entry, ?_, rfl⟩)) id ha
      exact List.mem_map_of_mem (f := Hand.entry) (List.mem_of_mem_erase hm)
    · rcases List.mem_cons.mp ho with rfl | ho
      · refine h.links.started _ (Or.inr (Or.inl ⟨hand.entry, ?_, rfl⟩)) id ha
        exact List.mem_map_of_mem (f := Hand.entry) mem
      · exact h.links.started order (Or.inr (Or.inr ho)) id ha

theorem Valid.retire (ran : hand.returned = true) (released : s.Released hand dependents) :
    (s.retire hand dependents).Valid [] :=
  ⟨h.books.retire mem, h.results_retire mem ran released, h.links_retire mem released⟩

end Retiring

/-- `done` for a task with a result: its list goes, counted off to the end. -/
theorem done_some {b : Backlog} {task : Entry} {id : OperationId} {orders : List Nat}
    (hr : task.result = some id) (hl : b.dependents.lookup id = some orders) :
    (b.done task).1 =
      { (({ b with dependents := AssocList.erase b.dependents id } : Backlog).countOffAll
          orders).1 with unfinished := b.unfinished.erase task.order } := by
  unfold Backlog.done Backlog.takeDependentOrders AssocList.extract
  simp only [hr, hl, Option.getD_some]
  exact countOffAll_unfinished _ orders { b with dependents := AssocList.erase b.dependents id }

theorem Valid.done {hand : Hand} (h : s.Valid []) (mem : hand ∈ s.hands)
    (ran : hand.returned = true) : (s.done hand).Valid [] := by
  have live : s.Live [] hand.entry := Or.inr (List.mem_map_of_mem (f := Hand.entry) mem)
  cases hr : hand.entry.result with
  | none =>
    have out : s.done hand = s.retire hand s.backlog.dependents := by
      simp [Run.done, Run.retire, Backlog.done, hr]
    rw [out]
    exact h.retire mem ran (Or.inl ⟨hr, rfl⟩)
  | some id =>
    have key := (h.results.keys id).mpr ⟨hand.entry, live, hr⟩
    cases hl : s.backlog.dependents.lookup id with
    | none =>
      rw [AssocList.lookup_eq_none_iff.mp hl] at key
      cases key
    | some orders =>
      let b : Backlog := { s.backlog with dependents := AssocList.erase s.backlog.dependents id }
      have perm := AssocList.lookup_some_perm h.results.keysNodup hl
      have start : (s.withBacklog (counting b id orders)).Valid [] := h.permute perm
      have counted := start.countOffAll ((h.results.running hand mem id hr).2 ran)
      have keeps := countOffAll_keeps orders b
      have out : s.done hand =
          (s.withBacklog (counting (b.countOffAll orders).1 id [])).retire hand
            (b.countOffAll orders).1.dependents := by
        simp only [Run.done, Run.retire, withBacklog, counting, done_some hr hl]
        rw [keeps.1]
      rw [out]
      exact counted.retire mem ran (Or.inr ⟨id, hr, rfl⟩)

/-! ## Taking, running and stopping -/

theorem Books.idle_not_held (h : s.Books limbo) {task : Entry} (idle : s.Idle limbo task)
    (held : task ∈ s.held) : False := by
  have one := h.live_le_one task.order
  have heldPos := tally_of_mem held
  unfold liveTally at one
  rcases idle with ⟨p, hp⟩ | ha | hl
  · have := Backlog.readyTally_pos.mpr ⟨p, task, hp, rfl⟩
    omega
  · have := tally_of_mem ha
    omega
  · have := tally_of_mem hl
    omega

section Taking

variable {worker : Nat} {next : Entry} {priority : OperationPriority} {left' : List Entry}

/-- The run with the front of a ready list in a hand. -/
def handOut (s : Run α) (worker : Nat) (next : Entry) (priority : OperationPriority)
    (left : List Entry) : Run α :=
  { s with
    shared := { s.shared with backlog := { s.backlog with
      tasks := Function.update s.backlog.tasks priority left } }
    hands := ⟨worker, next, false⟩ :: s.hands
    taken := next.order :: s.taken }

variable (front : s.backlog.tasks priority = next :: left')

include front

theorem mem_of_handOut {p : OperationPriority} {task : Entry}
    (mem : task ∈ Function.update s.backlog.tasks priority left' p) :
    task ∈ s.backlog.tasks p := by
  by_cases same : p = priority
  · subst same
    rw [Function.update_self] at mem
    rw [front]
    exact List.mem_cons_of_mem _ mem
  · rwa [Function.update_of_ne same] at mem

theorem handOut_of_mem {p : OperationPriority} {task : Entry} (mem : task ∈ s.backlog.tasks p) :
    task = next ∨ task ∈ Function.update s.backlog.tasks priority left' p := by
  by_cases same : p = priority
  · subst same
    rw [front] at mem
    rcases List.mem_cons.mp mem with first | mem
    · exact Or.inl first
    · exact Or.inr (by rwa [Function.update_self])
  · exact Or.inr (by rwa [Function.update_of_ne same])

theorem front_mem : next ∈ s.backlog.tasks priority := by
  rw [front]
  exact List.mem_cons_self

theorem idle_of_handOut {task : Entry}
    (idle : (s.handOut worker next priority left').Idle [] task) : s.Idle [] task := by
  rcases idle with ⟨p, hp⟩ | hi
  · exact Or.inl ⟨p, mem_of_handOut front hp⟩
  · exact Or.inr hi

theorem live_handOut {task : Entry} :
    (s.handOut worker next priority left').Live [] task ↔ s.Live [] task := by
  constructor
  · rintro (hi | hh)
    · exact Or.inl (idle_of_handOut front hi)
    · rcases List.mem_cons.mp hh with rfl | hh
      · exact Or.inl (Or.inl ⟨priority, front_mem front⟩)
      · exact Or.inr hh
  · rintro ((⟨p, hp⟩ | hi) | hh)
    · rcases handOut_of_mem front hp with rfl | hp
      · exact Or.inr List.mem_cons_self
      · exact Or.inl (Or.inl ⟨p, hp⟩)
    · exact Or.inl (Or.inr hi)
    · exact Or.inr (List.mem_cons_of_mem _ hh)

theorem liveTally_handOut (order : Nat) :
    (s.handOut worker next priority left').liveTally [] order = s.liveTally [] order := by
  have ready := s.backlog.readyTally_take front order
  change Backlog.readyTally (Function.update s.backlog.tasks priority left') order + _ + _ +
    tally (next :: s.held) order = Backlog.readyTally s.backlog.tasks order + _ + _ + _
  rw [tally_cons]
  change _ + tally s.backlog.aside order + _ + _ = _
  omega

theorem Valid.handOut (h : s.Valid []) : (s.handOut worker next priority left').Valid [] := by
  obtain ⟨books, results, links⟩ := h
  refine ⟨?_, ?_, ?_⟩
  · exact { books with
      accounted := by
        intro order
        rw [liveTally_handOut front]
        exact books.accounted order
      unfinished := by
        intro order
        rw [liveTally_handOut front]
        exact books.unfinished order
      recorded := fun task live => books.recorded task ((live_handOut front).mp live)
      taken := by
        intro order
        have was := books.taken order
        change (next.order :: s.taken).count order = tally (next :: s.held) order +
          s.finished.count order
        simp only [List.count_cons, beq_iff_eq, tally_cons]
        omega }
  · exact { results with
      keys := by
        intro id
        simp only [live_handOut front]
        exact results.keys id
      idle := fun task id idle => results.idle task id (idle_of_handOut front idle)
      running := by
        intro hand mem id hr
        rcases List.mem_cons.mp mem with rfl | mem
        · have ready : s.Idle [] next := Or.inl ⟨priority, front_mem front⟩
          exact ⟨fun _ => results.idle next id ready hr, fun returned => by cases returned⟩
        · exact results.running hand mem id hr
      settled := by
        intro id hn hp
        simp only [live_handOut front]
        exact results.settled id hn hp }
  · exact { links with
      started := by
        rintro order (⟨p, task, hp, ho⟩ | ⟨task, hh, rfl⟩ | hf) id ha
        · exact links.started order (Or.inl ⟨p, task, mem_of_handOut front hp, ho⟩) id ha
        · rcases List.mem_cons.mp hh with rfl | hh
          · exact links.started _ (Or.inl ⟨priority, task, front_mem front, rfl⟩) id ha
          · exact links.started _ (Or.inr (Or.inl ⟨task, hh, rfl⟩)) id ha
        · exact links.started order (Or.inr (Or.inr hf)) id ha }

end Taking

theorem Valid.take (h : s.Valid []) (worker : Nat) : (s.take worker).Valid [] := by
  rcases s.backlog.take_cases worker with ⟨next, priority, left, front, eq⟩ | ⟨_, eq⟩
  · have out : s.take worker = s.handOut worker next priority left := by
      simp only [Run.take, Run.handOut, eq]
    rw [out]
    exact h.handOut front
  · have out : s.take worker = s.withBacklog
        { s.backlog with sweeping := s.backlog.sweeping.set worker false } := by
      simp only [Run.take, eq, withBacklog]
    rw [out]
    exact ⟨h.books.move rfl rfl rfl rfl rfl rfl (fun _ => rfl) (fun _ => rfl) (fun _ hl => hl),
      h.results.move rfl rfl rfl rfl rfl rfl rfl (fun _ => Iff.rfl), { h.links with }⟩

theorem Valid.stop (h : s.Valid []) : s.stop.Valid [] := by
  obtain ⟨books, results, links⟩ := h
  unfold Run.stop Shared.stop
  split
  · exact ⟨books, results, links⟩
  · exact ⟨books.move rfl rfl rfl rfl rfl rfl (fun _ => rfl) (fun _ => rfl) (fun _ hl => hl),
      results.move rfl rfl rfl rfl rfl rfl rfl (fun _ => Iff.rfl), { links with }⟩

/-- The run with other results, as another queue or an operation leaves them. -/
def withOperations (s : Run α) (operations : Operations α) : Run α :=
  { s with shared := { s.shared with operations := operations } }

/-- Whether this queue's results are left as they are. -/
structure Elsewhere (s : Run α) (operations : Operations α) : Prop where
  keep : ∀ id, s.operations.queueOf id = s.backlog.number → s.operations.stateOf id ≠ none →
    operations.stateOf id = s.operations.stateOf id ∧
    operations.queueOf id = s.operations.queueOf id
  pending : ∀ id, operations.queueOf id = s.backlog.number →
    operations.stateOf id = some .pending →
    s.operations.queueOf id = s.backlog.number ∧ s.operations.stateOf id = some .pending
  fresh : ∀ id, operations.lastId < id → operations.stateOf id = none

section Elsewhere

variable {operations : Operations α} (others : s.Elsewhere operations)

include others

/-- What this queue knows of a result stays so. -/
theorem Elsewhere.known {id : OperationId}
    (known : s.operations.queueOf id = s.backlog.number ∧ s.operations.stateOf id ≠ none) :
    operations.queueOf id = s.backlog.number ∧ operations.stateOf id ≠ none := by
  have kept := others.keep id known.1 known.2
  exact ⟨kept.2.trans known.1, kept.1 ▸ known.2⟩

theorem Results.owned_kept (results : s.Results limbo) {order : Nat} {id : OperationId}
    (hr : s.resultOf order = some id) : operations.stateOf id = s.operations.stateOf id :=
  (others.keep id (results.owned order id hr).1 (results.owned order id hr).2).1

theorem Results.named_kept (results : s.Results limbo) {order : Nat} {id : OperationId}
    (ha : id ∈ s.afterOf order) : operations.stateOf id = s.operations.stateOf id :=
  (others.keep id (results.named order id ha).1 (results.named order id ha).2).1

theorem Results.elsewhere (results : s.Results limbo) (books : s.Books limbo) :
    (s.withOperations operations).Results limbo where
  keys := results.keys
  keysNodup := results.keysNodup
  owned := fun order id hr => others.known (results.owned order id hr)
  named := fun order id ha => others.known (results.named order id ha)
  fresh := others.fresh
  idle := by
    intro task id hi hr
    change operations.stateOf id = _
    rw [results.owned_kept others ((books.recorded task (Or.inl hi)).trans hr)]
    exact results.idle task id hi hr
  running := by
    intro hand mem id hr
    have live : s.Live limbo hand.entry := Or.inr (List.mem_map_of_mem (f := Hand.entry) mem)
    change (_ → operations.stateOf id = _) ∧ (_ → ∃ value, operations.stateOf id = _)
    rw [results.owned_kept others ((books.recorded _ live).trans hr)]
    exact results.running hand mem id hr
  settled := by
    intro id here pending
    have was := others.pending id here pending
    exact results.settled id was.1 was.2
  cancelled := by
    intro order ho id hr
    change operations.stateOf id = _
    rw [results.owned_kept others hr]
    exact results.cancelled order ho id hr
  finished := by
    intro order ho id hr
    change ∃ value, operations.stateOf id = _
    rw [results.owned_kept others hr]
    exact results.finished order ho id hr

theorem Links.elsewhere (links : s.Links limbo) (results : s.Results limbo) :
    (s.withOperations operations).Links limbo where
  listed := links.listed
  counted := links.counted
  waits := by
    intro w hw id ha
    change (∃ value, operations.stateOf id = _) ∨ _
    rw [results.named_kept others ha]
    exact links.waits w hw id ha
  started := by
    intro order ho id ha
    change ∃ value, operations.stateOf id = _
    rw [results.named_kept others ha]
    exact links.started order ho id ha

/-- Results this queue's tasks and names do not have may come and settle. -/
theorem Valid.elsewhere (h : s.Valid limbo) : (s.withOperations operations).Valid limbo := by
  obtain ⟨books, results, links⟩ := h
  exact ⟨{ books with }, results.elsewhere others books, links.elsewhere others results⟩

end Elsewhere

theorem Valid.elsewhereMakes (h : s.Valid limbo) {queue : Nat}
    (other : queue ≠ s.backlog.number) :
    (s.withOperations (s.operations.make queue).2).Valid limbo := by
  refine Valid.elsewhere ⟨?_, ?_, ?_⟩ h
  · intro id _ made
    have old : id ≠ s.operations.lastId + 1 := by
      rintro rfl
      exact made (h.results.fresh _ (Nat.lt_succ_self _))
    rw [Operations.stateOf_make, Operations.queueOf_make, if_neg old, if_neg old]
    exact ⟨rfl, rfl⟩
  · intro id hn hp
    by_cases new : id = s.operations.lastId + 1
    · rw [Operations.queueOf_make, if_pos new] at hn
      exact absurd hn other
    · rw [Operations.queueOf_make, if_neg new] at hn
      rw [Operations.stateOf_make, if_neg new] at hp
      exact ⟨hn, hp⟩
  · intro id hid
    rw [Operations.make_lastId] at hid
    rw [Operations.stateOf_make, if_neg (Nat.ne_of_gt hid)]
    exact h.results.fresh id (Nat.lt_of_succ_lt hid)

theorem Valid.elsewhereSettles (h : s.Valid limbo) {id : OperationId} {state : ResultState α}
    (other : s.operations.queueOf id ≠ s.backlog.number) :
    (s.withOperations (s.operations.settle id state)).Valid limbo := by
  refine Valid.elsewhere ⟨?_, ?_, ?_⟩ h
  · intro own hn _
    have ne : own ≠ id := by
      rintro rfl
      exact other hn
    rw [Operations.stateOf_settle, if_neg (fun hc => ne hc.1), Operations.queueOf_settle]
    exact ⟨rfl, rfl⟩
  · intro own hn hp
    rw [Operations.queueOf_settle] at hn
    have ne : own ≠ id := by
      rintro rfl
      exact other hn
    rw [Operations.stateOf_settle, if_neg (fun hc => ne hc.1)] at hp
    exact ⟨hn, hp⟩
  · intro own ho
    rw [Operations.settle_lastId] at ho
    have none := h.results.fresh own ho
    have ne : ¬ (own = id ∧ s.operations.isPending id = true) := by
      rintro ⟨rfl, hp⟩
      rw [Operations.isPending_iff, none] at hp
      cases hp
    rw [Operations.stateOf_settle, if_neg ne]
    exact none

section Finishing

variable {hand : Hand} {value : α}

@[simp] theorem finish_backlog : (s.finish hand value).backlog = s.backlog := by
  simp only [Run.finish, Shared.finishResult, Run.backlog]
  cases hand.entry.result <;> rfl

@[simp] theorem finish_queueOf (id : OperationId) :
    (s.finish hand value).operations.queueOf id = s.operations.queueOf id := by
  simp only [Run.finish, Shared.finishResult, Run.operations]
  cases hand.entry.result with
  | none => rfl
  | some own => simp [Operations.finish]

@[simp] theorem finish_lastId :
    (s.finish hand value).operations.lastId = s.operations.lastId := by
  simp only [Run.finish, Shared.finishResult, Run.operations]
  cases hand.entry.result with
  | none => rfl
  | some own => simp [Operations.finish]

theorem finish_idle (task : Entry) : (s.finish hand value).Idle [] task ↔ s.Idle [] task := by
  rw [Idle, finish_backlog]
  rfl

/-- No other hand has the result of the hand. -/
theorem Valid.result_other (h : s.Valid []) (mem : hand ∈ s.hands) {other : Hand}
    (mem' : other ∈ s.hands.erase hand) {id : OperationId} (hr : other.entry.result = some id) :
    hand.entry.result ≠ some id := by
  intro own
  have held : hand.entry ∈ s.held := List.mem_map_of_mem (f := Hand.entry) mem
  have held' : other.entry ∈ s.held :=
    List.mem_map_of_mem (f := Hand.entry) (List.mem_of_mem_erase mem')
  have same := h.result_unique (Or.inr held') (Or.inr held) hr own
  have one := h.books.live_le_one hand.entry.order
  have erased := held_erase mem hand.entry.order
  have more : 0 < tally ((s.hands.erase hand).map Hand.entry) hand.entry.order := by
    rw [← same]
    exact tally_of_mem (List.mem_map_of_mem (f := Hand.entry) mem')
  rw [if_pos rfl] at erased
  unfold liveTally at one
  omega

theorem finish_held (mem : hand ∈ s.hands) : (s.finish hand value).held.Perm s.held :=
  ((List.perm_cons_erase mem).map Hand.entry).symm

theorem finish_live (mem : hand ∈ s.hands) (task : Entry) :
    (s.finish hand value).Live [] task ↔ s.Live [] task := by
  rw [Live, finish_idle, (finish_held mem).mem_iff]
  rfl

variable (h : s.Valid []) (mem : hand ∈ s.hands) (running : hand.returned = false)

include h mem running

/-- A result is settled by the return of its own task. -/
theorem Valid.finish_stateOf (id : OperationId) : (s.finish hand value).operations.stateOf id =
    if hand.entry.result = some id then some (.returned value) else s.operations.stateOf id := by
  simp only [Run.finish, Shared.finishResult, Run.operations]
  cases hr : hand.entry.result with
  | none => simp
  | some own =>
    have pending : s.shared.operations.isPending own = true :=
      (Operations.isPending_iff _ _).mpr ((h.results.running hand mem own hr).1 running)
    simp only [Operations.finish, Operations.stateOf_settle, pending, and_true, Option.some.injEq]
    by_cases same : own = id
    · simp [same]
    · simp [same, Ne.symm same]

theorem Valid.finish_kept {id : OperationId}
    (other : hand.entry.result = some id → s.operations.stateOf id ≠ some .pending) :
    (s.finish hand value).operations.stateOf id = s.operations.stateOf id := by
  rw [h.finish_stateOf mem running, if_neg]
  intro own
  exact other own ((h.results.running hand mem id own).1 running)

theorem Valid.finish_returned {id : OperationId}
    (returned : ∃ v, s.operations.stateOf id = some (.returned v)) :
    ∃ v, (s.finish hand value).operations.stateOf id = some (.returned v) := by
  obtain ⟨v, hv⟩ := returned
  exact ⟨v, (h.finish_kept mem running fun _ => by rw [hv]; nofun).trans hv⟩

theorem Valid.finish_made {id : OperationId} (made : s.operations.stateOf id ≠ none) :
    (s.finish hand value).operations.stateOf id ≠ none := by
  rw [h.finish_stateOf mem running]
  split
  · nofun
  · exact made

theorem Valid.results_finish : (s.finish hand value).Results [] where
  keys := by
    intro id
    rw [finish_backlog, h.results.keys]
    simp only [finish_live mem]
  keysNodup := by
    rw [finish_backlog]
    exact h.results.keysNodup
  owned := by
    intro order id hr
    obtain ⟨here, made⟩ := h.results.owned order id hr
    rw [finish_queueOf, finish_backlog]
    exact ⟨here, h.finish_made mem running made⟩
  named := by
    intro order id hr
    obtain ⟨here, made⟩ := h.results.named order id hr
    rw [finish_queueOf, finish_backlog]
    exact ⟨here, h.finish_made mem running made⟩
  fresh := by
    intro id hid
    rw [finish_lastId] at hid
    have none := h.results.fresh id hid
    exact (h.finish_kept mem running fun _ => by rw [none]; nofun).trans none
  idle := by
    intro task id idle hr
    rw [finish_idle] at idle
    have held : hand.entry ∈ s.held := List.mem_map_of_mem (f := Hand.entry) mem
    rw [h.finish_stateOf mem running, if_neg, h.results.idle task id idle hr]
    intro own
    rw [h.result_unique (Or.inl idle) (Or.inr held) hr own] at idle
    exact h.books.idle_not_held idle held
  running := by
    intro other ho id hr
    rw [h.finish_stateOf mem running]
    rcases List.mem_cons.mp ho with rfl | ho
    · rw [if_pos hr]
      exact ⟨nofun, fun _ => ⟨value, rfl⟩⟩
    · rw [if_neg (h.result_other mem ho hr)]
      exact h.results.running other (List.mem_of_mem_erase ho) id hr
  settled := by
    intro id hn hp
    rw [finish_queueOf, finish_backlog] at hn
    rw [h.finish_stateOf mem running] at hp
    split at hp
    · cases hp
    · obtain ⟨task, live, hr⟩ := h.results.settled id hn hp
      exact ⟨task, (finish_live mem task).mpr live, hr⟩
  cancelled := by
    intro order ho id hr
    have was := h.results.cancelled order ho id hr
    exact (h.finish_kept mem running fun _ => by rw [was]; nofun).trans was
  finished := fun order ho id hr =>
    h.finish_returned mem running (h.results.finished order ho id hr)

theorem Valid.links_finish : (s.finish hand value).Links [] where
  listed := by
    rw [finish_backlog]
    exact h.links.listed
  counted := by
    rw [finish_backlog]
    exact h.links.counted
  waits := by
    rw [finish_backlog]
    exact fun w hw id ha => (h.links.waits w hw id ha).imp_left (h.finish_returned mem running)
  started := by
    rw [finish_backlog]
    intro order place id ha
    refine h.finish_returned mem running (h.links.started order ?_ id ha)
    exact place.imp_right (Or.imp_left fun ⟨task, held, same⟩ =>
      ⟨task, (finish_held mem).mem_iff.mp held, same⟩)

theorem Valid.finish (value : α) : (s.finish hand value).Valid [] := by
  have held : ∀ order, tally (s.finish hand value).held order = tally s.held order :=
    fun order => ((finish_held mem).map Entry.order).count_eq order
  refine ⟨?_, h.results_finish mem running, h.links_finish mem running⟩
  refine h.books.move (by rw [finish_backlog]) (by rw [finish_backlog]) rfl rfl rfl rfl held ?_
    fun task => (finish_live mem task).mp
  intro order
  rw [liveTally, finish_backlog, held]
  rfl

end Finishing

end Run

end Dross
