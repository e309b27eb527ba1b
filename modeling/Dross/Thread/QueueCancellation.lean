import Dross.Thread.QueueAdmission
import Mathlib.Data.Finset.SDiff

/-!
# Cancelling a task and those that run after it

`cancel` takes one task off the queue and then goes through a list that grows:
each task in it leaves, with its result, and those set aside under that result
join the list. The list is the limbo of the invariant, so a turn of the loop is
a few moves out of the waiting tasks and one that dismisses a task for good.
-/

namespace Dross

namespace Backlog

theorem takeWaiting_with (orders : List Nat) (b : Backlog) (dependents : Dependents)
    (unfinished : Finset Nat) :
    takeWaiting orders { b with dependents := dependents, unfinished := unfinished } =
      ((takeWaiting orders b).1,
        { (takeWaiting orders b).2 with dependents := dependents, unfinished := unfinished }) := by
  induction orders generalizing b with
  | nil => rfl
  | cons order rest ih =>
    have found : findWaiting { b with dependents := dependents, unfinished := unfinished } order =
        b.findWaiting order := rfl
    cases h : b.findWaiting order with
    | none =>
      rw [h] at found
      simp only [takeWaiting, h, found, ih]
    | some w =>
      rw [h] at found
      have tail := ih (b.eraseWaiting order)
      simp only [takeWaiting, h, found]
      exact congrArg (fun p => (w.task :: p.1, p.2)) tail

/-- What stays aside is what is not among the orders taken. -/
theorem takeWaiting_left (orders : List Nat) (b : Backlog) :
    (takeWaiting orders b).2 =
      { b with waiting := b.waiting.filter (fun w => ! orders.contains w.task.order) } := by
  induction orders generalizing b with
  | nil => simp [takeWaiting]
  | cons order rest ih =>
    cases h : b.findWaiting order with
    | none =>
      have missing := b.findWaiting_none.mp h
      simp only [takeWaiting, h, ih]
      congr 1
      apply List.filter_congr
      intro w hw
      have := missing w hw
      simp [this]
    | some w =>
      simp only [takeWaiting, h, ih, eraseWaiting, List.filter_filter]
      congr 1
      apply List.filter_congr
      intro x _
      by_cases same : x.task.order = order <;> simp [same]

theorem takeWaiting_mem {orders : List Nat} {b : Backlog} {task : Entry}
    (h : task ∈ (takeWaiting orders b).1) : task ∈ b.aside ∧ task.order ∈ orders := by
  induction orders generalizing b with
  | nil => cases h
  | cons order rest ih =>
    cases found : b.findWaiting order with
    | none =>
      simp only [takeWaiting, found] at h
      exact ⟨(ih h).1, List.mem_cons_of_mem _ (ih h).2⟩
    | some w =>
      obtain ⟨mem, same⟩ := b.findWaiting_some found
      simp only [takeWaiting, found] at h
      rcases List.mem_cons.mp h with rfl | h
      · exact ⟨mem_aside.mpr ⟨w, mem, rfl⟩, by rw [same]; exact List.mem_cons_self⟩
      · obtain ⟨ha, ho⟩ := ih h
        obtain ⟨x, hx, rfl⟩ := mem_aside.mp ha
        exact ⟨mem_aside.mpr ⟨x, (b.mem_eraseWaiting.mp hx).1, rfl⟩, List.mem_cons_of_mem _ ho⟩

theorem mem_takeWaiting {orders : List Nat} {b : Backlog} {w : Waiting}
    (unique : ∀ x ∈ b.waiting, ∀ y ∈ b.waiting, x.task.order = y.task.order → x.task = y.task)
    (mem : w ∈ b.waiting) (listed : w.task.order ∈ orders) : w.task ∈ (takeWaiting orders b).1 := by
  induction orders generalizing b with
  | nil => cases listed
  | cons order rest ih =>
    cases found : b.findWaiting order with
    | none =>
      simp only [takeWaiting, found]
      refine ih unique mem ((List.mem_cons.mp listed).resolve_left ?_)
      exact b.findWaiting_none.mp found w mem
    | some x =>
      obtain ⟨hx, same⟩ := b.findWaiting_some found
      simp only [takeWaiting, found]
      by_cases ho : w.task.order = order
      · rw [unique w mem x hx (ho.trans same.symm)]
        exact List.mem_cons_self
      · refine List.mem_cons_of_mem _ (ih ?_ (b.mem_eraseWaiting.mpr ⟨mem, ho⟩)
          ((List.mem_cons.mp listed).resolve_left ho))
        intro x hx y hy
        exact unique x (b.mem_eraseWaiting.mp hx).1 y (b.mem_eraseWaiting.mp hy).1

/-- Each task that leaves the waiting tasks is one task taken. -/
theorem takeWaiting_length (orders : List Nat) (b : Backlog) :
    (takeWaiting orders b).1.length + (takeWaiting orders b).2.waiting.length ≤
      b.waiting.length := by
  induction orders generalizing b with
  | nil => simp [takeWaiting]
  | cons order rest ih =>
    cases found : b.findWaiting order with
    | none =>
      simp only [takeWaiting, found]
      exact ih b
    | some w =>
      obtain ⟨mem, same⟩ := b.findWaiting_some found
      have fewer : (b.eraseWaiting order).waiting.length < b.waiting.length := by
        apply List.length_filter_lt_length_iff_exists.mpr
        exact ⟨w, mem, by simp [same]⟩
      have tail := ih (b.eraseWaiting order)
      simp only [takeWaiting, found, List.length_cons]
      omega

/-- What `take_out` finds: a task in a ready list, or a waiting one. -/
theorem takeOut_cases {b : Backlog} {id : OperationId} {task : Entry}
    (found : (b.takeOut id).1 = some task) : task.result = some id ∧
      ((∃ priority, task ∈ b.tasks priority ∧
          let tasks := Function.update b.tasks priority
            ((b.tasks priority).eraseP (fun ready => ready.result == some id))
          (b.takeOut id).2 = { b with tasks := tasks } ∧
          ∀ order, readyTally b.tasks order =
            readyTally tasks order + if task.order = order then 1 else 0) ∨
        ∃ w ∈ b.waiting, w.task = task ∧ (b.takeOut id).2 = b.eraseWaiting w.task.order) := by
  unfold takeOut at found ⊢
  cases ready : takeOutReady b.tasks id [.low, .normal, .high] with
  | none =>
    simp only [ready] at found ⊢
    cases aside : b.waiting.find? (fun aside => aside.task.result == some id) with
    | none => simp [aside] at found
    | some w =>
      simp only [aside, Option.some.injEq] at found ⊢
      subst found
      have result : w.task.result = some id := by simpa using List.find?_some aside
      exact ⟨result, Or.inr ⟨w, List.mem_of_find?_eq_some aside, rfl, rfl⟩⟩
  | some pair =>
    obtain ⟨next, tasks⟩ := pair
    simp only [ready, Option.some.injEq] at found ⊢
    subst found
    have counts := takeOutReady_tally ready
    obtain ⟨priority, front, rfl⟩ := takeOutReady_some ready
    have result : next.result = some id := by simpa using List.find?_some front
    exact ⟨result, Or.inl ⟨priority, List.mem_of_find?_eq_some front, rfl, counts⟩⟩

end Backlog

namespace Run

variable {α : Type} {s t : Run α} {limbo left : List Entry}

/-! ## Into limbo -/

/-- A waiting task taken out, whatever its counter says. -/
theorem Valid.uncover {w : Waiting} (h : s.Valid limbo) (mem : w ∈ s.backlog.waiting) :
    (s.withBacklog (s.backlog.eraseWaiting w.task.order)).Valid (limbo ++ [w.task]) := by
  obtain ⟨books, results, links⟩ := h
  let b := s.backlog.eraseWaiting w.task.order
  have aside : ∀ e, e ∈ b.aside → e ∈ s.backlog.aside := by
    intro e he
    obtain ⟨x, hx, rfl⟩ := Backlog.mem_aside.mp he
    exact Backlog.mem_aside.mpr ⟨x, (s.backlog.mem_eraseWaiting.mp hx).1, rfl⟩
  have split : ∀ e, e ∈ s.backlog.aside → e ∈ b.aside ∨ e = w.task := by
    intro e he
    obtain ⟨x, hx, rfl⟩ := Backlog.mem_aside.mp he
    by_cases same : x.task.order = w.task.order
    · refine Or.inr (books.live_unique (Or.inl (Or.inr (Or.inl he))) ?_ same)
      exact Or.inl (Or.inr (Or.inl (Backlog.mem_aside.mpr ⟨w, mem, rfl⟩)))
    · exact Or.inl (Backlog.mem_aside.mpr ⟨x, s.backlog.mem_eraseWaiting.mpr ⟨hx, same⟩, rfl⟩)
  have out : w.task ∈ s.backlog.aside := Backlog.mem_aside.mpr ⟨w, mem, rfl⟩
  have idle : ∀ e, (s.withBacklog b).Idle (limbo ++ [w.task]) e ↔ s.Idle limbo e := by
    intro e
    constructor
    · rintro (hp | ha | hl)
      · exact Or.inl hp
      · exact Or.inr (Or.inl (aside e ha))
      · rcases List.mem_append.mp hl with hl | hl
        · exact Or.inr (Or.inr hl)
        · rw [List.mem_singleton.mp hl]
          exact Or.inr (Or.inl out)
    · rintro (hp | ha | hl)
      · exact Or.inl hp
      · rcases split e ha with ha | rfl
        · exact Or.inr (Or.inl ha)
        · exact Or.inr (Or.inr (List.mem_append_right _ List.mem_cons_self))
      · exact Or.inr (Or.inr (List.mem_append_left _ hl))
  refine ⟨books.move rfl rfl rfl rfl rfl rfl (fun _ => rfl) ?_ ?_,
    results.move rfl rfl rfl rfl rfl rfl rfl idle, ?_⟩
  · intro order
    have erased : tally b.aside order = _ := s.backlog.tally_aside_erase w.task.order order
    have one := books.live_le_one w.task.order
    have pos := tally_of_mem out
    change Backlog.readyTally s.backlog.tasks order + tally b.aside order +
      tally (limbo ++ [w.task]) order + tally s.held order = _
    unfold liveTally at one ⊢
    simp only [tally_append, tally_cons, tally_nil]
    by_cases same : w.task.order = order
    · rw [if_pos same] at erased ⊢
      rw [same] at one pos
      omega
    · rw [if_neg same] at erased ⊢
      omega
  · rintro e (hi | hh)
    · exact Or.inl ((idle e).mp hi)
    · exact Or.inr hh
  · exact { links with
      listed := by
        intro id orders hm order ho
        obtain ⟨named, place⟩ := links.listed id orders hm order ho
        refine ⟨named, ?_⟩
        rcases place with ⟨e, ha, rfl⟩ | ⟨e, hl, rfl⟩ | hc
        · rcases split e ha with ha | rfl
          · exact Or.inl ⟨e, ha, rfl⟩
          · exact Or.inr (Or.inl ⟨w.task, by simp, rfl⟩)
        · exact Or.inr (Or.inl ⟨e, List.mem_append_left _ hl, rfl⟩)
        · exact Or.inr (Or.inr hc)
      counted := fun x hx => links.counted x (s.backlog.mem_eraseWaiting.mp hx).1
      waits := fun x hx => links.waits x (s.backlog.mem_eraseWaiting.mp hx).1 }

theorem Valid.takeWaiting (orders : List Nat) (h : s.Valid limbo) :
    (s.withBacklog (s.backlog.takeWaiting orders).2).Valid
      (limbo ++ (s.backlog.takeWaiting orders).1) := by
  induction orders generalizing s limbo with
  | nil => simpa [Backlog.takeWaiting, withBacklog] using h
  | cons order rest ih =>
    cases found : s.backlog.findWaiting order with
    | none =>
      simp only [Backlog.takeWaiting, found]
      exact ih h
    | some w =>
      obtain ⟨mem, same⟩ := s.backlog.findWaiting_some found
      have out := h.uncover mem
      rw [same] at out
      have tail := ih out
      simp only [Backlog.takeWaiting, found]
      rw [List.append_cons]
      exact tail

section TakingOut

variable {id : OperationId} {task : Entry} {priority : OperationPriority}

/-- The ready lists without the first task of a result in one of them. -/
def unready (s : Run α) (priority : OperationPriority) (id : OperationId) :
    OperationPriority → List Entry :=
  Function.update s.backlog.tasks priority
    ((s.backlog.tasks priority).eraseP (fun ready => ready.result == some id))

theorem mem_of_unready {p : OperationPriority} {e : Entry} (mem : e ∈ s.unready priority id p) :
    e ∈ s.backlog.tasks p := by
  unfold unready at mem
  by_cases same : p = priority
  · subst same
    rw [Function.update_self] at mem
    exact List.mem_of_mem_eraseP mem
  · rwa [Function.update_of_ne same] at mem

theorem unready_of_mem {p : OperationPriority} {e : Entry} (mem : e ∈ s.backlog.tasks p)
    (other : e.result ≠ some id) : e ∈ s.unready priority id p := by
  unfold unready
  by_cases same : p = priority
  · subst same
    rw [Function.update_self]
    exact (List.mem_eraseP_of_neg (by simpa using other)).mpr mem
  · rwa [Function.update_of_ne same]

theorem Valid.idle_unready (h : s.Valid []) (mem : task ∈ s.backlog.tasks priority)
    (result : task.result = some id) (e : Entry) :
    (s.withBacklog { s.backlog with tasks := s.unready priority id }).Idle [task] e ↔
      s.Idle [] e := by
  constructor
  · rintro (⟨p, hp⟩ | ha | hl)
    · exact Or.inl ⟨p, mem_of_unready hp⟩
    · exact Or.inr (Or.inl ha)
    · rw [List.mem_singleton.mp hl]
      exact Or.inl ⟨priority, mem⟩
  · rintro (⟨p, hp⟩ | ha | hl)
    · by_cases same : e.result = some id
      · refine Or.inr (Or.inr (List.mem_singleton.mpr ?_))
        exact h.result_unique (Or.inl (Or.inl ⟨p, hp⟩)) (Or.inl (Or.inl ⟨priority, mem⟩)) same
          result
      · exact Or.inl ⟨p, unready_of_mem hp same⟩
    · exact Or.inr (Or.inl ha)
    · cases hl

theorem Valid.takeReady (h : s.Valid []) (mem : task ∈ s.backlog.tasks priority)
    (result : task.result = some id)
    (counts : ∀ order, Backlog.readyTally s.backlog.tasks order =
      Backlog.readyTally (s.unready priority id) order + if task.order = order then 1 else 0) :
    (s.withBacklog { s.backlog with tasks := s.unready priority id }).Valid [task] := by
  have idle := h.idle_unready mem result
  refine ⟨h.books.move rfl rfl rfl rfl rfl rfl (fun _ => rfl) ?_ ?_,
    h.results.move rfl rfl rfl rfl rfl rfl rfl idle, ?_⟩
  · intro order
    have count := counts order
    change Backlog.readyTally (s.unready priority id) order + tally s.backlog.aside order +
      tally [task] order + tally s.held order = _
    simp only [liveTally, tally_cons, tally_nil]
    omega
  · rintro e (hi | hh)
    · exact Or.inl ((idle e).mp hi)
    · exact Or.inr hh
  · exact { h.links with
      listed := by
        intro i orders hm order ho
        obtain ⟨named, place⟩ := h.links.listed i orders hm order ho
        refine ⟨named, ?_⟩
        rcases place with ha | ⟨e, hl, _⟩ | hc
        · exact Or.inl ha
        · cases hl
        · exact Or.inr (Or.inr hc)
      started := by
        rintro order (⟨p, e, hp, he⟩ | place) i ha
        · exact h.links.started order (Or.inl ⟨p, e, mem_of_unready hp, he⟩) i ha
        · exact h.links.started order (Or.inr place) i ha }

/-- The task `take_out` finds is in limbo, and its result is the one named. -/
theorem Valid.takeOut (h : s.Valid []) (found : (s.backlog.takeOut id).1 = some task) :
    (s.withBacklog (s.backlog.takeOut id).2).Valid [task] ∧ task.result = some id ∧
      s.Idle [] task := by
  obtain ⟨result, ⟨priority, mem, out, counts⟩ | ⟨w, mem, rfl, out⟩⟩ := Backlog.takeOut_cases found
  · rw [out]
    exact ⟨h.takeReady mem result counts, result, Or.inl ⟨priority, mem⟩⟩
  · rw [out]
    exact ⟨h.uncover mem, result, Or.inr (Or.inl (Backlog.mem_aside.mpr ⟨w, mem, rfl⟩))⟩

theorem eraseP_eq_filter {tasks : List Entry} {p : Entry → Bool} (nodup : tasks.Nodup)
    (only : ∀ e ∈ tasks, p e = true ↔ e = task) :
    tasks.eraseP p = tasks.filter (fun e => decide (e ≠ task)) := by
  induction tasks with
  | nil => rfl
  | cons e rest ih =>
    rw [List.nodup_cons] at nodup
    have first := only e List.mem_cons_self
    by_cases same : e = task
    · subst same
      rw [List.eraseP_cons_of_pos (first.mpr rfl), List.filter_cons_of_neg (by simp)]
      symm
      apply List.filter_eq_self.mpr
      intro x hx
      have ne : x ≠ e := by
        rintro rfl
        exact nodup.1 hx
      simpa using ne
    · rw [List.eraseP_cons_of_neg (fun hp => same (first.mp hp)),
        List.filter_cons_of_pos (by simpa using same),
        ih nodup.2 (fun x hx => only x (List.mem_cons_of_mem _ hx))]

theorem Books.nodup_ready (h : s.Books limbo) (priority : OperationPriority) :
    (s.backlog.tasks priority).Nodup := by
  apply List.Nodup.of_map Entry.order
  rw [List.nodup_iff_count_le_one]
  intro order
  have one := h.live_le_one order
  unfold liveTally Backlog.readyTally tally at one
  cases priority <;> omega

/-- A task in a ready list is in no other, and not aside. -/
theorem Books.ready_once (h : s.Books limbo) (mem : task ∈ s.backlog.tasks priority) :
    (∀ p, task ∈ s.backlog.tasks p → p = priority) ∧ task ∉ s.backlog.aside := by
  have one := h.live_le_one task.order
  have there := tally_of_mem mem
  unfold liveTally at one
  constructor
  · intro p here
    by_contra other
    have here := tally_of_mem here
    unfold Backlog.readyTally at one
    cases p <;> cases priority <;> first | exact other rfl | omega
  · intro aside
    have aside := tally_of_mem aside
    have ready := Backlog.readyTally_pos.mpr ⟨priority, task, mem, rfl⟩
    omega

/-- Only the task found leaves the lists, and every other keeps its place. -/
theorem Valid.takeOut_frame (h : s.Valid []) (found : (s.backlog.takeOut id).1 = some task) :
    (s.backlog.takeOut id).2 = { s.backlog with
      tasks := fun p => (s.backlog.tasks p).filter (fun e => decide (e ≠ task))
      waiting := s.backlog.waiting.filter (fun w => decide (w.task ≠ task)) } := by
  have without {p : OperationPriority} (none : task ∉ s.backlog.tasks p) :
      (s.backlog.tasks p).filter (fun e => decide (e ≠ task)) = s.backlog.tasks p :=
    List.filter_eq_self.mpr fun e he => decide_eq_true fun same => none (same ▸ he)
  obtain ⟨result, ⟨priority, mem, out, -⟩ | ⟨w, mem, rfl, out⟩⟩ := Backlog.takeOut_cases found
  · obtain ⟨once, aside⟩ := h.books.ready_once mem
    have only : ∀ p, ∀ e ∈ s.backlog.tasks p, (e.result == some id) = true ↔ e = task := by
      intro p e he
      rw [beq_iff_eq]
      constructor
      · intro hr
        exact h.result_unique (Or.inl (Or.inl ⟨p, he⟩)) (Or.inl (Or.inl ⟨priority, mem⟩)) hr result
      · rintro rfl
        exact result
    rw [out]
    congr 1
    · funext p
      by_cases same : p = priority
      · subst same
        rw [Function.update_self]
        exact eraseP_eq_filter (h.books.nodup_ready p) (only p)
      · rw [Function.update_of_ne same, without fun here => same (once p here)]
    · symm
      apply List.filter_eq_self.mpr
      intro w hw
      exact decide_eq_true fun same => aside (Backlog.mem_aside.mpr ⟨w, hw, same⟩)
  · have aside : w.task ∈ s.backlog.aside := Backlog.mem_aside.mpr ⟨w, mem, rfl⟩
    have tasks (p : OperationPriority) :=
      without fun here : w.task ∈ s.backlog.tasks p => (h.books.ready_once here).2 aside
    rw [out]
    simp only [Backlog.eraseWaiting, tasks]
    congr 1
    apply List.filter_congr
    intro x hx
    have same : x.task.order = w.task.order ↔ x.task = w.task := by
      constructor
      · exact h.books.live_unique (Or.inl (Or.inr (Or.inl (Backlog.mem_aside.mpr ⟨x, hx, rfl⟩))))
          (Or.inl (Or.inr (Or.inl aside)))
      · exact congrArg Entry.order
    by_cases eq : x.task = w.task
    · simp [eq]
    · simp [eq, mt same.mp eq]

end TakingOut

theorem takeOut_none {id : OperationId} :
    (s.backlog.takeOut id).1 = none ↔ ∀ task, s.Idle [] task → task.result ≠ some id := by
  have missing := @Backlog.takeOutReady_none s.backlog.tasks id [.low, .normal, .high]
  unfold Backlog.takeOut
  cases ready : Backlog.takeOutReady s.backlog.tasks id [.low, .normal, .high] with
  | some pair =>
    simp only [reduceCtorEq, false_iff]
    intro none
    rw [ready] at missing
    have := missing.mpr fun p _ task mem => none task (Or.inl ⟨p, mem⟩)
    cases this
  | none =>
    have unready := missing.mp ready
    cases aside : s.backlog.waiting.find? (fun aside => aside.task.result == some id) with
    | some w =>
      have mem := List.mem_of_find?_eq_some aside
      have result : w.task.result = some id := by simpa using List.find?_some aside
      simp only [reduceCtorEq, false_iff]
      intro none
      exact none w.task (Or.inr (Or.inl (Backlog.mem_aside.mpr ⟨w, mem, rfl⟩))) result
    | none =>
      have unset := List.find?_eq_none.mp aside
      simp only [true_iff]
      rintro task (⟨p, hp⟩ | ha | hn)
      · exact unready p (by cases p <;> simp) task hp
      · obtain ⟨w, hw, rfl⟩ := Backlog.mem_aside.mp ha
        simpa using unset w hw
      · cases hn

/-! ## Out of limbo -/

/-- The orders listed under a task's result. -/
def dependentOrders (s : Run α) (task : Entry) : List Nat :=
  (task.result.bind (fun id => s.backlog.dependents.lookup id)).getD []

/-- A task leaves for good, and its result with it. -/
def dismiss (s : Run α) (task : Entry) : Run α :=
  { s with
    shared := ⟨{ s.backlog with
        unfinished := s.backlog.unfinished.erase task.order
        dependents := match task.result with
          | some id => AssocList.erase s.backlog.dependents id
          | none => s.backlog.dependents },
      match task.result with
        | some id => s.operations.cancel id
        | none => s.operations⟩
    cancelled := s.cancelled ++ [task.order] }

theorem mem_dismiss_dependents {task : Entry} {p : OperationId × List Nat} :
    p ∈ (s.dismiss task).backlog.dependents ↔
      p ∈ s.backlog.dependents ∧ task.result ≠ some p.1 := by
  unfold dismiss backlog
  cases task.result with
  | none => simp
  | some id => simp [AssocList.mem_erase, eq_comm]

theorem dismiss_keysNodup (task : Entry) (h : (s.backlog.dependents.map Prod.fst).Nodup) :
    ((s.dismiss task).backlog.dependents.map Prod.fst).Nodup := by
  unfold dismiss backlog
  cases task.result with
  | none => exact h
  | some id => exact AssocList.erase_keys_nodup id h

theorem dismiss_queueOf (task : Entry) (id : OperationId) :
    (s.dismiss task).operations.queueOf id = s.operations.queueOf id := by
  unfold dismiss operations
  cases task.result with
  | none => rfl
  | some own => simp [Operations.cancel]

theorem dismiss_lastId (task : Entry) :
    (s.dismiss task).operations.lastId = s.operations.lastId := by
  unfold dismiss operations
  cases task.result with
  | none => rfl
  | some own => simp [Operations.cancel]

/-- The result of a task that is dismissed was pending, so it is cancelled now. -/
theorem dismiss_stateOf {task : Entry}
    (pending : ∀ id, task.result = some id → s.operations.stateOf id = some .pending)
    (id : OperationId) : (s.dismiss task).operations.stateOf id =
      if task.result = some id then some .cancelled else s.operations.stateOf id := by
  change (match task.result with
    | some id => s.operations.cancel id
    | none => s.operations).stateOf id = _
  cases hr : task.result with
  | none => simp
  | some own =>
    have hp : s.operations.isPending own = true :=
      (Operations.isPending_iff _ _).mpr (pending own hr)
    simp only [Operations.cancel, Operations.stateOf_settle, hp, and_true, Option.some.injEq]
    by_cases same : own = id
    · simp [same]
    · simp [same, Ne.symm same]

section Dismissing

variable {task : Entry}

theorem idle_of_dismiss {e : Entry} (idle : (s.dismiss task).Idle left e) :
    s.Idle (task :: left) e :=
  idle.imp_right (Or.imp_right (List.mem_cons_of_mem _))

theorem live_of_dismiss {e : Entry} (live : (s.dismiss task).Live left e) :
    s.Live (task :: left) e :=
  live.imp idle_of_dismiss id

theorem live_dismiss {e : Entry} (live : s.Live (task :: left) e) (other : e ≠ task) :
    (s.dismiss task).Live left e := by
  rcases live with (ready | aside | between) | held
  · exact Or.inl (Or.inl ready)
  · exact Or.inl (Or.inr (Or.inl aside))
  · rcases List.mem_cons.mp between with same | between
    · exact absurd same other
    · exact Or.inl (Or.inr (Or.inr between))
  · exact Or.inr held

theorem liveTally_dismiss (order : Nat) : s.liveTally (task :: left) order =
    (s.dismiss task).liveTally left order + if task.order = order then 1 else 0 := by
  change _ = Backlog.readyTally s.backlog.tasks order + tally s.backlog.aside order +
    tally left order + tally s.held order + _
  simp only [liveTally, tally_cons]
  omega

theorem Books.dismiss (h : s.Books (task :: left)) : (s.dismiss task).Books left where
  accounted := by
    intro order
    have was := h.accounted order
    have sum := @liveTally_dismiss _ s left task order
    change _ + s.finished.count order + (s.cancelled ++ [task.order]).count order =
      if order < s.backlog.accepted then 1 else 0
    rw [List.count_append, List.count_singleton]
    simp only [beq_iff_eq]
    omega
  unfinished := by
    intro order
    have one := h.live_le_one order
    have sum := @liveTally_dismiss _ s left task order
    change order ∈ s.backlog.unfinished.erase task.order ↔ _
    rw [Finset.mem_erase, h.unfinished order]
    by_cases same : task.order = order
    · rw [if_pos same] at sum
      omega
    · rw [if_neg same] at sum
      constructor
      · omega
      · intro pos
        exact ⟨Ne.symm same, by omega⟩
  logged := h.logged
  recorded := fun e live => h.recorded e (live_of_dismiss live)
  distinct := h.distinct
  earlier := h.earlier
  taken := h.taken

theorem between_idle : s.Idle (task :: left) task := Or.inr (Or.inr List.mem_cons_self)

variable (h : s.Valid (task :: left))

include h

theorem Valid.between_pending {id : OperationId} (hr : task.result = some id) :
    s.operations.stateOf id = some .pending :=
  h.results.idle task id between_idle hr

theorem Valid.dismissed_gone : ¬ (s.dismiss task).Live left task := by
  intro live
  have pos := liveTally_pos.mpr ⟨task, live, rfl⟩
  have one := h.books.live_le_one task.order
  have sum := @liveTally_dismiss _ s left task task.order
  rw [if_pos rfl] at sum
  omega

/-- The result that is cancelled is that of no task left. -/
theorem Valid.dismiss_other {e : Entry} {id : OperationId} (live : (s.dismiss task).Live left e)
    (hr : e.result = some id) : task.result ≠ some id := by
  intro own
  rw [h.result_unique (live_of_dismiss live) (Or.inl between_idle) hr own] at live
  exact h.dismissed_gone live

theorem Valid.dismiss_kept {id : OperationId} (settled : s.operations.stateOf id ≠ some .pending) :
    (s.dismiss task).operations.stateOf id = s.operations.stateOf id := by
  rw [dismiss_stateOf fun _ => h.between_pending, if_neg]
  exact fun hr => settled (h.between_pending hr)

theorem Valid.dismiss_returned {id : OperationId}
    (returned : ∃ v, s.operations.stateOf id = some (.returned v)) :
    ∃ v, (s.dismiss task).operations.stateOf id = some (.returned v) := by
  obtain ⟨v, hv⟩ := returned
  exact ⟨v, (h.dismiss_kept (by rw [hv]; nofun)).trans hv⟩

theorem Valid.dismiss_made {id : OperationId} (made : s.operations.stateOf id ≠ none) :
    (s.dismiss task).operations.stateOf id ≠ none := by
  rw [dismiss_stateOf fun _ => h.between_pending]
  split
  · nofun
  · exact made

theorem Valid.results_dismiss : (s.dismiss task).Results left where
  keys := by
    intro id
    have was := h.results.keys id
    rw [AssocList.contains_iff] at was ⊢
    simp only [mem_dismiss_dependents]
    constructor
    · rintro ⟨orders, hm, other⟩
      obtain ⟨e, live, hr⟩ := was.mp ⟨orders, hm⟩
      refine ⟨e, live_dismiss live ?_, hr⟩
      rintro rfl
      exact other hr
    · rintro ⟨e, live, hr⟩
      obtain ⟨orders, hm⟩ := was.mpr ⟨e, live_of_dismiss live, hr⟩
      exact ⟨orders, hm, h.dismiss_other live hr⟩
  keysNodup := dismiss_keysNodup task h.results.keysNodup
  owned := by
    intro order id hr
    obtain ⟨here, made⟩ := h.results.owned order id hr
    rw [dismiss_queueOf]
    exact ⟨here, h.dismiss_made made⟩
  named := by
    intro order id ha
    obtain ⟨here, made⟩ := h.results.named order id ha
    rw [dismiss_queueOf]
    exact ⟨here, h.dismiss_made made⟩
  fresh := by
    intro id hid
    rw [dismiss_lastId] at hid
    have none := h.results.fresh id hid
    exact (h.dismiss_kept (by rw [none]; nofun)).trans none
  idle := by
    intro e id idle hr
    rw [dismiss_stateOf fun _ => h.between_pending, if_neg (h.dismiss_other (Or.inl idle) hr)]
    exact h.results.idle e id (idle_of_dismiss idle) hr
  running := by
    intro hand hm id hr
    have live : (s.dismiss task).Live left hand.entry :=
      Or.inr (List.mem_map_of_mem (f := Hand.entry) hm)
    rw [dismiss_stateOf fun _ => h.between_pending, if_neg (h.dismiss_other live hr)]
    exact h.results.running hand hm id hr
  settled := by
    intro id hq hp
    rw [dismiss_queueOf] at hq
    rw [dismiss_stateOf fun _ => h.between_pending] at hp
    split at hp
    · cases hp
    · rename_i other
      obtain ⟨e, live, hr⟩ := h.results.settled id hq hp
      refine ⟨e, live_dismiss live ?_, hr⟩
      rintro rfl
      exact other hr
  cancelled := by
    intro order ho id hr
    rw [dismiss_stateOf fun _ => h.between_pending]
    split
    · rfl
    · rename_i other
      rcases List.mem_append.mp ho with ho | ho
      · exact h.results.cancelled order ho id hr
      · rw [List.mem_singleton.mp ho] at hr
        exact absurd ((h.books.recorded task (Or.inl between_idle)).symm.trans hr) other
  finished := fun order ho id hr => h.dismiss_returned (h.results.finished order ho id hr)

variable (clear : ∀ w ∈ s.backlog.waiting, w.task.order ∉ s.dependentOrders task)

include clear

theorem Valid.unlisted_of_clear {id : OperationId} {orders : List Nat}
    (own : task.result = some id) (mem : (id, orders) ∈ s.backlog.dependents) {w : Waiting}
    (hw : w ∈ s.backlog.waiting) : w.task.order ∉ orders := by
  have found := AssocList.lookup_some_of_mem h.results.keysNodup mem
  simpa [dependentOrders, own, found] using clear w hw

/-- The list that goes names no waiting task, so no counter is off. -/
theorem Valid.occurrences_dismiss {w : Waiting} (hw : w ∈ s.backlog.waiting) :
    Backlog.occurrences (s.dismiss task).backlog.dependents w.task.order =
      Backlog.occurrences s.backlog.dependents w.task.order := by
  change Backlog.occurrences (match task.result with
    | some id => AssocList.erase s.backlog.dependents id
    | none => s.backlog.dependents) _ = _
  cases hr : task.result with
  | none => rfl
  | some id =>
    cases found : s.backlog.dependents.lookup id with
    | none =>
      dsimp only
      rw [AssocList.erase_of_missing (AssocList.lookup_eq_none_iff.mp found)]
    | some orders =>
      have hm := AssocList.mem_of_lookup_some found
      have perm := AssocList.lookup_some_perm h.results.keysNodup found
      dsimp only
      rw [← Backlog.occurrences_perm perm, Backlog.occurrences_cons,
        List.count_eq_zero.mpr (h.unlisted_of_clear clear hr hm hw), Nat.zero_add]

theorem Valid.links_dismiss : (s.dismiss task).Links left where
  listed := by
    intro id orders hm order ho
    obtain ⟨hm, -⟩ := mem_dismiss_dependents.mp hm
    obtain ⟨named, place⟩ := h.links.listed id orders hm order ho
    refine ⟨named, ?_⟩
    rcases place with ha | ⟨e, hl, rfl⟩ | hc
    · exact Or.inl ha
    · rcases List.mem_cons.mp hl with rfl | hl
      · exact Or.inr (Or.inr (List.mem_append_right _ List.mem_cons_self))
      · exact Or.inr (Or.inl ⟨e, hl, rfl⟩)
    · exact Or.inr (Or.inr (List.mem_append_left _ hc))
  counted := by
    intro w hw
    rw [h.occurrences_dismiss clear hw]
    exact h.links.counted w hw
  waits := by
    intro w hw id ha
    rcases h.links.waits w hw id ha with hv | ⟨orders, hm, hl⟩
    · exact Or.inl (h.dismiss_returned hv)
    · refine Or.inr ⟨orders, mem_dismiss_dependents.mpr ⟨hm, ?_⟩, hl⟩
      intro own
      exact h.unlisted_of_clear clear own hm hw hl
  started := fun order place id ha => h.dismiss_returned (h.links.started order place id ha)

theorem Valid.dismiss : (s.dismiss task).Valid left :=
  ⟨h.books.dismiss, h.results_dismiss, h.links_dismiss clear⟩

end Dismissing

/-! ## The loop -/

/-- One turn of the loop: what waits for the task joins the list, and it goes. -/
theorem cancelRemoved_turn (s : Run α) (fuel : Nat) (task : Entry) (left : List Entry) :
    let after := s.backlog.takeWaiting (s.dependentOrders task)
    let rest := Shared.cancelRemoved fuel (left ++ after.1)
      ((s.withBacklog after.2).dismiss task).shared
    Shared.cancelRemoved (fuel + 1) (task :: left) s.shared = (task :: rest.1, rest.2) := by
  dsimp only
  unfold dependentOrders dismiss
  cases hr : task.result with
  | none => simp [Shared.cancelRemoved, hr, Backlog.takeWaiting, withBacklog]
  | some id =>
    simp only [Shared.cancelRemoved, hr, Backlog.takeDependents, Backlog.takeDependentOrders,
      AssocList.extract, Option.bind_some]
    rw [Backlog.takeWaiting_with, Backlog.takeWaiting_left]
    rfl

/-- A task that names the result of another runs after it. -/
def RunsAfter (s : Run α) (before order : Nat) : Prop :=
  ∃ id ∈ s.afterOf order, s.resultOf before = some id

/-- What the loop makes of a run in which `left` was in limbo. -/
structure Removal (s : Run α) (left removed : List Entry) (t : Run α) : Prop where
  valid : t.Valid []
  covers : ∀ task ∈ left, task ∈ removed
  idle : ∀ task ∈ removed, s.Idle left task
  follows : ∀ task ∈ removed, ∃ first ∈ left,
    Relation.ReflTransGen s.RunsAfter first.order task.order
  backlog : t.backlog = { s.backlog with
    waiting := s.backlog.waiting.filter (fun w => decide (w.task ∉ removed))
    unfinished := s.backlog.unfinished.filter (fun order => order ∉ removed.map Entry.order)
    dependents := s.backlog.dependents.filter
      (fun p => decide (some p.1 ∉ removed.map Entry.result)) }
  states : ∀ id, t.operations.stateOf id =
    if some id ∈ removed.map Entry.result then some .cancelled else s.operations.stateOf id

theorem Valid.removal_nil (h : s.Valid []) :
    s.Removal [] [] { s with cancelled := s.cancelled ++ [] } := by
  have same : { s with cancelled := s.cancelled ++ [] } = s := by simp
  rw [same]
  refine ⟨h, by simp, by simp, by simp, ?_, by simp⟩
  simp

theorem dismiss_dependents (task : Entry) : (s.dismiss task).backlog.dependents =
    s.backlog.dependents.filter (fun p => decide (task.result ≠ some p.1)) := by
  change (match task.result with
    | some id => AssocList.erase s.backlog.dependents id
    | none => s.backlog.dependents) = _
  cases task.result with
  | none => simp
  | some id =>
    apply List.filter_congr
    intro p _
    by_cases same : id = p.1
    · simp [same]
    · simp [same, Ne.symm same]

section Removing

variable {task : Entry}

/-- A listed order names the result of the task. -/
theorem Valid.runsAfter_of_listed (h : s.Valid (task :: left)) {order : Nat}
    (listed : order ∈ s.dependentOrders task) : s.RunsAfter task.order order := by
  unfold dependentOrders at listed
  cases hr : task.result with
  | none => simp [hr] at listed
  | some id =>
    cases found : s.backlog.dependents.lookup id with
    | none => simp [hr, found] at listed
    | some list =>
      have mem : order ∈ list := by simpa [hr, found] using listed
      obtain ⟨named, -⟩ := h.links.listed id list (AssocList.mem_of_lookup_some found) _ mem
      exact ⟨id, named, (h.books.recorded task (Or.inl between_idle)).trans hr⟩

theorem waiting_idle {w : Waiting} (mem : w ∈ s.backlog.waiting) : s.Idle limbo w.task :=
  Or.inr (Or.inl (Backlog.mem_aside.mpr ⟨w, mem, rfl⟩))

variable {removed : List Entry} (h : s.Valid (task :: left))
  (rest : ((s.withBacklog (s.backlog.takeWaiting (s.dependentOrders task)).2).dismiss
    task).Removal (left ++ (s.backlog.takeWaiting (s.dependentOrders task)).1) removed t)

include h rest

/-- The waiting tasks that are listed are all removed. -/
theorem Valid.removal_complete {w : Waiting} (mem : w ∈ s.backlog.waiting)
    (listed : w.task.order ∈ s.dependentOrders task) : w.task ∈ removed := by
  refine rest.covers _ (List.mem_append_right _ (Backlog.mem_takeWaiting ?_ mem listed))
  intro x hx y hy
  exact h.books.live_unique (Or.inl (waiting_idle hx)) (Or.inl (waiting_idle hy))

omit h in
theorem removal_idle {e : Entry} (mem : e ∈ removed) : s.Idle (task :: left) e := by
  have out := Backlog.takeWaiting_left (s.dependentOrders task) s.backlog
  rcases rest.idle e mem with ⟨p, hp⟩ | ha | hl
  · change e ∈ (s.backlog.takeWaiting (s.dependentOrders task)).2.tasks p at hp
    rw [out] at hp
    exact Or.inl ⟨p, hp⟩
  · change e ∈ (s.backlog.takeWaiting (s.dependentOrders task)).2.aside at ha
    obtain ⟨w, hw, rfl⟩ := Backlog.mem_aside.mp ha
    rw [out] at hw
    exact waiting_idle (List.mem_filter.mp hw).1
  · rcases List.mem_append.mp hl with hl | hl
    · exact Or.inr (Or.inr (List.mem_cons_of_mem _ hl))
    · exact Or.inr (Or.inl (Backlog.takeWaiting_mem hl).1)

theorem Valid.removal_follows {e : Entry} (mem : e ∈ removed) : ∃ first ∈ task :: left,
    Relation.ReflTransGen s.RunsAfter first.order e.order := by
  obtain ⟨first, hf, chain⟩ := rest.follows e mem
  rcases List.mem_append.mp hf with hf | hf
  · exact ⟨first, List.mem_cons_of_mem _ hf, chain⟩
  · exact ⟨task, List.mem_cons_self,
      chain.head (h.runsAfter_of_listed (Backlog.takeWaiting_mem hf).2)⟩

theorem Valid.removal_backlog : t.backlog = { s.backlog with
    waiting := s.backlog.waiting.filter (fun w => decide (w.task ∉ task :: removed))
    unfinished := s.backlog.unfinished.filter
      (fun order => order ∉ (task :: removed).map Entry.order)
    dependents := s.backlog.dependents.filter
      (fun p => decide (some p.1 ∉ (task :: removed).map Entry.result)) } := by
  let b := (s.backlog.takeWaiting (s.dependentOrders task)).2
  have out : b = { s.backlog with
      waiting := s.backlog.waiting.filter
        (fun w => ! (s.dependentOrders task).contains w.task.order) } :=
    Backlog.takeWaiting_left (s.dependentOrders task) s.backlog
  have dependents := dismiss_dependents (s := s.withBacklog b) task
  rw [rest.backlog, dependents]
  change ({ b with
    waiting := b.waiting.filter (fun w => decide (w.task ∉ removed))
    unfinished := (b.unfinished.erase task.order).filter
      (fun order => order ∉ removed.map Entry.order)
    dependents := (b.dependents.filter (fun p => decide (task.result ≠ some p.1))).filter
      (fun p => decide (some p.1 ∉ removed.map Entry.result)) } : Backlog) = _
  rw [out]
  congr 1
  · ext order
    simp only [Finset.mem_filter, Finset.mem_erase, List.map_cons, List.mem_cons]
    tauto
  · rw [List.filter_filter]
    apply List.filter_congr
    intro p _
    rw [Bool.eq_iff_iff]
    simp only [Bool.and_eq_true, decide_eq_true_eq, List.map_cons, List.mem_cons, not_or, ne_eq,
      eq_comm (a := some p.1)]
    tauto
  · rw [List.filter_filter]
    apply List.filter_congr
    intro w hw
    have apart : w.task ≠ task := fun same =>
      h.books.aside_ne hw (congrArg Entry.order same).symm
    have listed := h.removal_complete rest hw
    rw [Bool.eq_iff_iff]
    simp only [Bool.and_eq_true, decide_eq_true_eq, List.mem_cons, not_or, Bool.not_eq_true',
      List.contains_eq_mem, decide_eq_false_iff_not]
    tauto

theorem Valid.removal_cons : s.Removal (task :: left) (task :: removed) t where
  valid := rest.valid
  covers := by
    intro e he
    rcases List.mem_cons.mp he with rfl | he
    · exact List.mem_cons_self
    · exact List.mem_cons_of_mem _ (rest.covers e (List.mem_append_left _ he))
  idle := by
    intro e he
    rcases List.mem_cons.mp he with rfl | he
    · exact between_idle
    · exact removal_idle rest he
  follows := by
    intro e he
    rcases List.mem_cons.mp he with rfl | he
    · exact ⟨e, List.mem_cons_self, .refl⟩
    · exact h.removal_follows rest he
  backlog := h.removal_backlog rest
  states := by
    intro id
    have pending : ∀ id, task.result = some id →
        (s.withBacklog (s.backlog.takeWaiting (s.dependentOrders task)).2).operations.stateOf id =
          some .pending :=
      fun _ => h.between_pending
    rw [rest.states, dismiss_stateOf pending]
    simp only [List.map_cons, List.mem_cons, withBacklog_operations]
    by_cases later : some id ∈ removed.map Entry.result
    · simp [later]
    · simp only [later, if_false, or_false, eq_comm]

end Removing

theorem Valid.cancelRemoved (fuel : Nat) (h : s.Valid left)
    (enough : s.backlog.waiting.length + left.length ≤ fuel) :
    s.Removal left (Shared.cancelRemoved fuel left s.shared).1
      { s with
        shared := (Shared.cancelRemoved fuel left s.shared).2
        cancelled := s.cancelled ++
          (Shared.cancelRemoved fuel left s.shared).1.map Entry.order } := by
  induction fuel generalizing s left with
  | zero =>
    have empty : left = [] := List.length_eq_zero_iff.mp (by omega)
    subst empty
    exact h.removal_nil
  | succ fuel ih =>
    cases left with
    | nil => exact h.removal_nil
    | cons task left =>
      rw [cancelRemoved_turn]
      let orders := s.dependentOrders task
      let after := s.backlog.takeWaiting orders
      have out := Backlog.takeWaiting_left orders s.backlog
      have next : ((s.withBacklog after.2).dismiss task).Valid (left ++ after.1) := by
        apply (h.takeWaiting orders).dismiss
        intro w hw
        have same : (s.withBacklog (s.backlog.takeWaiting orders).2).dependentOrders task =
            orders := by
          rw [out]
          rfl
        rw [same]
        rw [withBacklog_backlog, out] at hw
        simpa using (List.mem_filter.mp hw).2
      have length : after.1.length + after.2.waiting.length ≤ s.backlog.waiting.length :=
        Backlog.takeWaiting_length orders s.backlog
      have rest := ih next (by
        rw [List.length_append]
        rw [List.length_cons] at enough
        change after.2.waiting.length + _ ≤ fuel
        omega)
      rw [List.map_cons, List.append_cons]
      exact h.removal_cons rest

end Run

end Dross
