import Dross.Library.AssocList
import Dross.Thread.Operation
import Mathlib.Data.Finset.Basic

/-!
# The operation queue's backlog

Each operation is one function on what the queue's mutex guards, together with
the results it settles under that mutex. A sweep or a finish item handed to a
worker's loop is part of what the function returns, since the loop belongs to
the worker.
-/

namespace Dross

inductive OperationPriority where
  | low
  | normal
  | high
  deriving DecidableEq, Repr

/-- `priority` is what a cast leaves in it, `after` the handles to run after. -/
structure OperationOptions where
  priority : Int := 1
  after : List OperationId := []

/-- The priority an integer names, none for one `operation_priority` does not: in the source
`names_a_priority` says whether there is one. -/
def priorityOf (priority : Int) : Option OperationPriority :=
  if priority = 0 then some .low
  else if priority = 1 then some .normal
  else if priority = 2 then some .high
  else none

/-- A task in a list; one from `submit` has no result to fill in. -/
structure Entry where
  order : Nat
  result : Option OperationId
  deriving DecidableEq, Repr

structure Waiting where
  task : Entry
  priority : OperationPriority
  remaining : Nat
  deriving DecidableEq, Repr

abbrev Dependents := List (OperationId × List Nat)

/-- `workers` counts the handles the backlog holds, none once it has stopped;
`waiting` is in the order of its keys, which are the orders of its tasks. -/
structure Backlog where
  number : Nat
  tasks : OperationPriority → List Entry
  accepted : Nat
  unfinished : Finset Nat
  dependents : Dependents
  waiting : List Waiting
  workers : Nat
  sweeping : List Bool
  accepting : Bool

namespace Backlog

def make (number workers : Nat) : Backlog where
  number := number
  tasks := fun _ => []
  accepted := 0
  unfinished := ∅
  dependents := []
  waiting := []
  workers := workers
  sweeping := List.replicate workers false
  accepting := true

/-- Marks every worker that has no sweep, and names those handed one. -/
def handSweeps : List Nat → List Bool → List Bool × List Nat
  | [], sweeping => (sweeping, [])
  | i :: rest, sweeping =>
    if sweeping.getD i false then handSweeps rest sweeping
    else
      let handed := handSweeps rest (sweeping.set i true)
      (handed.1, i :: handed.2)

def makeReady (b : Backlog) (task : Entry) (priority : OperationPriority) :
    Backlog × List Nat :=
  let handed := handSweeps (List.range b.workers) b.sweeping
  ({ b with
      tasks := Function.update b.tasks priority (b.tasks priority ++ [task])
      sweeping := handed.1 }, handed.2)

/-- Enters an order with each result in `after` that has not been through `done`,
and counts how often it did. -/
def enterDependents (order : Nat) : List OperationId → Dependents → Nat → Dependents × Nat
  | [], dependents, remaining => (dependents, remaining)
  | before :: after, dependents, remaining =>
    if AssocList.contains dependents before then
      enterDependents order after
        (AssocList.modify dependents before (fun orders => orders ++ [order])) (remaining + 1)
    else enterDependents order after dependents remaining

def queue (b : Backlog) (priority : OperationPriority) (after : List OperationId)
    (result : Option OperationId) : Backlog × List Nat :=
  let order := b.accepted
  let dependents := match result with
    | some id => AssocList.tryEmplace b.dependents id []
    | none => b.dependents
  let entered := enterDependents order after dependents 0
  let accepted : Entry := ⟨order, result⟩
  let queued := { b with
    accepted := b.accepted + 1
    unfinished := insert order b.unfinished
    dependents := entered.1 }
  if 0 < entered.2 then
    ({ queued with waiting := b.waiting ++ [⟨accepted, priority, entered.2⟩] }, [])
  else queued.makeReady accepted priority

/-- The front of the first list of the priorities given that is not empty. -/
def takeFront (tasks : OperationPriority → List Entry) :
    List OperationPriority → Option (Entry × (OperationPriority → List Entry))
  | [] => none
  | priority :: rest =>
    match tasks priority with
    | next :: left => some (next, Function.update tasks priority left)
    | [] => takeFront tasks rest

def take (b : Backlog) (worker : Nat) : Option Entry × Backlog :=
  match takeFront b.tasks [.high, .normal, .low] with
  | some (next, tasks) => (some next, { b with tasks := tasks })
  | none => (none, { b with sweeping := b.sweeping.set worker false })

def takeDependentOrders (b : Backlog) (id : OperationId) : List Nat × Backlog :=
  let node := AssocList.extract b.dependents id
  (node.1.getD [], { b with dependents := node.2 })

def findWaiting (b : Backlog) (order : Nat) : Option Waiting :=
  b.waiting.find? (fun w => w.task.order == order)

def eraseWaiting (b : Backlog) (order : Nat) : Backlog :=
  { b with waiting := b.waiting.filter (fun w => ! w.task.order == order) }

/-- Counts one occurrence of an order off; a task cancelled meanwhile is gone,
and the one it was the last for becomes ready. -/
def countOff (b : Backlog) (order : Nat) : Backlog × List Nat :=
  match b.findWaiting order with
  | none => (b, [])
  | some found =>
    if found.remaining = 1 then (b.eraseWaiting order).makeReady found.task found.priority
    else
      ({ b with waiting := b.waiting.map (fun w =>
          if w.task.order = order then { w with remaining := w.remaining - 1 } else w) }, [])

def countOffAll : List Nat → Backlog → Backlog × List Nat
  | [], b => (b, [])
  | order :: rest, b =>
    let first := b.countOff order
    let left := countOffAll rest first.1
    (left.1, first.2 ++ left.2)

def done (b : Backlog) (finished : Entry) : Backlog × List Nat :=
  let erased := { b with unfinished := b.unfinished.erase finished.order }
  match finished.result with
  | none => (erased, [])
  | some id =>
    let orders := erased.takeDependentOrders id
    countOffAll orders.1 orders.2

/-- The task of a result in the lists of the priorities given, with the lists
it leaves behind. -/
def takeOutReady (tasks : OperationPriority → List Entry) (id : OperationId) :
    List OperationPriority → Option (Entry × (OperationPriority → List Entry))
  | [] => none
  | priority :: rest =>
    match (tasks priority).find? (fun ready => ready.result == some id) with
    | some found => some (found, Function.update tasks priority
        ((tasks priority).eraseP (fun ready => ready.result == some id)))
    | none => takeOutReady tasks id rest

def takeOut (b : Backlog) (id : OperationId) : Option Entry × Backlog :=
  match takeOutReady b.tasks id [.low, .normal, .high] with
  | some (task, tasks) => (some task, { b with tasks := tasks })
  | none =>
    match b.waiting.find? (fun aside => aside.task.result == some id) with
    | none => (none, b)
    | some found => (some found.task, b.eraseWaiting found.task.order)

def takeWaiting : List Nat → Backlog → List Entry × Backlog
  | [], b => ([], b)
  | order :: rest, b =>
    match b.findWaiting order with
    | none => takeWaiting rest b
    | some found =>
      let left := takeWaiting rest (b.eraseWaiting order)
      (found.task :: left.1, left.2)

def takeDependents (b : Backlog) (id : OperationId) : List Entry × Backlog :=
  let orders := b.takeDependentOrders id
  takeWaiting orders.1 orders.2

end Backlog

/-- What an operation reads and writes while it holds the mutex. -/
structure Shared (α : Type) where
  backlog : Backlog
  operations : Operations α

namespace Shared

variable {α : Type}

def allFromHere (s : Shared α) (after : List OperationId) : Bool :=
  after.all (fun before => s.operations.queueOf before == s.backlog.number)

def anyCancelled (s : Shared α) (after : List OperationId) : Bool :=
  after.any s.operations.isCancelled

def submit (s : Shared α) (options : OperationOptions) : Bool × Shared α × List Nat :=
  match priorityOf options.priority with
  | none => (false, s, [])
  | some priority =>
    if ! s.allFromHere options.after then (false, s, [])
    else if ! s.backlog.accepting then (false, s, [])
    else if s.anyCancelled options.after then (true, s, [])
    else
      let queued := s.backlog.queue priority options.after none
      (true, { s with backlog := queued.1 }, queued.2)

def enqueue (s : Shared α) (options : OperationOptions) :
    Except OperationErrc OperationId × Shared α × List Nat :=
  match priorityOf options.priority with
  | none => (.error .invalidPriority, s, [])
  | some priority =>
    if ! s.allFromHere options.after then (.error .foreignDependency, s, [])
    else if ! s.backlog.accepting then (.error .queueStopped, s, [])
    else
      let made := s.operations.make s.backlog.number
      if s.anyCancelled options.after then
        (.ok made.1, { s with operations := made.2.cancel made.1 }, [])
      else
        let queued := s.backlog.queue priority options.after (some made.1)
        (.ok made.1, ⟨queued.1, made.2⟩, queued.2)

/-- The loop over `removed`, which grows as it goes: what is still to be gone
through comes in, and what has been removed comes out. -/
def cancelRemoved : Nat → List Entry → Shared α → List Entry × Shared α
  | 0, _, s => ([], s)
  | _ + 1, [], s => ([], s)
  | fuel + 1, task :: left, s =>
    let erased := { s.backlog with unfinished := s.backlog.unfinished.erase task.order }
    match task.result with
    | none =>
      let rest := cancelRemoved fuel left ⟨erased, s.operations⟩
      (task :: rest.1, rest.2)
    | some id =>
      let after := erased.takeDependents id
      let rest := cancelRemoved fuel (left ++ after.1) ⟨after.2, s.operations.cancel id⟩
      (task :: rest.1, rest.2)

/-- Whether a task was taken off the queue, with every task removed; each turn
of the loop is one task, and those it adds were waiting. -/
def cancel (s : Shared α) (id : OperationId) : Bool × List Entry × Shared α :=
  let found := s.backlog.takeOut id
  match found.1 with
  | none => (false, [], s)
  | some task =>
    (true, cancelRemoved (found.2.waiting.length + 1) [task] ⟨found.2, s.operations⟩)

/-- Stops accepting, and names the workers handed a finish item. -/
def stop (s : Shared α) : Shared α × List Nat :=
  if ! s.backlog.accepting then (s, [])
  else
    ({ s with backlog := { s.backlog with accepting := false, workers := 0 } },
      List.range s.backlog.workers)

/-- What `entry::run` leaves in the result of a task whose call returned. -/
def finishResult (s : Shared α) (task : Entry) (value : α) : Shared α :=
  match task.result with
  | none => s
  | some id => { s with operations := s.operations.finish id value }

end Shared

/-! ## What each operation leaves behind -/

/-- How often an order stands in a list of tasks. -/
def tally (tasks : List Entry) (order : Nat) : Nat := (tasks.map Entry.order).count order

@[simp] theorem tally_nil (order : Nat) : tally [] order = 0 := rfl

@[simp] theorem tally_cons (task : Entry) (tasks : List Entry) (order : Nat) :
    tally (task :: tasks) order = tally tasks order + if task.order = order then 1 else 0 := by
  simp [tally, List.count_cons]

@[simp] theorem tally_append (left right : List Entry) (order : Nat) :
    tally (left ++ right) order = tally left order + tally right order := by
  simp [tally]

theorem tally_pos {tasks : List Entry} {order : Nat} :
    0 < tally tasks order ↔ ∃ task ∈ tasks, task.order = order := by
  simp [tally, List.count_pos_iff]

theorem tally_of_mem {tasks : List Entry} {task : Entry} (h : task ∈ tasks) :
    0 < tally tasks task.order := tally_pos.mpr ⟨task, h, rfl⟩

theorem tally_eraseP {tasks : List Entry} {p : Entry → Bool} {found : Entry}
    (h : tasks.find? p = some found) (order : Nat) :
    tally tasks order = tally (tasks.eraseP p) order + if found.order = order then 1 else 0 := by
  induction tasks with
  | nil => simp at h
  | cons task rest ih =>
    by_cases hp : p task = true
    · have same : task = found := by simpa [List.find?_cons, hp] using h
      subst same
      simp [hp]
    · have later : rest.find? p = some found := by simpa [List.find?_cons, hp] using h
      have tail := ih later
      simp only [tally_cons, List.eraseP_cons, hp, cond_false, tail]
      omega

namespace Backlog

/-- How often an order stands in the ready lists. -/
def readyTally (tasks : OperationPriority → List Entry) (order : Nat) : Nat :=
  tally (tasks .low) order + tally (tasks .normal) order + tally (tasks .high) order

theorem readyTally_pos {tasks : OperationPriority → List Entry} {order : Nat} :
    0 < readyTally tasks order ↔ ∃ priority, ∃ task ∈ tasks priority, task.order = order := by
  constructor
  · intro h
    by_cases low : 0 < tally (tasks .low) order
    · exact ⟨.low, tally_pos.mp low⟩
    by_cases normal : 0 < tally (tasks .normal) order
    · exact ⟨.normal, tally_pos.mp normal⟩
    · refine ⟨.high, tally_pos.mp ?_⟩
      unfold readyTally at h
      omega
  · rintro ⟨priority, mem⟩
    have h := tally_pos.mpr mem
    unfold readyTally
    cases priority <;> omega

theorem readyTally_update (tasks : OperationPriority → List Entry) (priority : OperationPriority)
    (list : List Entry) (order : Nat) :
    readyTally (Function.update tasks priority list) order + tally (tasks priority) order =
      readyTally tasks order + tally list order := by
  unfold readyTally
  cases priority <;> simp [Function.update] <;> omega

variable (b : Backlog)

@[simp] theorem makeReady_tasks (task : Entry) (priority : OperationPriority) :
    (b.makeReady task priority).1.tasks =
      Function.update b.tasks priority (b.tasks priority ++ [task]) := rfl

@[simp] theorem makeReady_waiting (task : Entry) (priority : OperationPriority) :
    (b.makeReady task priority).1.waiting = b.waiting := rfl

@[simp] theorem makeReady_dependents (task : Entry) (priority : OperationPriority) :
    (b.makeReady task priority).1.dependents = b.dependents := rfl

@[simp] theorem makeReady_unfinished (task : Entry) (priority : OperationPriority) :
    (b.makeReady task priority).1.unfinished = b.unfinished := rfl

@[simp] theorem makeReady_accepted (task : Entry) (priority : OperationPriority) :
    (b.makeReady task priority).1.accepted = b.accepted := rfl

@[simp] theorem makeReady_number (task : Entry) (priority : OperationPriority) :
    (b.makeReady task priority).1.number = b.number := rfl

@[simp] theorem makeReady_workers (task : Entry) (priority : OperationPriority) :
    (b.makeReady task priority).1.workers = b.workers := rfl

@[simp] theorem makeReady_accepting (task : Entry) (priority : OperationPriority) :
    (b.makeReady task priority).1.accepting = b.accepting := rfl

theorem readyTally_makeReady (task : Entry) (priority : OperationPriority) (order : Nat) :
    readyTally (b.makeReady task priority).1.tasks order =
      readyTally b.tasks order + if task.order = order then 1 else 0 := by
  have h := readyTally_update b.tasks priority (b.tasks priority ++ [task]) order
  simp only [tally_append, tally_cons, tally_nil] at h
  rw [makeReady_tasks]
  omega

theorem mem_makeReady {task : Entry} {priority : OperationPriority} {e : Entry}
    {p : OperationPriority} :
    e ∈ (b.makeReady task priority).1.tasks p ↔ e ∈ b.tasks p ∨ (p = priority ∧ e = task) := by
  rw [makeReady_tasks]
  by_cases h : p = priority
  · subst h
    simp
  · simp [h]

/-- A taken task was the front of a list, and every list above it was empty. -/
theorem takeFront_some {tasks tasks' : OperationPriority → List Entry}
    {priorities : List OperationPriority} {next : Entry}
    (h : takeFront tasks priorities = some (next, tasks')) :
    ∃ priority ∈ priorities, ∃ left, tasks priority = next :: left ∧
      tasks' = Function.update tasks priority left := by
  induction priorities with
  | nil => simp [takeFront] at h
  | cons priority rest ih =>
    cases list : tasks priority with
    | nil =>
      simp only [takeFront, list] at h
      obtain ⟨p, hp, found⟩ := ih h
      exact ⟨p, List.mem_cons_of_mem _ hp, found⟩
    | cons front left =>
      simp only [takeFront, list, Option.some.injEq, Prod.mk.injEq] at h
      obtain ⟨rfl, rfl⟩ := h
      exact ⟨priority, List.mem_cons_self, left, list, rfl⟩

theorem takeFront_none {tasks : OperationPriority → List Entry}
    {priorities : List OperationPriority} :
    takeFront tasks priorities = none ↔ ∀ priority ∈ priorities, tasks priority = [] := by
  induction priorities with
  | nil => simp [takeFront]
  | cons priority rest ih =>
    cases list : tasks priority with
    | nil => simp [takeFront, list, ih]
    | cons front left => simp [takeFront, list]

/-- Taking either takes the front of one list or finds every list empty. -/
theorem take_cases (worker : Nat) :
    (∃ next priority left, b.tasks priority = next :: left ∧
      b.take worker = (some next, { b with tasks := Function.update b.tasks priority left })) ∨
    ((∀ priority, b.tasks priority = []) ∧
      b.take worker = (none, { b with sweeping := b.sweeping.set worker false })) := by
  unfold take
  cases h : takeFront b.tasks [.high, .normal, .low] with
  | none =>
    refine Or.inr ⟨?_, rfl⟩
    intro priority
    exact takeFront_none.mp h priority (by cases priority <;> simp)
  | some found =>
    obtain ⟨next, tasks⟩ := found
    obtain ⟨priority, _, left, front, rfl⟩ := takeFront_some h
    exact Or.inl ⟨next, priority, left, front, rfl⟩

theorem readyTally_take {next : Entry} {priority : OperationPriority} {left : List Entry}
    (front : b.tasks priority = next :: left) (order : Nat) :
    readyTally b.tasks order = readyTally (Function.update b.tasks priority left) order +
      if next.order = order then 1 else 0 := by
  have h := readyTally_update b.tasks priority left order
  rw [front, tally_cons] at h
  omega

theorem takeOutReady_some {tasks tasks' : OperationPriority → List Entry} {id : OperationId}
    {priorities : List OperationPriority} {task : Entry}
    (h : takeOutReady tasks id priorities = some (task, tasks')) :
    ∃ priority, (tasks priority).find? (fun ready => ready.result == some id) = some task ∧
      tasks' = Function.update tasks priority
        ((tasks priority).eraseP (fun ready => ready.result == some id)) := by
  induction priorities with
  | nil => simp [takeOutReady] at h
  | cons priority rest ih =>
    cases found : (tasks priority).find? (fun ready => ready.result == some id) with
    | none =>
      simp only [takeOutReady, found] at h
      exact ih h
    | some front =>
      simp only [takeOutReady, found, Option.some.injEq, Prod.mk.injEq] at h
      obtain ⟨rfl, rfl⟩ := h
      exact ⟨priority, found, rfl⟩

theorem takeOutReady_none {tasks : OperationPriority → List Entry} {id : OperationId}
    {priorities : List OperationPriority} :
    takeOutReady tasks id priorities = none ↔
      ∀ priority ∈ priorities, ∀ task ∈ tasks priority, task.result ≠ some id := by
  induction priorities with
  | nil => simp [takeOutReady]
  | cons priority rest ih =>
    cases found : (tasks priority).find? (fun ready => ready.result == some id) with
    | none =>
      have missing := List.find?_eq_none.mp found
      simp only [takeOutReady, found, ih, List.mem_cons, forall_eq_or_imp]
      constructor
      · intro h
        exact ⟨fun task mem => by simpa using missing task mem, h⟩
      · exact fun h => h.2
    | some front =>
      have mem := List.mem_of_find?_eq_some found
      have same : front.result = some id := by simpa using List.find?_some found
      simp only [takeOutReady, found, List.mem_cons, forall_eq_or_imp]
      constructor
      · intro h
        cases h
      · intro h
        exact absurd same (h.1 front mem)

theorem takeOutReady_tally {tasks tasks' : OperationPriority → List Entry} {id : OperationId}
    {priorities : List OperationPriority} {task : Entry}
    (h : takeOutReady tasks id priorities = some (task, tasks')) (order : Nat) :
    readyTally tasks order = readyTally tasks' order + if task.order = order then 1 else 0 := by
  obtain ⟨priority, found, rfl⟩ := takeOutReady_some h
  have update := readyTally_update tasks priority
    ((tasks priority).eraseP (fun ready => ready.result == some id)) order
  have erase := tally_eraseP found order
  omega

/-- The occurrences of an order over the lists of every result. -/
def occurrences : Dependents → Nat → Nat
  | [], _ => 0
  | p :: rest, order => p.2.count order + occurrences rest order

@[simp] theorem occurrences_nil (order : Nat) : occurrences [] order = 0 := rfl

@[simp] theorem occurrences_cons (p : OperationId × List Nat) (dependents : Dependents)
    (order : Nat) :
    occurrences (p :: dependents) order = p.2.count order + occurrences dependents order := rfl

@[simp] theorem occurrences_append (left right : Dependents) (order : Nat) :
    occurrences (left ++ right) order = occurrences left order + occurrences right order := by
  induction left with
  | nil => simp
  | cons p rest ih =>
    simp only [List.cons_append, occurrences_cons, ih]
    omega

theorem occurrences_perm {left right : Dependents} (h : left.Perm right) (order : Nat) :
    occurrences left order = occurrences right order := by
  induction h with
  | nil => rfl
  | cons p _ ih => simp only [occurrences_cons, ih]
  | swap p q rest =>
    simp only [occurrences_cons]
    omega
  | trans _ _ first second => exact first.trans second

theorem occurrences_pos {dependents : Dependents} {order : Nat} :
    0 < occurrences dependents order ↔ ∃ id orders, (id, orders) ∈ dependents ∧ order ∈ orders := by
  induction dependents with
  | nil => simp
  | cons p rest ih =>
    obtain ⟨id, orders⟩ := p
    simp only [occurrences_cons, Nat.add_pos_iff_pos_or_pos, ih, List.count_pos_iff, List.mem_cons]
    constructor
    · rintro (mem | ⟨i, l, hl, ho⟩)
      · exact ⟨id, orders, Or.inl rfl, mem⟩
      · exact ⟨i, l, Or.inr hl, ho⟩
    · rintro ⟨i, l, he | hl, ho⟩
      · cases he
        exact Or.inl ho
      · exact Or.inr ⟨i, l, hl, ho⟩

/-- Entering an order appends it to the list of each result named, once for each
time it is named, and counts the names that have a list. -/
theorem enterDependents_eq (order : Nat) (after : List OperationId) (dependents : Dependents)
    (remaining : Nat) :
    enterDependents order after dependents remaining =
      (dependents.map (fun p => (p.1, p.2 ++ List.replicate (after.count p.1) order)),
        remaining + (after.filter (AssocList.contains dependents)).length) := by
  induction after generalizing dependents remaining with
  | nil => simp [enterDependents]
  | cons before after ih =>
    by_cases found : AssocList.contains dependents before = true
    · have same : ∀ id, AssocList.contains
          (AssocList.modify dependents before (fun orders => orders ++ [order])) id =
          AssocList.contains dependents id := by
        intro id
        rw [Bool.eq_iff_iff, AssocList.contains_iff_key, AssocList.contains_iff_key,
          AssocList.modify_keys]
      simp only [enterDependents, found, if_true, ih, Prod.mk.injEq, List.filter_cons,
        List.length_cons, funext same]
      refine ⟨?_, by omega⟩
      simp only [AssocList.modify, List.map_map]
      apply List.map_congr_left
      rintro ⟨id, orders⟩ _
      by_cases hid : id = before
      · simp [hid, List.replicate_succ]
      · simp [hid, Ne.symm hid]
    · simp only [enterDependents, found, Bool.false_eq_true, if_false, ih, Prod.mk.injEq,
        List.filter_cons, and_true]
      apply List.map_congr_left
      rintro ⟨id, orders⟩ mem
      have hid : before ≠ id := by
        rintro rfl
        exact found (AssocList.contains_iff.mpr ⟨orders, mem⟩)
      simp [hid]

theorem findWaiting_some {order : Nat} {found : Waiting} (h : b.findWaiting order = some found) :
    found ∈ b.waiting ∧ found.task.order = order :=
  ⟨List.mem_of_find?_eq_some h, by simpa using List.find?_some h⟩

theorem findWaiting_none {order : Nat} :
    b.findWaiting order = none ↔ ∀ w ∈ b.waiting, w.task.order ≠ order := by
  simp [findWaiting]

theorem mem_eraseWaiting {order : Nat} {w : Waiting} :
    w ∈ (b.eraseWaiting order).waiting ↔ w ∈ b.waiting ∧ w.task.order ≠ order := by
  simp [eraseWaiting]

/-- The tasks set aside. -/
def aside (b : Backlog) : List Entry := b.waiting.map Waiting.task

theorem tally_aside_erase (order other : Nat) :
    tally (b.eraseWaiting order).aside other = if order = other then 0 else tally b.aside other := by
  unfold aside eraseWaiting
  induction b.waiting with
  | nil => simp
  | cons w rest ih =>
    by_cases hw : w.task.order = order
    · by_cases ho : order = other
      · simpa [List.filter_cons, hw, ho] using ih
      · simpa [List.filter_cons, hw, ho] using ih
    · by_cases ho : order = other
      · have : w.task.order ≠ other := fun h => hw (h.trans ho.symm)
        simpa [List.filter_cons, hw, ho, this] using ih
      · simpa [List.filter_cons, hw, ho] using ih

end Backlog

end Dross
