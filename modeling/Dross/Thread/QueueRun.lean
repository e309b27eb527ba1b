import Dross.Library.Transition
import Dross.Thread.OperationQueue

/-!
# Runs of an operation queue

Every operation holds the mutex, so a run is any interleaving of them. A hand is
a task a worker has taken and not yet put through `done`; it has returned once
`entry::run` has. The log, and the lists of finished, cancelled and taken
orders, only remember what has happened.
-/

namespace Dross

structure Hand where
  worker : Nat
  entry : Entry
  returned : Bool
  deriving DecidableEq, Repr

/-- What an order was accepted with. -/
structure Submission where
  result : Option OperationId
  after : List OperationId
  deriving DecidableEq, Repr

structure Run (α : Type) where
  shared : Shared α
  hands : List Hand
  log : List Submission
  finished : List Nat
  cancelled : List Nat
  taken : List Nat

namespace Run

variable {α : Type}

abbrev backlog (s : Run α) : Backlog := s.shared.backlog

abbrev operations (s : Run α) : Operations α := s.shared.operations

def initial (number workers : Nat) (operations : Operations α) : Run α :=
  ⟨⟨.make number workers, operations⟩, [], [], [], [], []⟩

/-- Logs a submission when it was given an order. -/
def record (s : Run α) (shared : Shared α) (submission : Submission) : Run α :=
  { s with
    shared := shared
    log := if s.backlog.accepted < shared.backlog.accepted then s.log ++ [submission] else s.log }

def submit (s : Run α) (options : OperationOptions) : Run α :=
  s.record (s.shared.submit options).2.1 ⟨none, options.after⟩

def enqueue (s : Run α) (options : OperationOptions) : Run α :=
  let accepted := s.shared.enqueue options
  s.record accepted.2.1 ⟨accepted.1.toOption, options.after⟩

def cancel (s : Run α) (id : OperationId) : Run α :=
  let removed := s.shared.cancel id
  { s with
    shared := removed.2.2
    cancelled := s.cancelled ++ removed.2.1.map Entry.order }

def stop (s : Run α) : Run α := { s with shared := s.shared.stop.1 }

def take (s : Run α) (worker : Nat) : Run α :=
  let next := s.backlog.take worker
  match next.1 with
  | none => { s with shared := { s.shared with backlog := next.2 } }
  | some task =>
    { s with
      shared := { s.shared with backlog := next.2 }
      hands := ⟨worker, task, false⟩ :: s.hands
      taken := task.order :: s.taken }

def finish (s : Run α) (hand : Hand) (value : α) : Run α :=
  { s with
    shared := s.shared.finishResult hand.entry value
    hands := { hand with returned := true } :: s.hands.erase hand }

def done (s : Run α) (hand : Hand) : Run α :=
  { s with
    shared := { s.shared with backlog := (s.backlog.done hand.entry).1 }
    hands := s.hands.erase hand
    finished := hand.entry.order :: s.finished }

/-- One operation of some thread. A handle always names a result that was made,
and another queue makes and settles results of its own at any time. -/
inductive Step (s : Run α) : Run α → Prop
  | submit (options : OperationOptions)
      (made : ∀ id ∈ options.after, s.operations.stateOf id ≠ none) : Step s (s.submit options)
  | enqueue (options : OperationOptions)
      (made : ∀ id ∈ options.after, s.operations.stateOf id ≠ none) : Step s (s.enqueue options)
  | cancel (id : OperationId) : Step s (s.cancel id)
  | stop : Step s s.stop
  | take (worker : Nat) : Step s (s.take worker)
  | finish (hand : Hand) (value : α) (held : hand ∈ s.hands) (running : hand.returned = false) :
      Step s (s.finish hand value)
  | done (hand : Hand) (held : hand ∈ s.hands) (ran : hand.returned = true) : Step s (s.done hand)
  | elsewhereMakes (queue : Nat) (other : queue ≠ s.backlog.number) :
      Step s { s with shared := { s.shared with operations := (s.operations.make queue).2 } }
  | elsewhereSettles (id : OperationId) (state : ResultState α)
      (other : s.operations.queueOf id ≠ s.backlog.number) :
      Step s { s with shared := { s.shared with operations := s.operations.settle id state } }

/-- A queue as made: results of other queues may be there already, and its
number is one that no result carries. -/
def Starts (s : Run α) : Prop :=
  ∃ number workers operations, s = initial number workers operations ∧
    (∀ id, operations.lastId < id → operations.stateOf id = none) ∧
    ∀ id, operations.stateOf id ≠ none → operations.queueOf id ≠ number

def Reachable : Run α → Prop := Transition.Reachable Starts Step

/-- A queue before which nothing was made. -/
theorem initial_starts (number workers : Nat) :
    (initial number workers (Operations.initial : Operations α)).Starts :=
  ⟨number, workers, Operations.initial, rfl, fun _ _ => rfl, fun _ made => absurd rfl made⟩

/-! ## The invariant -/

def held (s : Run α) : List Entry := s.hands.map Hand.entry

def resultOf (s : Run α) (order : Nat) : Option OperationId :=
  (s.log[order]?).bind Submission.result

def afterOf (s : Run α) (order : Nat) : List OperationId :=
  ((s.log[order]?).map Submission.after).getD []

/-- A task in a ready list, set aside, or on its way between them: `limbo` holds
what an operation has taken out of one list and not yet put anywhere. -/
def Idle (s : Run α) (limbo : List Entry) (task : Entry) : Prop :=
  (∃ priority, task ∈ s.backlog.tasks priority) ∨ task ∈ s.backlog.aside ∨ task ∈ limbo

def Live (s : Run α) (limbo : List Entry) (task : Entry) : Prop :=
  s.Idle limbo task ∨ task ∈ s.held

def liveTally (s : Run α) (limbo : List Entry) (order : Nat) : Nat :=
  Backlog.readyTally s.backlog.tasks order + tally s.backlog.aside order + tally limbo order +
    tally s.held order

/-- Every order accepted is in one place, and the log says what it was. -/
structure Books (s : Run α) (limbo : List Entry) : Prop where
  accounted : ∀ order, s.liveTally limbo order + s.finished.count order +
    s.cancelled.count order = if order < s.backlog.accepted then 1 else 0
  unfinished : ∀ order, order ∈ s.backlog.unfinished ↔ 0 < s.liveTally limbo order
  logged : s.log.length = s.backlog.accepted
  recorded : ∀ task, s.Live limbo task → s.resultOf task.order = task.result
  distinct : ∀ order other id, s.resultOf order = some id → s.resultOf other = some id →
    order = other
  earlier : ∀ order other id, id ∈ s.afterOf order → s.resultOf other = some id → other < order
  taken : ∀ order, s.taken.count order = tally s.held order + s.finished.count order

/-- A result is pending exactly while its task has not returned. -/
structure Results (s : Run α) (limbo : List Entry) : Prop where
  keys : ∀ id, AssocList.contains s.backlog.dependents id = true ↔
    ∃ task, s.Live limbo task ∧ task.result = some id
  keysNodup : (s.backlog.dependents.map Prod.fst).Nodup
  owned : ∀ order id, s.resultOf order = some id →
    s.operations.queueOf id = s.backlog.number ∧ s.operations.stateOf id ≠ none
  named : ∀ order id, id ∈ s.afterOf order →
    s.operations.queueOf id = s.backlog.number ∧ s.operations.stateOf id ≠ none
  fresh : ∀ id, s.operations.lastId < id → s.operations.stateOf id = none
  idle : ∀ task id, s.Idle limbo task → task.result = some id →
    s.operations.stateOf id = some .pending
  running : ∀ hand ∈ s.hands, ∀ id, hand.entry.result = some id →
    (hand.returned = false → s.operations.stateOf id = some .pending) ∧
    (hand.returned = true → ∃ value, s.operations.stateOf id = some (.returned value))
  settled : ∀ id, s.operations.queueOf id = s.backlog.number →
    s.operations.stateOf id = some .pending → ∃ task, s.Live limbo task ∧ task.result = some id
  cancelled : ∀ order ∈ s.cancelled, ∀ id, s.resultOf order = some id →
    s.operations.stateOf id = some .cancelled
  finished : ∀ order ∈ s.finished, ∀ id, s.resultOf order = some id →
    ∃ value, s.operations.stateOf id = some (.returned value)

/-- A result named in `after` has returned or still lists the task to run after it. -/
structure Links (s : Run α) (limbo : List Entry) : Prop where
  listed : ∀ id orders, (id, orders) ∈ s.backlog.dependents → ∀ order ∈ orders,
    id ∈ s.afterOf order ∧
      ((∃ task ∈ s.backlog.aside, task.order = order) ∨ (∃ task ∈ limbo, task.order = order) ∨
        order ∈ s.cancelled)
  counted : ∀ w ∈ s.backlog.waiting,
    w.remaining = Backlog.occurrences s.backlog.dependents w.task.order ∧ 0 < w.remaining
  waits : ∀ w ∈ s.backlog.waiting, ∀ id ∈ s.afterOf w.task.order,
    (∃ value, s.operations.stateOf id = some (.returned value)) ∨
    ∃ orders, (id, orders) ∈ s.backlog.dependents ∧ w.task.order ∈ orders
  started : ∀ order, ((∃ priority, ∃ task ∈ s.backlog.tasks priority, task.order = order) ∨
      (∃ task ∈ s.held, task.order = order) ∨ order ∈ s.finished) →
    ∀ id ∈ s.afterOf order, ∃ value, s.operations.stateOf id = some (.returned value)

structure Valid (s : Run α) (limbo : List Entry) : Prop where
  books : s.Books limbo
  results : s.Results limbo
  links : s.Links limbo

end Run

end Dross
