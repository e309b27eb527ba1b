import Mathlib.Logic.Function.Basic

/-!
# Operation results

What `operation_access` keeps for the whole process: the last id handed out and
the storage behind every result made so far. A handle is the id of its storage,
so two copies of a handle see the same state.
-/

namespace Dross

abbrev OperationId := Nat

inductive OperationErrc where
  | cancelled
  | notFinished
  | queueStopped
  | invalidPriority
  | foreignDependency
  deriving DecidableEq, Repr

/-- Whether an operation is still waiting, has returned, or was cancelled
before it ran; what it returned is there exactly once it has. -/
inductive ResultState (α : Type) where
  | pending
  | returned (value : α)
  | cancelled
  deriving DecidableEq, Repr

structure ResultStorage (α : Type) where
  queue : Nat
  state : ResultState α

structure Operations (α : Type) where
  lastId : OperationId
  results : OperationId → Option (ResultStorage α)

namespace Operations

variable {α : Type}

def initial : Operations α := ⟨0, fun _ => none⟩

def stateOf (ops : Operations α) (id : OperationId) : Option (ResultState α) :=
  (ops.results id).map ResultStorage.state

/-- The number of the queue that made a result, 0 for none. -/
def queueOf (ops : Operations α) (id : OperationId) : Nat :=
  ((ops.results id).map ResultStorage.queue).getD 0

/-- A new result of a queue, with an id greater than every one before. -/
def make (ops : Operations α) (queue : Nat) : OperationId × Operations α :=
  (ops.lastId + 1,
    { lastId := ops.lastId + 1
      results := Function.update ops.results (ops.lastId + 1) (some ⟨queue, .pending⟩) })

def isPending (ops : Operations α) (id : OperationId) : Bool :=
  match ops.stateOf id with
  | some .pending => true
  | _ => false

def held (ops : Operations α) (id : OperationId) : Except OperationErrc α :=
  match ops.stateOf id with
  | some (.returned value) => .ok value
  | some .cancelled => .error .cancelled
  | _ => .error .notFinished

def isCancelled (ops : Operations α) (id : OperationId) : Bool :=
  match ops.held id with
  | .error .cancelled => true
  | _ => false

/-- Moves a result out of pending; `finish` and `cancel` change no other. -/
def settle (ops : Operations α) (id : OperationId) (state : ResultState α) : Operations α :=
  match ops.results id with
  | some ⟨queue, .pending⟩ =>
      { ops with results := Function.update ops.results id (some ⟨queue, state⟩) }
  | _ => ops

def finish (ops : Operations α) (id : OperationId) (value : α) : Operations α :=
  ops.settle id (.returned value)

def cancel (ops : Operations α) (id : OperationId) : Operations α :=
  ops.settle id .cancelled

@[simp] theorem make_fst (ops : Operations α) (queue : Nat) :
    (ops.make queue).1 = ops.lastId + 1 := rfl

@[simp] theorem make_lastId (ops : Operations α) (queue : Nat) :
    (ops.make queue).2.lastId = ops.lastId + 1 := rfl

theorem isPending_iff (ops : Operations α) (id : OperationId) :
    ops.isPending id = true ↔ ops.stateOf id = some .pending := by
  unfold isPending
  cases h : ops.stateOf id with
  | none => simp
  | some state => cases state <;> simp

theorem isCancelled_iff (ops : Operations α) (id : OperationId) :
    ops.isCancelled id = true ↔ ops.stateOf id = some .cancelled := by
  unfold isCancelled held
  cases h : ops.stateOf id with
  | none => simp
  | some state => cases state <;> simp

theorem stateOf_make (ops : Operations α) (queue : Nat) (id : OperationId) :
    (ops.make queue).2.stateOf id =
      if id = ops.lastId + 1 then some .pending else ops.stateOf id := by
  by_cases h : id = ops.lastId + 1
  · simp [make, stateOf, h]
  · simp [make, stateOf, h]

theorem queueOf_make (ops : Operations α) (queue : Nat) (id : OperationId) :
    (ops.make queue).2.queueOf id =
      if id = ops.lastId + 1 then queue else ops.queueOf id := by
  by_cases h : id = ops.lastId + 1
  · simp [make, queueOf, h]
  · simp [make, queueOf, h]

@[simp] theorem settle_lastId (ops : Operations α) (id : OperationId) (state : ResultState α) :
    (ops.settle id state).lastId = ops.lastId := by
  unfold settle
  split <;> rfl

/-- Whichever of `finish` and `cancel` comes first takes effect. -/
theorem stateOf_settle (ops : Operations α) (id : OperationId) (state : ResultState α)
    (other : OperationId) :
    (ops.settle id state).stateOf other =
      if other = id ∧ ops.isPending id then some state else ops.stateOf other := by
  unfold settle
  split
  · rename_i queue found
    have pending : ops.isPending id = true := by simp [isPending, stateOf, found]
    by_cases h : other = id
    · simp [stateOf, h, pending]
    · simp [stateOf, h]
  · rename_i missing
    have stuck : ¬ ops.isPending id = true := by
      rw [isPending_iff, stateOf, Option.map_eq_some_iff]
      rintro ⟨⟨queue, was⟩, hq, hs⟩
      cases hs
      exact missing queue hq
    simp [stuck]

@[simp] theorem queueOf_settle (ops : Operations α) (id : OperationId) (state : ResultState α)
    (other : OperationId) : (ops.settle id state).queueOf other = ops.queueOf other := by
  unfold settle queueOf
  split
  · rename_i queue found
    by_cases h : other = id
    · simp [h, found]
    · simp [h]
  · rfl

/-- A result that has left pending keeps its state and its value. -/
theorem settle_keeps (ops : Operations α) (id : OperationId) (state : ResultState α)
    {other : OperationId} {was : ResultState α} (h : ops.stateOf other = some was)
    (settled : was ≠ .pending) : (ops.settle id state).stateOf other = some was := by
  rw [stateOf_settle]
  by_cases hc : other = id ∧ ops.isPending id = true
  · have pending := (isPending_iff ops id).mp hc.2
    rw [← hc.1, h] at pending
    exact absurd (Option.some.inj pending) settled
  · rw [if_neg hc, h]

end Operations

end Dross
