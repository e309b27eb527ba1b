import Dross.Library.Transition
import Dross.Thread.TimerSchedule

/-!
# Run loops

The loop's state, the running calls on it and the lock they share. A call that
holds the lock keeps it from one reading of the clock to the next, and gives it
up only to wait or to run what it has taken. Every reading takes the next value
of the time source, whoever makes it.
-/

namespace Dross

/-- A clock whose readings never decrease. -/
structure TimeSource where
  now : Nat → TimePoint
  monotone : ∀ m n, m ≤ n → now m ≤ now n

/-- `runloop::storage`; a queued task is its sequence number. -/
structure Loop where
  pending : List Nat
  timers : List Slot
  nextSequence : Nat
  depth : Nat
  quit : Bool
  finished : Bool
  deriving DecidableEq, Repr

structure Pass where
  boundary : TimePoint
  handled : List Nat
  deriving DecidableEq, Repr

inductive RunKind where
  | run
  | runOne
  | runFor
  | runPending
  deriving DecidableEq, Repr

/-- Where a running call is. -/
inductive Control where
  /-- Before its `running_mark`. -/
  | entering
  /-- With its mark, and about to take the lock. -/
  | marked
  /-- At the condition of the loop in `run_until`. -/
  | looping
  /-- At the top of the loop in `next`. -/
  | next (refreshed : Bool)
  /-- In one of the loops of `run_pending`. -/
  | draining (timersDone : Bool)
  /-- Waiting, without the lock. -/
  | waiting
  /-- Running what it has taken, without the lock. -/
  | running
  /-- With nothing more to do, and the lock given back. -/
  | leaving
  | returned
  /-- What it ran threw. -/
  | thrown
  deriving DecidableEq, Repr

structure Call where
  kind : RunKind
  deadline : TimePoint
  outermost : Bool
  pass : Pass
  /-- The cutoff of `run_pending`. -/
  limit : Nat
  timersDone : Bool
  ran : Nat
  control : Control
  /-- Whether `next` has seen a request to quit. -/
  sawQuit : Bool
  deriving DecidableEq, Repr

/-- A loop, the calls on it, and which of them holds the lock. -/
structure Runloop where
  loop : Loop
  calls : List Call
  holder : Option Nat
  reads : Nat
  deriving DecidableEq, Repr

namespace Loop

def initial : Loop := ⟨[], [], 0, 0, false, false⟩

def enqueue (loop : Loop) : Loop :=
  if loop.finished then loop
  else { loop with
    pending := loop.pending ++ [loop.nextSequence]
    nextSequence := loop.nextSequence + 1 }

def installTimer (loop : Loop) (which : Slot) : Loop :=
  if loop.finished then loop
  else { loop with timers := TimerSchedule.install loop.timers which }

def removeTimer (loop : Loop) (id : Nat) : Loop :=
  { loop with timers := TimerSchedule.remove loop.timers id }

def requestQuit (loop : Loop) : Loop := { loop with quit := true }

def clear (loop : Loop) : Loop := { loop with pending := [] }

def finish (loop : Loop) : Loop := { loop with finished := true, pending := [], timers := [] }

/-- What a turn with the lock leaves: the loop, how many readings it took, and the call. -/
abbrev Turn := Loop × Nat × Call

/-- The end of a round of `next`: whether there is still something to wait for. -/
def waitCheck (now : Nat → TimePoint) (reads : Nat) (loop : Loop) (call : Call) : Turn :=
  let current := now reads
  let waitDeadline := min call.deadline (TimerSchedule.earliest loop.timers)
  (loop, reads + 1,
    { call with control := if waitDeadline ≤ current then .leaving else .waiting })

/-- One round of the loop in `next`. -/
def next (now : Nat → TimePoint) (reads : Nat) (loop : Loop) (call : Call) (refreshed : Bool) :
    Turn :=
  if loop.quit then
    ({ loop with quit := ! call.outermost }, reads,
      { call with sawQuit := true, control := .leaving })
  else
    let hasTimers := ! loop.timers.isEmpty
    let claimed :=
      if hasTimers then
        TimerSchedule.takeDue loop.timers call.pass.boundary (now reads) call.pass.handled
      else none
    let reads := if hasTimers then reads + 1 else reads
    match claimed with
    | some which =>
      ({ loop with timers := which.2 }, reads,
        { call with
          pass := ⟨call.pass.boundary, call.pass.handled ++ [which.1.id]⟩
          control := .running })
    | none =>
      match loop.pending with
      | _ :: pending =>
        ({ loop with pending := pending }, if hasTimers then reads + 1 else reads,
          { call with
            pass := if hasTimers then ⟨now reads, []⟩ else call.pass
            control := .running })
      | [] =>
        if hasTimers && ! refreshed then
          (loop, reads + 1, { call with pass := ⟨now reads, []⟩, control := .next true })
        else waitCheck now reads loop call

/-- The condition of the loop in `run_until`. -/
def condition (now : Nat → TimePoint) (reads : Nat) (loop : Loop) (call : Call) : Turn :=
  if call.deadline = noDeadline then (loop, reads, { call with control := .next false })
  else if now reads < call.deadline then
    (loop, reads + 1, { call with control := .next false })
  else (loop, reads + 1, { call with control := .leaving })

/-- One round of the loops in `run_pending`. -/
def drain (now : Nat → TimePoint) (reads : Nat) (loop : Loop) (call : Call) (timersDone : Bool) :
    Turn :=
  if timersDone then
    match loop.pending with
    | sequence :: pending =>
      if sequence < call.limit then
        ({ loop with pending := pending }, reads, { call with control := .running })
      else (loop, reads, { call with control := .leaving })
    | [] => (loop, reads, { call with control := .leaving })
  else
    match TimerSchedule.takeDue loop.timers call.pass.boundary (now reads) call.pass.handled with
    | some which =>
      ({ loop with timers := which.2 }, reads + 1,
        { call with
          pass := ⟨call.pass.boundary, call.pass.handled ++ [which.1.id]⟩
          control := .running })
    | none => (loop, reads + 1, { call with timersDone := true, control := .draining true })

end Loop

namespace Control

/-- Whether a call at this point holds the lock. -/
def holds : Control → Bool
  | looping | next _ | draining _ => true
  | _ => false

end Control

namespace Runloop

def initial : Runloop := ⟨Loop.initial, [], none, 0⟩

/-- A call as it is made, with the deadline it has. -/
def enter (kind : RunKind) (deadline : TimePoint) : Call :=
  ⟨kind, deadline, false, ⟨0, []⟩, 0, false, 0, .entering, false⟩

/-- What a call does on taking the lock for the first time. -/
def start (now : Nat → TimePoint) (s : Runloop) (call : Call) : Call :=
  let call := { call with pass := ⟨now s.reads, []⟩ }
  match call.kind with
  | .run | .runFor => { call with control := .looping }
  | .runOne => { call with control := .next false }
  | .runPending => { call with limit := s.loop.nextSequence, control := .draining false }

/-- What a call goes on with once its work is done and it has the lock back. -/
def ranOne (call : Call) : Call :=
  match call.kind with
  | .run | .runFor => { call with ran := call.ran + 1, control := .looping }
  | .runOne => { call with ran := call.ran + 1, control := .leaving }
  | .runPending => { call with ran := call.ran + 1, control := .draining call.timersDone }

/-- A turn of the call that holds the lock. -/
def turn (now : Nat → TimePoint) (s : Runloop) (call : Call) : Loop.Turn :=
  match call.control with
  | .looping => s.loop.condition now s.reads call
  | .next refreshed => s.loop.next now s.reads call refreshed
  | .draining timersDone => s.loop.drain now s.reads call timersDone
  | _ => (s.loop, s.reads, call)

/-- Puts a call back after it did something, with the lock if it goes on with it. -/
def put (s : Runloop) (i : Nat) (call : Call) : Runloop :=
  { s with
    calls := s.calls.set i call
    holder := if call.control.holds then some i else none }

/-- One step: of a call, or of another thread at a time when no call holds the lock.
A reading of the clock needs no lock. -/
inductive Step (source : TimeSource) (s : Runloop) : Runloop → Prop
  | enqueue (free : s.holder = none) : Step source s { s with loop := s.loop.enqueue }
  | installTimer (which : Slot) (free : s.holder = none)
      (fresh : ∀ slot ∈ s.loop.timers, slot.id ≠ which.id) :
      Step source s { s with loop := s.loop.installTimer which }
  | removeTimer (id : Nat) (free : s.holder = none) :
      Step source s { s with loop := s.loop.removeTimer id }
  | quit (free : s.holder = none) : Step source s { s with loop := s.loop.requestQuit }
  | clear (free : s.holder = none) : Step source s { s with loop := s.loop.clear }
  | finish (free : s.holder = none) : Step source s { s with loop := s.loop.finish }
  | read : Step source s { s with reads := s.reads + 1 }
  | enter (kind : RunKind) (untimed : kind ≠ .runFor) :
      Step source s { s with calls := s.calls ++ [Runloop.enter kind noDeadline] }
  | enterFor (timeout : Int) :
      Step source s { s with
        calls := s.calls ++ [Runloop.enter .runFor (Deadline.after (source.now s.reads) timeout)]
        reads := s.reads + 1 }
  | mark (i : Nat) (call : Call) (at' : s.calls[i]? = some call) (free : s.holder = none)
      (entering : call.control = .entering) :
      Step source s { s with
        loop := { s.loop with depth := s.loop.depth + 1 }
        calls := s.calls.set i { call with outermost := s.loop.depth == 0, control := .marked } }
  | start (i : Nat) (call : Call) (at' : s.calls[i]? = some call) (free : s.holder = none)
      (marked : call.control = .marked) :
      Step source s { s.put i (s.start source.now call) with reads := s.reads + 1 }
  | turn (i : Nat) (call : Call) (at' : s.calls[i]? = some call) (held : s.holder = some i) :
      Step source s { s.put i (s.turn source.now call).2.2 with
        loop := (s.turn source.now call).1
        reads := (s.turn source.now call).2.1 }
  | wake (i : Nat) (call : Call) (at' : s.calls[i]? = some call) (free : s.holder = none)
      (waiting : call.control = .waiting) :
      Step source s (s.put i { call with control := .next false })
  | ran (i : Nat) (call : Call) (at' : s.calls[i]? = some call) (free : s.holder = none)
      (running : call.control = .running) : Step source s (s.put i (ranOne call))
  | throws (i : Nat) (call : Call) (at' : s.calls[i]? = some call)
      (running : call.control = .running) (free : s.holder = none) :
      Step source s { s with
        loop := { s.loop with depth := s.loop.depth - 1 }
        calls := s.calls.set i { call with control := .thrown } }
  | unmark (i : Nat) (call : Call) (at' : s.calls[i]? = some call) (free : s.holder = none)
      (leaving : call.control = .leaving) :
      Step source s { s with
        loop := { s.loop with depth := s.loop.depth - 1 }
        calls := s.calls.set i { call with control := .returned } }

def Reachable (source : TimeSource) : Runloop → Prop :=
  Transition.Reachable (· = initial) (Step source)

theorem reachable_initial {source : TimeSource} : Reachable source initial :=
  Transition.Reachable.start rfl

theorem Reachable.step {source : TimeSource} {s t u : Runloop} (h : Reachable source s)
    (step : Step source s t) (same : t = u) : Reachable source u :=
  same ▸ Transition.Reachable.next h step

end Runloop

end Dross
