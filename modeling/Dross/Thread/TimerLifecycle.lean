import Dross.Thread.RunloopTurns

/-!
# The life of a timer

Whether a timer is valid is a flag of its own storage; whether it is installed is
known to the loop it is on. Five operations change the two, each in its own order
and on any thread: `make`, `invalidate`, the claim of a fire, the fire, and `finish`.
The loop is assumed to outlive the calls that reach it.
-/

namespace Dross

/-- How far `make` has come. It has a deadline once the clock is read, and has been refused
when its callback is empty or its loop has finished. -/
inductive Making where
  | created (first : TimePoint)
  | refused
  | accepted
  | returned (accepted : Bool)
  deriving DecidableEq, Repr

/-- Whether the loop has ever had the timer. -/
def Making.wasInstalled : Making → Bool
  | .accepted => true
  | .returned kept => kept
  | _ => false

/-- `timer::storage`; its identifier is the key it is found under. -/
structure TimerStorage where
  repeats : Bool
  interval : Int
  valid : Bool
  making : Making
  deriving DecidableEq, Repr

/-- How far a fire has come: taken by the loop, in the callback, back from it by a return or a
throw, and, for a one-shot that marks its timer after that, at its end. -/
inductive Stage where
  | taken
  | calling
  | back
  | ended
  deriving DecidableEq, Repr

structure Fire where
  call : Nat
  timer : Nat
  stage : Stage
  deriving DecidableEq, Repr

/-- A loop and its timers. `invalidating` are the calls of `invalidate` that have cleared the
flag and not yet reached the loop, `invalidated` those that have returned; `discarded` are the
timers that a `finish` under way has taken off the list and not yet marked. -/
structure Timers where
  runloop : Runloop
  storages : Nat → Option TimerStorage
  nextId : Nat
  fires : List Fire
  invalidating : List Nat
  invalidated : List Nat
  discarded : List Nat

namespace Timers

variable {source : TimeSource} {s t : Timers}

abbrev slots (s : Timers) : List Slot := s.runloop.loop.timers

def installed (s : Timers) : List Nat := s.slots.map Slot.id

def firesOf (s : Timers) (id : Nat) : List Fire := s.fires.filter (fun fire => fire.timer == id)

/-- How often the callback of a timer has been called. -/
def called (s : Timers) (id : Nat) : Nat :=
  s.fires.countP (fun fire => fire.timer == id && fire.stage != .taken)

def put (s : Timers) (id : Nat) (storage : TimerStorage) : Timers :=
  { s with storages := Function.update s.storages id (some storage) }

/-- `mark_invalid` -/
def markInvalid (s : Timers) (id : Nat) : Timers :=
  { s with storages := fun other =>
      if other = id then (s.storages id).map (fun storage => { storage with valid := false })
      else s.storages other }

/-- Who calls `invalidate` has a handle: from `make`, or from the callback it was passed to. -/
def Handed (s : Timers) (id : Nat) : Prop :=
  (∃ storage, s.storages id = some storage ∧ ∃ accepted, storage.making = .returned accepted) ∨
    ∃ fire ∈ s.fires, fire.timer = id ∧ fire.stage ≠ .taken

/-- The loop after the turn of a call. -/
def turned (source : TimeSource) (s : Timers) (i : Nat) (call : Call) : Runloop :=
  { s.runloop.put i (s.runloop.turn source.now call).2.2 with
    loop := (s.runloop.turn source.now call).1
    reads := (s.runloop.turn source.now call).2.1 }

/-- One step of some thread. `other` is any step of the loop that has nothing to do with its
timers: a call that comes to run something by it has taken a task. A call that runs what it has
taken goes on by `ran` or `throws`, once its fire has ended. -/
inductive Step (source : TimeSource) (s : Timers) : Timers → Prop
  | make (repeats : Bool) (interval : Int) :
      Step source s { s.put s.nextId ⟨repeats, interval, true,
          .created (Deadline.after (source.now s.runloop.reads) interval)⟩ with
        runloop := { s.runloop with reads := s.runloop.reads + 1 }
        nextId := s.nextId + 1 }
  | makeEmpty (repeats : Bool) (interval : Int) :
      Step source s { s.put s.nextId ⟨repeats, interval, true, .refused⟩ with
        nextId := s.nextId + 1 }
  | makeElsewhere : Step source s { s with nextId := s.nextId + 1 }
  | install {id : Nat} {storage : TimerStorage} {first : TimePoint} (at' : s.storages id = some storage)
      (created : storage.making = .created first) (free : s.runloop.holder = none) :
      Step source s { s.put id { storage with
          making := if s.runloop.loop.finished then .refused else .accepted } with
        runloop := { s.runloop with
          loop := s.runloop.loop.installTimer ⟨id, storage.repeats, storage.interval, first⟩ } }
  | refuse {id : Nat} {storage : TimerStorage} (at' : s.storages id = some storage)
      (refused : storage.making = .refused) :
      Step source s (s.put id { storage with valid := false, making := .returned false })
  | returns {id : Nat} {storage : TimerStorage} (at' : s.storages id = some storage)
      (accepted : storage.making = .accepted) :
      Step source s (s.put id { storage with making := .returned true })
  | invalidate {id : Nat} (handed : s.Handed id) :
      Step source s { s.markInvalid id with invalidating := id :: s.invalidating }
  | drop {id : Nat} (calling : id ∈ s.invalidating) (free : s.runloop.holder = none) :
      Step source s { s with
        runloop := { s.runloop with loop := s.runloop.loop.removeTimer id }
        invalidating := s.invalidating.erase id
        invalidated := id :: s.invalidated }
  | take (i : Nat) (call : Call) {which : Slot} {slots : List Slot}
      (at' : s.runloop.calls[i]? = some call) (held : s.runloop.holder = some i)
      (due : TimerSchedule.takeDue s.slots call.pass.boundary (source.now s.runloop.reads)
        call.pass.handled = some (which, slots))
      (left : (turned source s i call).loop = { s.runloop.loop with timers := slots })
      (running : (s.runloop.turn source.now call).2.2.control = .running) :
      Step source s { s with
        runloop := turned source s i call
        fires := s.fires ++ [⟨i, which.id, .taken⟩] }
  | calls (k : Nat) {i id : Nat} (at' : s.fires[k]? = some ⟨i, id, .taken⟩) :
      Step source s { s with fires := s.fires.set k ⟨i, id, .calling⟩ }
  | back (k : Nat) {i id : Nat} (at' : s.fires[k]? = some ⟨i, id, .calling⟩) :
      Step source s { s with fires := s.fires.set k ⟨i, id, .back⟩ }
  | repeated (k : Nat) {i id : Nat} {storage : TimerStorage} (at' : s.fires[k]? = some ⟨i, id, .back⟩)
      (there : s.storages id = some storage) (repeats : storage.repeats = true) :
      Step source s { s with fires := s.fires.set k ⟨i, id, .ended⟩ }
  | fired (k : Nat) {i id : Nat} {storage : TimerStorage} (at' : s.fires[k]? = some ⟨i, id, .back⟩)
      (there : s.storages id = some storage) (once : storage.repeats = false) :
      Step source s { s.markInvalid id with fires := s.fires.set k ⟨i, id, .ended⟩ }
  | finish (free : s.runloop.holder = none) :
      Step source s { s with
        runloop := { s.runloop with loop := s.runloop.loop.finish }
        discarded := s.discarded ++ s.installed }
  | mark {id : Nat} {rest : List Nat} (next : s.discarded = id :: rest) :
      Step source s { s.markInvalid id with discarded := rest }
  | ran (i : Nat) (call : Call) (at' : s.runloop.calls[i]? = some call)
      (free : s.runloop.holder = none) (running : call.control = .running)
      (done : ∀ fire ∈ s.fires, fire.call = i → fire.stage = .ended) :
      Step source s { s with runloop := s.runloop.put i (Runloop.ranOne call) }
  | throws (i : Nat) (call : Call) (at' : s.runloop.calls[i]? = some call)
      (free : s.runloop.holder = none) (running : call.control = .running)
      (done : ∀ fire ∈ s.fires, fire.call = i → fire.stage = .ended) :
      Step source s { s with
        runloop := { s.runloop with
          loop := { s.runloop.loop with depth := s.runloop.loop.depth - 1 }
          calls := s.runloop.calls.set i { call with control := .thrown } } }
  | other {runloop : Runloop} (step : Runloop.Step source s.runloop runloop)
      (timers : runloop.loop.timers = s.slots)
      (finished : runloop.loop.finished = s.runloop.loop.finished)
      (busy : ∀ (i : Nat) (call : Call), s.runloop.calls[i]? = some call → call.control = .running →
        runloop.calls[i]? = some call)
      (idle : runloop.loop.pending = s.runloop.loop.pending → ∀ (i : Nat) (call : Call),
        runloop.calls[i]? = some call → call.control = .running → s.runloop.calls[i]? = some call) :
      Step source s { s with runloop := runloop }

def Starts (s : Timers) : Prop :=
  ∃ nextId, s = ⟨Runloop.initial, fun _ => none, nextId, [], [], [], []⟩

def Reachable (source : TimeSource) : Timers → Prop := Transition.Reachable Starts (Step source)

end Timers

end Dross
