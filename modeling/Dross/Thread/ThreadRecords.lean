import Dross.Library.Transition
import Dross.Thread.Runloop

/-!
# Thread records

What `thread.cpp` keeps for the whole process: a record behind every handle, the registry,
the run loop of each thread, and the thread-local holders through which a thread's end is
noticed. A record or a loop is its place among those made. The system's threads interleave;
a step is what one of them does under one mutex, or what it does that no other can see.
-/

namespace Dross

/-- `thread::storage`. The thread it is the record of is only remembered. -/
structure ThreadRecord where
  published : Bool
  finished : Bool
  isMain : Bool
  nativeId : Option Nat
  loop : Option Nat
  stopRequested : Bool
  ofThread : Option Nat
  deriving DecidableEq, Repr

/-- Where a thread is in this module's code. -/
inductive Doing where
  /-- In code of its owner's. -/
  | outside
  /-- Created by `start`, before `run_on_new_thread`. -/
  | beginning (record : Nat) (runLoop : Bool)
  /-- Between `register_self` and `_published`. -/
  | registered (record : Nat)
  /-- With `_published` set, about to notify. -/
  | published (record : Nat)
  /-- In `start`, waiting for the new thread. -/
  | starting (record : Nat)
  /-- In `current_thread_storage`, about to install what it made or found. -/
  | installing (record : Nat)
  /-- In `perform`, past the test of `_finished`. -/
  | performing (record : Nat)
  /-- In `finish`, out of the registry. -/
  | deregistered (record : Nat)
  /-- In `finish`, with `_finished` set, about to notify. -/
  | finishing (record : Nat)
  | ended
  deriving DecidableEq, Repr

/-- A thread of the system, with its thread-local holders and marks. -/
structure OsThread where
  id : Nat
  isMain : Bool
  doing : Doing
  /-- Whether its thread-local objects are being destroyed. -/
  leaving : Bool
  holder : Option Nat
  tornDown : Bool
  loopHolder : Option Nat
  loopTornDown : Bool
  deriving DecidableEq, Repr

namespace OsThread

def make (id : Nat) (isMain : Bool) (doing : Doing) : OsThread :=
  ⟨id, isMain, doing, false, none, false, none, false⟩

end OsThread

/-- The process; `main`, `mainLoop` and the two placeholders are the function-local statics. -/
structure Process where
  records : Nat → ThreadRecord
  recordCount : Nat
  loops : Nat → Loop
  loopCount : Nat
  threads : Nat → OsThread
  threadCount : Nat
  registry : List Nat
  main : Option Nat
  mainLoop : Option Nat
  placeholder : Option Nat
  loopPlaceholder : Option Nat

namespace ThreadRecord

/-- A record as its constructor leaves it. -/
def fresh (ofThread : Option Nat) : ThreadRecord :=
  ⟨false, false, false, none, none, false, ofThread⟩

end ThreadRecord

namespace Process

def setRecord (p : Process) (r : Nat) (record : ThreadRecord) : Process :=
  { p with records := Function.update p.records r record }

def setThread (p : Process) (t : Nat) (thread : OsThread) : Process :=
  { p with threads := Function.update p.threads t thread }

def setLoop (p : Process) (l : Nat) (loop : Loop) : Process :=
  { p with loops := Function.update p.loops l loop }

def goTo (p : Process) (t : Nat) (doing : Doing) : Process :=
  p.setThread t { p.threads t with doing := doing }

def makeRecord (p : Process) (record : ThreadRecord) : Nat × Process :=
  (p.recordCount,
    { p with
      records := Function.update p.records p.recordCount record
      recordCount := p.recordCount + 1 })

def makeLoop (p : Process) (loop : Loop) : Nat × Process :=
  (p.loopCount,
    { p with
      loops := Function.update p.loops p.loopCount loop
      loopCount := p.loopCount + 1 })

def registerSelf (p : Process) (r : Nat) : Process := { p with registry := p.registry ++ [r] }

/-- `runloop::storage::main_loop()`. -/
def mainLoopStorage (p : Process) : Nat × Process :=
  match p.mainLoop with
  | some l => (l, p)
  | none =>
    let made := p.makeLoop Loop.initial
    (made.1, { made.2 with mainLoop := some made.1 })

/-- `teardown::finished_placeholder`, for run loops. -/
def finishedLoop (p : Process) : Nat × Process :=
  match p.loopPlaceholder with
  | some l => (l, p)
  | none =>
    let made := p.makeLoop Loop.initial.finish
    (made.1, { made.2 with loopPlaceholder := some made.1 })

/-- `runloop::storage::for_current_thread()`. -/
def loopForCurrentThread (p : Process) (t : Nat) : Nat × Process :=
  if (p.threads t).loopTornDown then p.finishedLoop
  else
    match (p.threads t).loopHolder with
    | some l => (l, p)
    | none =>
      let made := if (p.threads t).isMain then p.mainLoopStorage else p.makeLoop Loop.initial
      (made.1, made.2.setThread t { made.2.threads t with loopHolder := some made.1 })

/-- `main_runloop()`. -/
def mainRunloop (p : Process) (t : Nat) : Nat × Process :=
  if (p.threads t).isMain then p.loopForCurrentThread t else p.mainLoopStorage

/-- `native::main_thread_id()`, on a system that can or cannot be asked from another thread. -/
def mainThreadId (asksMain : Bool) (p : Process) (t : Nat) : Option Nat :=
  if asksMain || (p.threads t).isMain then some (p.threads 0).id else none

/-- `thread::storage::main_thread_storage()`. -/
def mainThreadStorage (asksMain : Bool) (p : Process) (t : Nat) : Nat × Process :=
  match p.main with
  | some r => (r, p)
  | none =>
    let loop := p.mainRunloop t
    let made := loop.2.makeRecord
      { ThreadRecord.fresh (some 0) with
        isMain := true
        nativeId := mainThreadId asksMain p t
        loop := some loop.1 }
    (made.1, { made.2.registerSelf made.1 with main := some made.1 })

def ensureNativeIdKnown (p : Process) (r t : Nat) : Process :=
  match (p.records r).nativeId with
  | some _ => p
  | none => p.setRecord r { p.records r with nativeId := some (p.threads t).id }

/-- `thread::storage::make_adopted()`. -/
def makeAdopted (p : Process) (t : Nat) : Nat × Process :=
  let loop := p.loopForCurrentThread t
  let made := loop.2.makeRecord
    { ThreadRecord.fresh (some t) with
      nativeId := some (p.threads t).id
      loop := some loop.1 }
  (made.1, made.2.registerSelf made.1)

/-- `teardown::finished_placeholder`, for threads. -/
def finishedPlaceholder (p : Process) : Nat × Process :=
  match p.placeholder with
  | some r => (r, p)
  | none =>
    let made := p.makeRecord { ThreadRecord.fresh none with finished := true }
    (made.1, { made.2 with placeholder := some made.1 })

/-- What `current_thread_storage()` makes or finds for a thread that has nothing installed. -/
def adopt (asksMain : Bool) (p : Process) (t : Nat) : Nat × Process :=
  if (p.threads t).isMain then
    let found := p.mainThreadStorage asksMain t
    (found.1, found.2.ensureNativeIdKnown found.1 t)
  else p.makeAdopted t

/-- `is_current()`, asked on a thread. -/
def isCurrent (p : Process) (t r : Nat) : Bool :=
  if (p.records r).isMain then (p.threads t).isMain
  else decide ((p.records r).nativeId = some (p.threads t).id)

/-- What `current_thread_storage()` returns to a thread, once it has. -/
def currentThread (p : Process) (t : Nat) : Option Nat :=
  if (p.threads t).tornDown then p.placeholder else (p.threads t).holder

def start (p : Process) (t id : Nat) (runLoop : Bool) : Process :=
  let made := p.makeRecord (ThreadRecord.fresh (some p.threadCount))
  { made.2.goTo t (.starting made.1) with
    threads := Function.update (made.2.goTo t (.starting made.1)).threads p.threadCount
      (.make id false (.beginning made.1 runLoop))
    threadCount := p.threadCount + 1 }

/-- `run_on_new_thread`, as far as `register_self`. -/
def begin_ (p : Process) (t r : Nat) (runLoop : Bool) : Process :=
  let installed := p.setThread t { p.threads t with holder := some r }
  let named := installed.setRecord r
    { installed.records r with nativeId := some (p.threads t).id }
  let looped :=
    if runLoop then
      let loop := named.loopForCurrentThread t
      loop.2.setRecord r { loop.2.records r with loop := some loop.1 }
    else named
  (looped.registerSelf r).goTo t (.registered r)

def publish (p : Process) (t r : Nat) : Process :=
  (p.setRecord r { p.records r with published := true }).goTo t (.published r)

def install (p : Process) (t r : Nat) : Process :=
  p.setThread t { p.threads t with holder := some r, doing := .outside }

def deregister (p : Process) (t r : Nat) : Process :=
  { p with registry := p.registry.filter (fun entry => entry ≠ r) }.goTo t (.deregistered r)

def markFinished (p : Process) (t r : Nat) : Process :=
  (p.setRecord r { p.records r with finished := true }).goTo t (.finishing r)

def tearDown (p : Process) (t : Nat) : Process :=
  p.setThread t { p.threads t with tornDown := true, doing := .outside }

def dropLoop (p : Process) (t l : Nat) : Process :=
  (p.setThread t { p.threads t with loopTornDown := true }).setLoop l (p.loops l).finish

/-- Whether a thread may run code of its owner's. -/
def Runs (p : Process) (t : Nat) : Prop :=
  t < p.threadCount ∧ (p.threads t).doing = .outside

/-- Whether no thread that has not ended has an id, so the system may give it out. -/
def Unused (p : Process) (id : Nat) : Prop :=
  ∀ t < p.threadCount, (p.threads t).doing ≠ .ended → (p.threads t).id ≠ id

/-- Whether a thread's module state is all gone, so that it may end. -/
def Cleared (p : Process) (t : Nat) : Prop :=
  ((p.threads t).holder = none ∨ (p.threads t).tornDown = true) ∧
    ((p.threads t).loopHolder = none ∨ (p.threads t).loopTornDown = true)

/-- What a loop lets anyone do to it, and what a running call on it does. -/
inductive LoopStep (loop : Loop) : Loop → Prop
  | enqueue : LoopStep loop loop.enqueue
  | quit : LoopStep loop loop.requestQuit
  | clear : LoopStep loop loop.clear
  | serve (later : Loop) (kept : later.finished = loop.finished)
      (fewer : later.pending <:+ loop.pending) (timers : loop.timers = [] → later.timers = []) :
      LoopStep loop later
  | installTimer (which : Slot) : LoopStep loop (loop.installTimer which)

/-- The end of `perform`, for a record with a loop or without. -/
def performOn (p : Process) : Option Nat → Process
  | some l => p.setLoop l (p.loops l).enqueue
  | none => p

/-- One step of one thread. Only what a thread does to itself asks that it be that thread:
a handle to a record or to a loop may be anywhere. -/
inductive Step (asksMain : Bool) (p : Process) : Process → Prop
  | create (id : Nat) (unused : p.Unused id) :
      Step asksMain p { p with
        threads := Function.update p.threads p.threadCount (.make id false .outside)
        threadCount := p.threadCount + 1 }
  | start (t id : Nat) (runLoop : Bool) (runs : p.Runs t) (unused : p.Unused id) :
      Step asksMain p (p.start t id runLoop)
  | begin_ (t r : Nat) (runLoop : Bool) (at_ : (p.threads t).doing = .beginning r runLoop) :
      Step asksMain p (p.begin_ t r runLoop)
  | publish (t r : Nat) (at_ : (p.threads t).doing = .registered r) :
      Step asksMain p (p.publish t r)
  | notifyReady (t r : Nat) (at_ : (p.threads t).doing = .published r) :
      Step asksMain p (p.goTo t .outside)
  | started (t r : Nat) (at_ : (p.threads t).doing = .starting r)
      (published : (p.records r).published = true) : Step asksMain p (p.goTo t .outside)
  | adopt (t : Nat) (runs : p.Runs t) (kept : (p.threads t).tornDown = false)
      (first : (p.threads t).holder = none) :
      Step asksMain p ((p.adopt asksMain t).2.goTo t (.installing (p.adopt asksMain t).1))
  | install (t r : Nat) (at_ : (p.threads t).doing = .installing r) :
      Step asksMain p (p.install t r)
  | nameFinished (t : Nat) (runs : p.Runs t) (gone : (p.threads t).tornDown = true) :
      Step asksMain p p.finishedPlaceholder.2
  | nameMain (t : Nat) (runs : p.Runs t) (other : (p.threads t).isMain = false) :
      Step asksMain p (p.mainThreadStorage asksMain t).2
  | nameLoop (t : Nat) (runs : p.Runs t) : Step asksMain p (p.loopForCurrentThread t).2
  | nameMainLoop (t : Nat) (runs : p.Runs t) : Step asksMain p (p.mainRunloop t).2
  | perform (t r : Nat) (runs : p.Runs t) (made : r < p.recordCount)
      (open_ : (p.records r).finished = false) : Step asksMain p (p.goTo t (.performing r))
  | delegate (t r : Nat) (at_ : (p.threads t).doing = .performing r) :
      Step asksMain p ((p.performOn (p.records r).loop).goTo t .outside)
  | cancel (r : Nat) (made : r < p.recordCount) :
      Step asksMain p (p.setRecord r { p.records r with stopRequested := true })
  | loop (l : Nat) (later : Loop) (made : l < p.loopCount) (step : LoopStep (p.loops l) later) :
      Step asksMain p (p.setLoop l later)
  | leave (t : Nat) (runs : p.Runs t) :
      Step asksMain p (p.setThread t { p.threads t with leaving := true })
  | dropLoop (t l : Nat) (runs : p.Runs t) (leaving : (p.threads t).leaving = true)
      (held : (p.threads t).loopHolder = some l) (kept : (p.threads t).loopTornDown = false) :
      Step asksMain p (p.dropLoop t l)
  | deregister (t r : Nat) (runs : p.Runs t) (leaving : (p.threads t).leaving = true)
      (held : (p.threads t).holder = some r) (kept : (p.threads t).tornDown = false) :
      Step asksMain p (p.deregister t r)
  | markFinished (t r : Nat) (at_ : (p.threads t).doing = .deregistered r) :
      Step asksMain p (p.markFinished t r)
  | tearDown (t r : Nat) (at_ : (p.threads t).doing = .finishing r) : Step asksMain p (p.tearDown t)
  | end_ (t : Nat) (runs : p.Runs t) (leaving : (p.threads t).leaving = true)
      (cleared : p.Cleared t) : Step asksMain p (p.goTo t .ended)

/-- A process as it starts, with only its main thread. -/
def initial (mainId : Nat) : Process where
  records := fun _ => .fresh none
  recordCount := 0
  loops := fun _ => Loop.initial
  loopCount := 0
  threads := fun t => .make mainId (t == 0) .outside
  threadCount := 1
  registry := []
  main := none
  mainLoop := none
  placeholder := none
  loopPlaceholder := none

def Reachable (asksMain : Bool) : Process → Prop :=
  Transition.Reachable (fun p => ∃ mainId, p = initial mainId) (Step asksMain)

end Process

end Dross
