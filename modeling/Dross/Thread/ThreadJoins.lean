import Dross.Library.Monitor
import Dross.Thread.ThreadRegistry

/-!
# Joining threads

A thread is told from another by its id, which the system may give out again once the
thread has ended, and is waited for by the flag its holder's destructor sets.
-/

namespace Dross

/-- Whether the thread's holder is being destroyed, or has been. -/
def OsThread.ending (t : OsThread) : Bool :=
  t.tornDown || match t.doing with
    | .deregistered _ | .finishing _ => true
    | _ => false

theorem OsThread.ending_of_hides {thread : OsThread} (shown : thread.doing.hides = false) :
    thread.ending = thread.tornDown := by
  cases doing : thread.doing <;> simp_all [OsThread.ending, Doing.hides]

theorem Doing.finishes_of_hides {doing : Doing} (shown : doing.hides = false) :
    doing.finishes = false := by
  cases doing <;> first | rfl | cases shown

namespace Process

variable {asksMain : Bool} {p q : Process} {t r : Nat}

/-! ## Which thread is current -/

/-- An ended thread's record is finished, unless it was only ever asked for by others. -/
theorem Sound.ended_finished (h : p.Sound) (less : r < p.recordCount)
    (own : (p.records r).ofThread = some t) (ended : (p.threads t).doing = .ended)
    (open_ : (p.records r).finished = false) : (p.records r).isMain = true := by
  obtain ⟨among, fit⟩ := h.fits r less t own
  have up : (p.threads t).tornDown = false := by
    have past := fit.finished
    rw [open_, OsThread.past] at past
    exact (Bool.or_eq_false_iff.mp past.symm).1
  have bare := ((h.coherent t among).ended ended).1.resolve_right (by rw [up]; simp)
  rcases fit.place with held | ⟨_, about | main⟩
  · rw [bare] at held
    cases held
  · rw [ended] at about
    cases about
  · exact main

/-- Of the threads that run, exactly its own is told to be the current one by a record that
is not finished, even where the system gives ids out again. -/
theorem is_current_exact (h : p.Reachable asksMain) (runs : p.Runs t) (less : r < p.recordCount)
    (open_ : (p.records r).finished = false) :
    p.isCurrent t r = true ↔ (p.records r).ofThread = some t := by
  have sound := h.sound
  obtain ⟨among, outside⟩ := runs
  have alive := Runs.alive ⟨among, outside⟩
  unfold isCurrent
  split
  · rename_i main
    rw [sound.isMain t among, (sound.mainThread r less).mp main, Option.some.injEq]
    exact eq_comm
  · rename_i other
    rw [decide_eq_true_iff]
    constructor
    · intro named
      cases own : (p.records r).ofThread with
      | none =>
        have := (sound.orphan r less own).1.finished
        rw [open_] at this
        cases this
      | some u =>
        obtain ⟨among', fit⟩ := sound.fits r less u own
        have alive' : (p.threads u).doing ≠ .ended := fun ended =>
          other (sound.ended_finished less own ended open_)
        have same : (p.threads u).id = (p.threads t).id := by
          rcases fit.named with known | ⟨none, _⟩
          · exact Option.some.inj (known.symm.trans named)
          · rw [named] at none
            cases none
        rw [sound.distinct u among' t among alive' alive same]
    · intro own
      obtain ⟨_, fit⟩ := sound.fits r less t own
      rcases fit.named with known | ⟨_, main | ⟨runLoop, beginning⟩⟩
      · exact known
      · exact absurd main other
      · rw [outside] at beginning
        cases beginning

theorem is_current_exact_visited :
    visited.isCurrent 1 0 = true ↔ (visited.records 0).ofThread = some 1 :=
  is_current_exact visited_reachable ⟨by decide, rfl⟩ (by decide) rfl

/-! ## What a step is to one thread -/

theorem ensureNativeIdKnown_threads (p : Process) (r t : Nat) :
    (p.ensureNativeIdKnown r t).threads = p.threads := by
  unfold ensureNativeIdKnown
  split <;> rfl

theorem adopt_threads (asksMain : Bool) (p : Process) (t : Nat) : ∃ loopHolder,
    (p.adopt asksMain t).2.threads =
      Function.update p.threads t { p.threads t with loopHolder := loopHolder } := by
  unfold adopt
  split
  · obtain ⟨loopHolder, threads, _⟩ := mainThreadStorage_threads asksMain p t
    exact ⟨loopHolder, (ensureNativeIdKnown_threads _ _ _).trans threads⟩
  · obtain ⟨_, _, _, _, _, _, holder, threads⟩ := loopForCurrentThread_only p t
    exact ⟨holder, threads⟩

/-- What a step is to one thread: somebody else's, or the thread's own next move. -/
inductive Turns (p q : Process) (t : Nat) : Prop
  | elsewhere (same : q.threads t = p.threads t)
  | made (id : Nat) (doing : Doing) (beyond : p.threadCount ≤ t)
      (fresh : (OsThread.make id false doing).past = false ∧
        (OsThread.make id false doing).ending = false)
      (same : q.threads t = .make id false doing)
  | begins (r : Nat) (runLoop : Bool) (at_ : (p.threads t).doing = .beginning r runLoop)
      (eq : q = p.begin_ t r runLoop)
  | goes (holder loopHolder : Option Nat) (doing : Doing)
      (begun : ∀ r runLoop, (p.threads t).doing ≠ .beginning r runLoop)
      (shown : doing.hides = false)
      (same : q.threads t =
        { p.threads t with holder := holder, loopHolder := loopHolder, doing := doing })
  | leaves (outside : (p.threads t).doing = .outside)
      (same : q.threads t = { p.threads t with leaving := true })
  | dropsLoop (outside : (p.threads t).doing = .outside)
      (same : q.threads t = { p.threads t with loopTornDown := true })
  | deregisters (r : Nat) (outside : (p.threads t).doing = .outside)
      (leaving : (p.threads t).leaving = true)
      (same : q.threads t = { p.threads t with doing := .deregistered r })
  | finishes (r : Nat) (at_ : (p.threads t).doing = .deregistered r) (eq : q = p.markFinished t r)
  | tearsDown (r : Nat) (at_ : (p.threads t).doing = .finishing r)
      (same : q.threads t = { p.threads t with tornDown := true, doing := .outside })

theorem Turns.of_update {thread : OsThread} {u : Nat}
    (threads : q.threads t = Function.update p.threads u thread t)
    (own : t = u → q.threads t = thread → p.Turns q t) : p.Turns q t := by
  by_cases same : t = u
  · refine own same ?_
    rw [threads, same, Function.update_self]
  · rw [Function.update_of_ne same] at threads
    exact .elsewhere threads

theorem Turns.of_goes {holder loopHolder : Option Nat} {doing was : Doing} {u : Nat}
    (at_ : (p.threads u).doing = was) (begun : ∀ r runLoop, was ≠ .beginning r runLoop)
    (threads : q.threads t = Function.update p.threads u
      { p.threads u with holder := holder, loopHolder := loopHolder, doing := doing } t)
    (shown : doing.hides = false) : p.Turns q t := by
  refine .of_update threads ?_
  rintro rfl same
  exact .goes holder loopHolder doing (fun r runLoop => by rw [at_]; exact begun r runLoop) shown
    same

theorem Turns.of_loop {u : Nat} (runs : p.Runs u) (only : ∃ holder, q.threads =
    Function.update p.threads u { p.threads u with loopHolder := holder }) : p.Turns q t := by
  obtain ⟨holder, threads⟩ := only
  refine .of_update (by rw [threads]) ?_
  rintro rfl same
  refine .goes (p.threads t).holder holder .outside (fun r runLoop => ?_) rfl ?_
  · rw [runs.2]
    rintro ⟨⟩
  · rw [same, ← runs.2]

theorem Step.turns (step : Step asksMain p q) (t : Nat) : p.Turns q t := by
  cases step with
  | create id unused =>
    by_cases new : t = p.threadCount
    · subst new
      exact .made id .outside (Nat.le_refl _) ⟨rfl, rfl⟩ (Function.update_self _ _ _)
    · exact .elsewhere (Function.update_of_ne new _ _)
  | start u id runLoop runs unused =>
    by_cases new : t = p.threadCount
    · subst new
      exact .made id (.beginning p.recordCount runLoop) (Nat.le_refl _) ⟨rfl, rfl⟩
        (Function.update_self _ _ _)
    · exact .of_goes runs.2 (by rintro _ _ ⟨⟩) (Function.update_of_ne new _ _) rfl
  | begin_ u r runLoop at_ =>
    by_cases own : t = u
    · subst own
      exact .begins r runLoop at_ rfl
    · obtain ⟨loopHolder, loop, threads, _⟩ := begin_eq p u r runLoop
      exact .elsewhere (by rw [threads, Function.update_of_ne own])
  | publish u r at_ => exact .of_goes at_ (by rintro _ _ ⟨⟩) rfl rfl
  | notifyReady u r at_ => exact .of_goes at_ (by rintro _ _ ⟨⟩) rfl rfl
  | started u r at_ published => exact .of_goes at_ (by rintro _ _ ⟨⟩) rfl rfl
  | adopt u runs kept first =>
    obtain ⟨loopHolder, threads⟩ := adopt_threads asksMain p u
    have gone : ((p.adopt asksMain u).2.goTo u (.installing (p.adopt asksMain u).1)).threads =
        Function.update p.threads u { p.threads u with
          loopHolder := loopHolder, doing := .installing (p.adopt asksMain u).1 } := by
      unfold goTo setThread
      rw [threads, Function.update_idem, Function.update_self]
    exact .of_goes runs.2 (by rintro _ _ ⟨⟩) (congrFun gone t) rfl
  | install u r at_ => exact .of_goes at_ (by rintro _ _ ⟨⟩) rfl rfl
  | nameFinished u runs gone =>
    refine .elsewhere ?_
    unfold finishedPlaceholder
    split <;> rfl
  | nameMain u runs other =>
    obtain ⟨loopHolder, threads, _⟩ := mainThreadStorage_threads asksMain p u
    exact .of_loop runs ⟨loopHolder, threads⟩
  | nameLoop u runs => exact .of_loop runs (loopForCurrentThread_only p u).threads
  | nameMainLoop u runs => exact .of_loop runs (mainRunloop_only p u).threads
  | perform u r runs made open_ => exact .of_goes runs.2 (by rintro _ _ ⟨⟩) rfl rfl
  | delegate u r at_ =>
    have gone : ((p.performOn (p.records r).loop).goTo u .outside).threads =
        Function.update p.threads u { p.threads u with doing := .outside } := by
      unfold goTo setThread
      rw [performOn_threads]
    exact .of_goes at_ (by rintro _ _ ⟨⟩) (congrFun gone t) rfl
  | cancel r made => exact .elsewhere rfl
  | loop l later made step => exact .elsewhere rfl
  | leave u runs =>
    refine .of_update rfl ?_
    rintro rfl same
    exact .leaves runs.2 same
  | dropLoop u l runs leaving held kept =>
    refine .of_update rfl ?_
    rintro rfl same
    exact .dropsLoop runs.2 same
  | deregister u r runs leaving held kept =>
    refine .of_update rfl ?_
    rintro rfl same
    exact .deregisters r runs.2 leaving same
  | markFinished u r at_ =>
    by_cases own : t = u
    · subst own
      exact .finishes r at_ rfl
    · exact .elsewhere (Function.update_of_ne own _ _)
  | tearDown u r at_ =>
    refine .of_update rfl ?_
    rintro rfl same
    exact .tearsDown r at_ same
  | end_ u runs leaving cleared => exact .of_goes runs.2 (by rintro _ _ ⟨⟩) rfl rfl

/-! ## How a record comes to be finished -/

/-- A thread comes to be past its record in `finish` alone. -/
theorem Step.past (step : Step asksMain p q) {u : Nat} (less : u < p.threadCount)
    (past : (q.threads u).past = true) : (p.threads u).past = true ∨
      ∃ r, (p.threads u).doing = .deregistered r ∧ q = p.markFinished u r := by
  cases step.turns u with
  | elsewhere same => exact Or.inl (same ▸ past)
  | made id doing beyond fresh same => exact absurd less (Nat.not_lt.mpr beyond)
  | begins r runLoop at_ eq =>
    obtain ⟨loopHolder, loop, threads, _⟩ := begin_eq p u r runLoop
    rw [eq, threads, Function.update_self] at past
    refine Or.inl ?_
    simpa [OsThread.past, Doing.finishes, at_] using past
  | goes holder loopHolder doing begun shown same =>
    rw [same, OsThread.past, Doing.finishes_of_hides shown, Bool.or_false] at past
    exact Or.inl (by rw [OsThread.past, past, Bool.true_or])
  | leaves outside same | dropsLoop outside same =>
    rw [same] at past
    exact Or.inl past
  | deregisters r outside leaving same =>
    rw [same] at past
    exact Or.inl (by simpa [OsThread.past, Doing.finishes, outside] using past)
  | finishes r at_ eq => exact Or.inr ⟨r, at_, eq⟩
  | tearsDown r at_ same => exact Or.inl (by simp [OsThread.past, at_, Doing.finishes])

theorem Step.finished (step : Step asksMain p q) (h : p.Sound) (less : r < p.recordCount)
    (finished : (q.records r).finished = true) : (p.records r).finished = true ∨
      ∃ t, (p.threads t).doing = .deregistered r ∧ q = p.markFinished t r := by
  have extends_ := h.extends_step step
  have less' := Nat.lt_of_lt_of_le less extends_.recordCount
  cases own : (p.records r).ofThread with
  | none => exact Or.inl (h.orphan r less own).1.finished
  | some t =>
    obtain ⟨among, fit⟩ := h.fits r less t own
    have own' := (extends_.records r less).ofThread.trans own
    obtain ⟨_, fit'⟩ := (h.step step).fits r less' t own'
    rw [fit'.finished] at finished
    rcases step.past among finished with past | ⟨r', doing, rfl⟩
    · exact Or.inl (fit.finished.trans past)
    · obtain rfl := fit.about r' (by rw [doing]; rfl)
      exact Or.inr ⟨t, doing, rfl⟩

/-! ## Threads on their way out -/

def Leaves (p : Process) : Prop :=
  ∀ u, (p.threads u).ending = true → (p.threads u).leaving = true

theorem Leaves.step (h : p.Leaves) (step : Step asksMain p q) : q.Leaves := by
  intro u ends
  have before := h u
  cases step.turns u with
  | elsewhere same =>
    rw [same] at ends ⊢
    exact before ends
  | made id doing beyond fresh same =>
    rw [same, fresh.2] at ends
    cases ends
  | begins r runLoop at_ eq =>
    obtain ⟨loopHolder, loop, threads, _⟩ := begin_eq p u r runLoop
    rw [eq, threads, Function.update_self] at ends ⊢
    exact before (by simpa [OsThread.ending, at_] using ends)
  | goes holder loopHolder doing begun shown same =>
    rw [same] at ends ⊢
    rw [OsThread.ending_of_hides (by exact shown)] at ends
    refine before ?_
    rw [OsThread.ending, show (p.threads u).tornDown = true from ends]
    rfl
  | leaves outside same => rw [same]
  | dropsLoop outside same =>
    rw [same] at ends ⊢
    exact before ends
  | deregisters r outside leaving same =>
    rw [same]
    exact leaving
  | finishes r at_ eq =>
    rw [eq, show ((p.markFinished u r).threads u).leaving = (p.threads u).leaving by
      simp [Process.markFinished, Process.goTo, setThread, setRecord]]
    exact before (by simp [OsThread.ending, at_])
  | tearsDown r at_ same =>
    rw [same]
    exact before (by simp [OsThread.ending, at_])

theorem Reachable.leaves (h : p.Reachable asksMain) : p.Leaves := by
  refine Transition.Reachable.invariant (P := Leaves) ?_ (fun a b known step => known.step step) h
  rintro a ⟨mainId, rfl⟩ u ends
  cases ends

/-- The thread of a finished record is at its end. -/
theorem Reachable.finished_leaving (h : p.Reachable asksMain) (less : r < p.recordCount)
    (own : (p.records r).ofThread = some t) (finished : (p.records r).finished = true) :
    (p.threads t).leaving = true := by
  refine h.leaves t ?_
  rw [(h.sound.fits r less t own).2.finished, OsThread.past, Bool.or_eq_true] at finished
  rw [OsThread.ending, Bool.or_eq_true]
  refine finished.imp (fun torn => torn) (fun finishes => ?_)
  cases doing : (p.threads t).doing <;> simp_all [Doing.finishes]

/-! ## Waiting for the end -/

variable (asksMain r) in
/-- What `join` and `join_for` wait for, on one record, when some thread calls them: one that
joins itself does not wait, since the flag can only be set after the call returns. -/
def joining : Monitor.Rules Process Nat where
  init := fun p => ∃ mainId, p = initial mainId
  step := Step asksMain
  announces := fun p q => ∃ t, (p.threads t).doing = .deregistered r ∧ q = p.markFinished t r
  admits := fun p caller => r < p.recordCount ∧ caller < p.threadCount
  holds := fun p _ => (p.records r).finished
  waits := fun p caller => ! p.isCurrent caller r

theorem joining_lawful : (joining asksMain r).Lawful where
  admitted := by
    intro p q _ reachable step known
    have h : p.Reachable asksMain := reachable
    have extends_ := h.sound.extends_step step
    exact ⟨Nat.lt_of_lt_of_le known.1 extends_.recordCount,
      Nat.lt_of_lt_of_le known.2 extends_.threadCount⟩
  announced := by
    intro p q _ reachable step known finished
    have h : p.Reachable asksMain := reachable
    exact Step.finished step h.sound known.1 finished

theorem joining_steady : (joining asksMain r).Steady := by
  intro p q _ reachable step known finished
  have h : p.Reachable asksMain := reachable
  exact ((h.sound.extends_step step).records r known.1).finished finished

variable {now : Nat → TimePoint} {run : Nat → Monitor.System Process Nat TimePoint}

/-- A join that waits returns once the thread has ended, however often it is woken before,
and does not return true before; from then on the thread is in no list of threads. One with
a deadline the clock reaches returns in any case. A thread that joins itself is told at once
whether it is finished, and nobody else's patience is cut short. -/
theorem join_ends (h : Monitor.Fair (joining asksMain r) now run) {n i : Nat}
    {call : Monitor.Call Process Nat TimePoint} (at_ : (run n).calls[i]? = some call) :
    (∀ caller patience, ∃ joined,
      ((run n).arrive (joining asksMain r) now caller patience).calls =
          (run n).calls ++ [joined] ∧
        joined.goal = caller ∧
        ((run n).state.isCurrent caller r = true →
          joined.phase = .returned ((run n).state.records r).finished (run n).state) ∧
        ((run n).state.isCurrent caller r = false → joined.patience = patience)) ∧
    (call.phase = .asleep → (run n).owed = 0 → ((run n).state.records r).finished = false) ∧
    (((run n).state.records r).finished = true →
      (∀ answer seen, call.phase ≠ .returned answer seen) →
        ∃ m later seen, n ≤ m ∧ (run m).calls[i]? = some later ∧
          later.phase = .returned true seen) ∧
    (∀ answer seen, call.phase = .returned answer seen →
      (answer = true ↔ (seen.records r).finished = true) ∧
      (answer = true → ((run n).state.records r).finished = true ∧ r ∉ (run n).state.registry) ∧
      (answer = false → call.patience ≠ .forever)) ∧
    ∀ deadline, call.patience = .until_ deadline → (∃ k, ∀ j, k ≤ j → deadline ≤ now j) →
      ∃ m later answer seen, n ≤ m ∧ (run m).calls[i]? = some later ∧
        later.phase = .returned answer seen := by
  obtain ⟨_, sound⟩ := (h.reachable n).sound joining_lawful
  have own := sound call (List.mem_of_getElem? at_)
  refine ⟨fun caller patience => ?_, fun sleeps none => ?_, fun finished waits => ?_,
    fun answer seen returned => ?_, fun deadline timed passes => ?_⟩
  · obtain ⟨joined, calls, goal, allowed, refused⟩ :=
      (run n).arrive_calls (joining asksMain r) now caller patience
    refine ⟨joined, calls, goal, fun current => refused ?_, fun other => ?_⟩
    · simp [joining, current]
    · simpa [Monitor.Rules.allows, joining, other] using allowed
  · by_contra finished
    have := own.woken sleeps (by simpa [joining] using finished)
    omega
  · obtain ⟨m, later, seen, le, found, _, returned⟩ :=
      h.returns joining_lawful joining_steady at_ finished waits
    exact ⟨m, later, seen, le, found, returned⟩
  · obtain ⟨reached, since, known, same, gave⟩ := own.answered answer seen returned
    have reached : seen.Reachable asksMain := reached
    refine ⟨by rw [same]; rfl, fun yes => ?_, fun no forever => ?_⟩
    · exact reached.stays_finished known.1 (same.symm.trans yes) since
    · rcases gave no with never | ⟨deadline, k, timed, _⟩
      · rw [forever] at never
        cases never
      · rw [forever] at timed
        cases timed
  · obtain ⟨m, later, answer, seen, le, found, _, returned⟩ := h.returns_in_time at_ timed passes
    exact ⟨m, later, answer, seen, le, found, returned⟩

def ticking (reads : Nat) : TimePoint := reads

/-- The main thread joins the second one with a deadline, which has just been marked
finished. -/
def awaited : Monitor.System Process Nat TimePoint :=
  { Monitor.System.arrive (joining true 0) ticking ⟨visited, [], 0, 0⟩ 0 (.until_ 5) with
    state := ((visited.setThread 1 { visited.threads 1 with leaving := true }).deregister 1
      0).markFinished 1 0
    owed := 1 }

theorem awaited_reachable : Monitor.Reachable (joining true 0) ticking awaited := by
  have quiet {p q : Process} (open_ : (q.records 0).finished = false) :
      ¬ (joining true 0).announces p q := by
    rintro ⟨t, _, rfl⟩
    have finished : ((p.markFinished t 0).records 0).finished = true := by
      simp [markFinished, setRecord, Process.goTo, setThread]
    rw [finished] at open_
    cases open_
  have start : Monitor.Reachable (joining true 0) ticking ⟨initial 1, [], 0, 0⟩ :=
    Transition.Reachable.start ⟨⟨1, rfl⟩, rfl, rfl⟩
  have created : Step true (initial 1) peopled := .create 2 fun t less _ => by
    obtain rfl : t = 0 := Nat.lt_one_iff.mp less
    decide
  have peopled := Transition.Reachable.next start (.quiet _ created (quiet rfl))
  have adopted := Transition.Reachable.next peopled
    (.quiet _ (.adopt 1 ⟨by decide, rfl⟩ rfl rfl) (quiet rfl))
  have installed := Transition.Reachable.next adopted (.quiet _ (.install 1 0 rfl) (quiet rfl))
  have asked := Transition.Reachable.next installed
    (.arrive 0 (.until_ 5)
      (show 0 < visited.recordCount ∧ 0 < visited.threadCount from ⟨by decide, by decide⟩))
  have left := Transition.Reachable.next asked
    (.quiet _ (.leave 1 ⟨by decide, rfl⟩) (quiet rfl))
  have gone := Transition.Reachable.next left
    (.quiet _ (.deregister 1 0 ⟨by decide, rfl⟩ rfl rfl rfl) (quiet rfl))
  exact Transition.Reachable.next gone (.announce _ (Step.markFinished 1 0 rfl) ⟨1, rfl, rfl⟩)

theorem join_ends_awaited : ∃ m later seen, 0 ≤ m ∧
    (Monitor.settles (joining true 0) ticking awaited 0 (.until_ 5) m).calls[0]? = some later ∧
      later.phase = .returned true seen := by
  have fair : Monitor.Fair (joining true 0) ticking
      (Monitor.settles (joining true 0) ticking awaited 0 (.until_ 5)) :=
    Monitor.settles_fair awaited_reachable rfl rfl rfl
  have at_ : (Monitor.settles (joining true 0) ticking awaited 0 (.until_ 5) 0).calls[0]? =
      some ⟨0, .until_ 5, .asleep⟩ := rfl
  exact (join_ends fair at_).2.2.1 rfl (fun _ _ same => nomatch same)

end Process

end Dross
