import Dross.Thread.ThreadJoins

/-!
# Threads and their loops

A record's loop is the one its thread's other holder keeps, and the two holders go in
either order. What a new thread is promised, and what is left of one that has ended.
-/

namespace Dross

namespace Process

variable {asksMain : Bool} {p q : Process} {t r l : Nat}

/-! ## What a step does to the records there are -/

/-- Nothing but an id may be added to the records there are. -/
structure Frames (p q : Process) : Prop where
  recordCount : p.recordCount ≤ q.recordCount
  records : ∀ r < p.recordCount, (q.records r).loop = (p.records r).loop ∧
    (q.records r).published = (p.records r).published

theorem Frames.refl (p : Process) : p.Frames p := ⟨Nat.le_refl _, fun _ _ => ⟨rfl, rfl⟩⟩

theorem Frames.of_records (records : q.records = p.records)
    (recordCount : q.recordCount = p.recordCount) : p.Frames q :=
  ⟨Nat.le_of_eq recordCount.symm, fun r _ => by rw [records]; exact ⟨rfl, rfl⟩⟩

theorem Frames.added {m : Process} {record : ThreadRecord} (only : LoopsOnly p m t)
    (records : q.records = Function.update m.records m.recordCount record)
    (recordCount : q.recordCount = m.recordCount + 1) : p.Frames q := by
  refine ⟨?_, fun r less => ?_⟩
  · rw [recordCount, only.recordCount]
    exact Nat.le_succ _
  · rw [records, only.recordCount, Function.update_of_ne (Nat.ne_of_lt less), only.records]
    exact ⟨rfl, rfl⟩

theorem mainThreadStorage_frames (p : Process) (t : Nat) :
    p.Frames (p.mainThreadStorage asksMain t).2 := by
  unfold mainThreadStorage
  split
  · exact .refl p
  · exact .added (mainRunloop_only p t) rfl rfl

theorem adopt_frames (p : Process) (t : Nat) : p.Frames (p.adopt asksMain t).2 := by
  unfold adopt
  split
  · have found : p.Frames (p.mainThreadStorage asksMain t).2 := mainThreadStorage_frames p t
    unfold ensureNativeIdKnown
    dsimp only
    split
    · exact found
    · refine ⟨found.recordCount, fun r less => ?_⟩
      have same := found.records r less
      by_cases own : r = (p.mainThreadStorage asksMain t).1
      · rw [← own]
        simp only [setRecord, Function.update_self]
        exact same
      · simp only [setRecord, Function.update_of_ne own]
        exact same
  · exact .added (loopForCurrentThread_only p t) rfl rfl

theorem setRecord_frames {record : ThreadRecord} (loop : record.loop = (p.records r).loop)
    (published : record.published = (p.records r).published) : p.Frames (p.setRecord r record) := by
  refine ⟨Nat.le_refl _, fun r' _ => ?_⟩
  by_cases own : r' = r
  · subst own
    simp only [setRecord, Function.update_self]
    exact ⟨loop, published⟩
  · simp only [setRecord, Function.update_of_ne own]
    exact ⟨trivial, trivial⟩

/-- A record's loop is settled as its thread begins, and it is published just after. -/
theorem Step.frames (step : Step asksMain p q) : p.Frames q ∨
    (∃ t r runLoop, (p.threads t).doing = .beginning r runLoop ∧ q = p.begin_ t r runLoop) ∨
    ∃ t r, (p.threads t).doing = .registered r ∧ q = p.publish t r := by
  cases step with
  | create id unused => exact Or.inl (.of_records rfl rfl)
  | start t id runLoop runs unused =>
    refine Or.inl ⟨Nat.le_succ _, fun r less => ?_⟩
    rw [show (p.start t id runLoop).records r = p.records r from
      Function.update_of_ne (Nat.ne_of_lt less) _ _]
    exact ⟨rfl, rfl⟩
  | begin_ t r runLoop at_ => exact Or.inr (Or.inl ⟨t, r, runLoop, at_, rfl⟩)
  | publish t r at_ => exact Or.inr (Or.inr ⟨t, r, at_, rfl⟩)
  | adopt t runs kept first =>
    have frames : p.Frames (p.adopt asksMain t).2 := adopt_frames p t
    exact Or.inl ⟨frames.recordCount, frames.records⟩
  | nameFinished t runs gone =>
    refine Or.inl ?_
    unfold finishedPlaceholder
    split
    · exact .refl p
    · exact .added (t := t) (.of_threads rfl rfl rfl rfl rfl rfl rfl) rfl rfl
  | nameMain t runs other => exact Or.inl (mainThreadStorage_frames p t)
  | nameLoop t runs =>
    have only := loopForCurrentThread_only p t
    exact Or.inl (.of_records only.records only.recordCount)
  | nameMainLoop t runs =>
    have only := mainRunloop_only p t
    exact Or.inl (.of_records only.records only.recordCount)
  | delegate t r at_ =>
    refine Or.inl ?_
    unfold Process.performOn
    split <;> exact .of_records rfl rfl
  | cancel r made => exact Or.inl (setRecord_frames rfl rfl)
  | markFinished t r at_ =>
    have frames : p.Frames (p.setRecord r { p.records r with finished := true }) :=
      setRecord_frames rfl rfl
    exact Or.inl ⟨frames.recordCount, frames.records⟩
  | _ => exact Or.inl (.of_records rfl rfl)

/-- A thread that has not begun is left alone until it does. -/
theorem Step.unbegun {u : Nat} {runLoop : Bool} (step : Step asksMain p q)
    (less : u < p.threadCount) (at_ : (p.threads u).doing = .beginning r runLoop) :
    q.threads u = p.threads u ∨ q = p.begin_ u r runLoop := by
  cases step.turns u with
  | elsewhere same => exact Or.inl same
  | made id doing beyond fresh same => exact absurd less (Nat.not_lt.mpr beyond)
  | begins r' runLoop' there eq =>
    rw [at_] at there
    cases there
    exact Or.inr eq
  | goes holder loopHolder doing begun shown same => exact absurd at_ (begun r runLoop)
  | leaves there same | dropsLoop there same | deregisters r' there leaving same
  | finishes r' there eq | tearsDown r' there same =>
    rw [at_] at there
    cases there

/-! ## What `start` promises -/

/-- Unless its holder is gone, a thread holds the loop it is given. -/
theorem loopForCurrentThread_holds (up : (p.threads t).loopTornDown = false) :
    ((p.loopForCurrentThread t).2.threads t).loopHolder = some (p.loopForCurrentThread t).1 := by
  unfold Process.loopForCurrentThread
  rw [up, if_neg (by decide)]
  split
  · rename_i l held
    exact held
  · simp [setThread]

/-- The loop a thread's record gets as the thread begins is the one the thread holds. -/
theorem begin_holds {runLoop : Bool} (up : (p.threads t).loopTornDown = false)
    (unknown : (p.records r).loop = none)
    (has : ((p.begin_ t r runLoop).records r).loop = some l) :
    ((p.begin_ t r runLoop).threads t).loopHolder = some l := by
  cases runLoop with
  | false =>
    obtain ⟨_, loop, _, records, given, _⟩ := begin_eq p t r false
    rw [records, Function.update_self] at has
    rw [unknown, show loop = some l from has] at given
    simp at given
  | true =>
    unfold begin_ at has ⊢
    simp only [if_true, goTo, registerSelf, setThread, setRecord, Function.update_self] at has ⊢
    rw [← has]
    exact loopForCurrentThread_holds (by simp [up])

/-- A started thread has not begun, or it has its id, and if it is to run one a loop its
record has too. -/
def Promised (p : Process) (r id : Nat) (runLoop : Bool) : Prop :=
  r < p.recordCount ∧ ∃ t < p.threadCount, (p.records r).ofThread = some t ∧
    (p.threads t).id = id ∧
    (p.threads t = .make id false (.beginning r runLoop) ∧ (p.records r).published = false ∧
      (p.records r).loop = none ∨
    (p.threads t).holder = some r ∧ (p.records r).nativeId = some id ∧
      (p.records r).loop.isSome = runLoop ∧
      ∀ l, (p.records r).loop = some l → (p.threads t).loopHolder = some l)

theorem start_promised (p : Process) (t id : Nat) (runLoop : Bool) :
    (p.start t id runLoop).Promised p.recordCount id runLoop := by
  have thread : (p.start t id runLoop).threads p.threadCount =
      .make id false (.beginning p.recordCount runLoop) := Function.update_self _ _ _
  have record : (p.start t id runLoop).records p.recordCount = .fresh (some p.threadCount) :=
    Function.update_self _ _ _
  refine ⟨Nat.lt_succ_self _, p.threadCount, Nat.lt_succ_self _, ?_⟩
  rw [thread, record]
  exact ⟨rfl, rfl, Or.inl ⟨rfl, rfl, rfl⟩⟩

/-- A thread at work on a record is the record's own. -/
theorem Sound.about_own {u : Nat} (h : p.Sound) (own : (p.records r).ofThread = some t)
    (about : (p.threads u).doing.about = some r) : u = t := by
  have among : u < p.threadCount := h.within rfl (by
    rintro outside
    rw [outside] at about
    cases about)
  obtain ⟨_, own'⟩ := h.claims u among r (Or.inr about)
  exact Option.some.inj (own'.symm.trans own)

/-- Nothing is settled of a record before its thread begins. -/
theorem Step.unbegun_record {runLoop : Bool} (step : Step asksMain p q) (h : p.Sound)
    (less : r < p.recordCount) (own : (p.records r).ofThread = some t)
    (beginning : (p.threads t).doing = .beginning r runLoop) (still : q.threads t = p.threads t) :
    (q.records r).published = (p.records r).published ∧
      (q.records r).loop = (p.records r).loop := by
  rcases step.frames with frames | ⟨u, r', runLoop', at_, rfl⟩ | ⟨u, r', at_, rfl⟩
  · exact (frames.records r less).symm
  · obtain ⟨loopHolder, loop, threads, records, _⟩ := begin_eq p u r' runLoop'
    by_cases mine : r = r'
    · subst mine
      obtain rfl := h.about_own own (by rw [at_]; rfl)
      rw [threads, Function.update_self] at still
      rw [← still] at beginning
      cases beginning
    · rw [records, Function.update_of_ne mine]
      exact ⟨rfl, rfl⟩
  · by_cases mine : r = r'
    · subst mine
      obtain rfl := h.about_own own (by rw [at_]; rfl)
      rw [beginning] at at_
      cases at_
    · rw [show (p.publish u r').records r = p.records r from Function.update_of_ne mine _ _]
      exact ⟨rfl, rfl⟩

/-- The loop of a record is settled once its thread has the record for its own. -/
theorem Step.held_loop (step : Step asksMain p q) (h : p.Sound) (less : r < p.recordCount)
    (own : (p.records r).ofThread = some t) (holder : (p.threads t).holder = some r) :
    (q.records r).loop = (p.records r).loop := by
  rcases step.frames with frames | ⟨u, r', runLoop', at_, rfl⟩ | ⟨u, r', at_, rfl⟩
  · exact (frames.records r less).1
  · obtain ⟨loopHolder, loop, threads, records, _⟩ := begin_eq p u r' runLoop'
    by_cases mine : r = r'
    · subst mine
      obtain rfl := h.about_own own (by rw [at_]; rfl)
      have bare := (h.coherent u (h.fits r less u own).1).bare (by rw [at_]; rfl)
      rw [holder] at bare
      cases bare
    · rw [records, Function.update_of_ne mine]
  · by_cases mine : r = r'
    · subst mine
      simp [Process.publish, Process.goTo, setRecord, setThread]
    · simp [Process.publish, Process.goTo, setRecord, setThread, mine]

theorem Promised.step {id : Nat} {runLoop : Bool} (promised : p.Promised r id runLoop)
    (h : p.Sound) (step : Step asksMain p q) : q.Promised r id runLoop := by
  obtain ⟨less, t, among, own, same, stage⟩ := promised
  have extends_ := h.extends_step step
  have later := extends_.records r less
  have thread := extends_.threads t among
  refine ⟨Nat.lt_of_lt_of_le less extends_.recordCount, t,
    Nat.lt_of_lt_of_le among extends_.threadCount, later.ofThread.trans own, thread.id.trans same, ?_⟩
  rcases stage with ⟨made, unpublished, unknown⟩ | ⟨holder, named, loop, held⟩
  · have beginning : (p.threads t).doing = .beginning r runLoop := by rw [made]; rfl
    rcases step.unbegun among beginning with still | rfl
    · obtain ⟨published, loop⟩ := step.unbegun_record h less own beginning still
      exact Or.inl ⟨still.trans made, published.trans unpublished, loop.trans unknown⟩
    · have holds (l : Nat) := @begin_holds p t r l runLoop (by rw [made]; rfl) unknown
      obtain ⟨loopHolder, loop, threads, records, given, _⟩ := begin_eq p t r runLoop
      refine Or.inr ⟨?_, ?_, ?_, holds⟩
      · rw [threads, Function.update_self]
      · rw [records, Function.update_self, same]
      · rw [records, Function.update_self]
        rw [unknown] at given
        cases runLoop <;> simp_all
  · have kept := step.held_loop h less own holder
    refine Or.inr ⟨thread.holder r holder, later.nativeId id named, ?_, fun l has => ?_⟩
    · rw [kept]
      exact loop
    · rw [kept] at has
      exact thread.loopHolder l (held l has)

/-- Once `start` has returned, in every later state, the new thread's id and the loop it holds
are known from its handle, whatever it has done since; and it is listed unless it has begun to
end. -/
theorem start_publishes {id : Nat} {runLoop : Bool} (h : p.Reachable asksMain) (runs : p.Runs t)
    (unused : p.Unused id)
    (run : Relation.ReflTransGen (Step asksMain) (p.start t id runLoop) q)
    (published : (q.records p.recordCount).published = true) :
    (q.records p.recordCount).nativeId = some id ∧
      (q.records p.recordCount).loop.isSome = runLoop ∧
      ∃ u < q.threadCount, (q.threads u).id = id ∧ (q.threads u).holder = some p.recordCount ∧
        (∀ l, (q.records p.recordCount).loop = some l → (q.threads u).loopHolder = some l) ∧
        (p.recordCount ∉ q.registry → (q.threads u).tornDown = true ∨
          (q.threads u).doing = .deregistered p.recordCount ∨
            (q.threads u).doing = .finishing p.recordCount) := by
  have started : Reachable asksMain (p.start t id runLoop) :=
    Transition.Reachable.next h (.start t id runLoop runs unused)
  have kept : q.Promised p.recordCount id runLoop ∧ q.Sound := by
    refine Transition.preserved (P := fun q => q.Promised p.recordCount id runLoop ∧ q.Sound)
      (fun a b known step => ⟨known.1.step known.2 step, known.2.step step⟩) ?_ run
    exact ⟨start_promised p t id runLoop, started.sound⟩
  obtain ⟨⟨less, u, among, own, same, stage⟩, sound⟩ := kept
  rcases stage with ⟨_, unpublished, _⟩ | ⟨holder, named, loop, held⟩
  · rw [published] at unpublished
    cases unpublished
  · refine ⟨named, loop, u, among, same, holder, held, fun unlisted => ?_⟩
    rw [(sound.listed_of among holder).1, OsThread.shows, Bool.and_eq_true, Bool.not_eq_true',
      Bool.not_eq_true'] at unlisted
    have about := (sound.fits p.recordCount less u own).2.about
    cases torn : (q.threads u).tornDown with
    | true => exact Or.inl rfl
    | false =>
      refine Or.inr ?_
      cases doing : (q.threads u).doing with
      | beginning r runLoop' =>
        have bare := (sound.coherent u among).bare (by rw [doing]; rfl)
        rw [holder] at bare
        cases bare
      | deregistered r =>
        rw [about r (by rw [doing]; rfl)]
        exact Or.inl rfl
      | finishing r =>
        rw [about r (by rw [doing]; rfl)]
        exact Or.inr rfl
      | _ =>
        rw [doing, torn] at unlisted
        exact absurd ⟨rfl, rfl⟩ unlisted

/-- The main thread's first loop thread, published. -/
def published : Process := (((initial 1).start 0 2 true).begin_ 1 0 true).publish 1 0

theorem start_publishes_published : (published.records 0).nativeId = some 2 ∧
    (published.records 0).loop = some 0 ∧ ∃ u < published.threadCount,
      (published.threads u).holder = some 0 ∧ (published.threads u).loopHolder = some 0 := by
  have start : (initial 1).Reachable true := Transition.Reachable.start ⟨1, rfl⟩
  have unused : (initial 1).Unused 2 := fun t less _ => by
    obtain rfl : t = 0 := Nat.lt_one_iff.mp less
    decide
  have run : Relation.ReflTransGen (Step true) ((initial 1).start 0 2 true) published :=
    (Relation.ReflTransGen.single (.begin_ 1 0 true rfl)).tail (.publish 1 0 rfl)
  obtain ⟨named, _, u, among, _, holder, held, _⟩ :=
    start_publishes start ⟨by decide, rfl⟩ unused run rfl
  exact ⟨named, rfl, u, among, holder, held 0 rfl⟩

/-! ## Loops of threads that have ended -/

/-- A finished loop is empty, the loop of a torn-down holder is finished, and a record's loop
is the one its thread holds unless it is finished. -/
structure LoopsSound (p : Process) : Prop where
  emptied : ∀ l < p.loopCount, (p.loops l).finished = true →
    (p.loops l).pending = [] ∧ (p.loops l).timers = []
  held : ∀ t < p.threadCount, ∀ l, (p.threads t).loopHolder = some l → l < p.loopCount ∧
    ((p.threads t).loopTornDown = true → (p.loops l).finished = true)
  main : ∀ l, p.mainLoop = some l → l < p.loopCount
  placeholder : ∀ l, p.loopPlaceholder = some l → l < p.loopCount ∧ (p.loops l).finished = true
  records : ∀ r < p.recordCount, ∀ l, (p.records r).loop = some l → l < p.loopCount ∧
    ((p.records r).isMain = false → ∀ t, (p.records r).ofThread = some t →
      (p.threads t).loopHolder = some l ∨ (p.loops l).finished = true)

/-- A thread keeps the loop it holds. -/
theorem LoopsSound.keepThread {thread : OsThread} (h : p.LoopsSound)
    (holder : thread.loopHolder = (p.threads t).loopHolder)
    (torn : thread.loopTornDown = (p.threads t).loopTornDown) :
    (p.setThread t thread).LoopsSound := by
  have kept (u : Nat) : ((p.setThread t thread).threads u).loopHolder =
      (p.threads u).loopHolder ∧
        ((p.setThread t thread).threads u).loopTornDown = (p.threads u).loopTornDown := by
    by_cases same : u = t
    · subst same
      simp only [Process.setThread, Function.update_self]
      exact ⟨holder, torn⟩
    · simp [Process.setThread, same]
  refine ⟨h.emptied, fun u less l held => ?_, h.main, h.placeholder, fun r less l has => ?_⟩
  · rw [(kept u).1] at held
    rw [(kept u).2]
    exact h.held u less l held
  · obtain ⟨made, holds⟩ := h.records r less l has
    refine ⟨made, fun other u of_ => ?_⟩
    rw [(kept u).1]
    exact holds other u of_

theorem LoopsSound.goTo (h : p.LoopsSound) (doing : Doing) : (p.goTo t doing).LoopsSound :=
  h.keepThread rfl rfl

/-- A record keeps its loop and the thread it is of. -/
theorem LoopsSound.keepRecord {r : Nat} {record : ThreadRecord} (h : p.LoopsSound)
    (loop : record.loop = (p.records r).loop) (isMain : record.isMain = (p.records r).isMain)
    (own : record.ofThread = (p.records r).ofThread) : (p.setRecord r record).LoopsSound := by
  refine ⟨h.emptied, h.held, h.main, h.placeholder, fun r' less l has => ?_⟩
  by_cases same : r' = r
  · subst same
    simp only [Process.setRecord, Function.update_self] at has ⊢
    rw [loop] at has
    rw [isMain, own]
    exact h.records r' less l has
  · simp only [Process.setRecord, Function.update_of_ne same] at has ⊢
    exact h.records r' less l has

/-- A thread more, that holds no loop. -/
theorem LoopsSound.addThread {thread : OsThread} (h : p.LoopsSound)
    (none : thread.loopHolder = none)
    (apart : ∀ r < p.recordCount, ∀ l, (p.records r).loop = some l →
      (p.records r).ofThread ≠ some p.threadCount) :
    LoopsSound { p with
      threads := Function.update p.threads p.threadCount thread
      threadCount := p.threadCount + 1 } := by
  refine ⟨h.emptied, fun u less l held => ?_, h.main, h.placeholder, fun r less l has => ?_⟩
  · by_cases new : u = p.threadCount
    · subst new
      simp only [Function.update_self, none] at held
      cases held
    · simp only [Function.update_of_ne new] at held ⊢
      replace less : u < p.threadCount + 1 := less
      exact h.held u (by omega) l held
  · obtain ⟨made, holds⟩ := h.records r less l has
    refine ⟨made, fun other u of_ => ?_⟩
    have old : u ≠ p.threadCount := by
      rintro rfl
      exact apart r less l has of_
    simp only [Function.update_of_ne old]
    exact holds other u of_

/-- A loop more, that nobody holds yet. -/
theorem LoopsSound.makeLoop (h : p.LoopsSound) {loop : Loop}
    (emptied : loop.finished = true → loop.pending = [] ∧ loop.timers = []) :
    (p.makeLoop loop).2.LoopsSound := by
  have old {l : Nat} (less : l < p.loopCount) :
      Function.update p.loops p.loopCount loop l = p.loops l :=
    Function.update_of_ne (Nat.ne_of_lt less) _ _
  refine ⟨fun l less finished => ?_, fun t among l held => ?_, fun l known => ?_,
    fun l known => ?_, fun r less l has => ?_⟩
  · simp only [Process.makeLoop] at less finished ⊢
    by_cases new : l = p.loopCount
    · subst new
      rw [Function.update_self] at finished ⊢
      exact emptied finished
    · rw [old (by omega)] at finished ⊢
      exact h.emptied l (by omega) finished
  · obtain ⟨less, torn⟩ := h.held t among l held
    refine ⟨Nat.lt_succ_of_lt less, fun down => ?_⟩
    simp only [Process.makeLoop, old less]
    exact torn down
  · exact Nat.lt_succ_of_lt (h.main l known)
  · obtain ⟨less, finished⟩ := h.placeholder l known
    refine ⟨Nat.lt_succ_of_lt less, ?_⟩
    simp only [Process.makeLoop, old less]
    exact finished
  · obtain ⟨made, holds⟩ := h.records r less l has
    refine ⟨Nat.lt_succ_of_lt made, fun other t of_ => ?_⟩
    simp only [Process.makeLoop, old made]
    exact holds other t of_

theorem LoopsSound.mainLoopStorage (h : p.LoopsSound) :
    p.mainLoopStorage.2.LoopsSound ∧ p.mainLoopStorage.1 < p.mainLoopStorage.2.loopCount := by
  unfold Process.mainLoopStorage
  split
  · rename_i l known
    exact ⟨h, h.main l known⟩
  · have made : (p.makeLoop Loop.initial).2.LoopsSound := h.makeLoop (fun eq => nomatch eq)
    refine ⟨⟨made.emptied, made.held, fun l known => ?_, made.placeholder, made.records⟩,
      Nat.lt_succ_self _⟩
    obtain rfl := Option.some.inj known
    exact Nat.lt_succ_self _

theorem LoopsSound.finishedLoop (h : p.LoopsSound) : p.finishedLoop.2.LoopsSound ∧
    p.finishedLoop.1 < p.finishedLoop.2.loopCount ∧
      (p.finishedLoop.2.loops p.finishedLoop.1).finished = true := by
  unfold Process.finishedLoop
  split
  · rename_i l known
    exact ⟨h, h.placeholder l known⟩
  · have made : (p.makeLoop Loop.initial.finish).2.LoopsSound :=
      h.makeLoop (fun _ => ⟨rfl, rfl⟩)
    have finished : ((p.makeLoop Loop.initial.finish).2.loops p.loopCount).finished = true := by
      simp [Process.makeLoop, Loop.finish]
    refine ⟨⟨made.emptied, made.held, made.main, fun l known => ?_, made.records⟩,
      Nat.lt_succ_self _, finished⟩
    obtain rfl := Option.some.inj known
    exact ⟨Nat.lt_succ_self _, finished⟩

/-- A thread with no loop comes to hold one. -/
theorem LoopsSound.hold (h : p.LoopsSound) (up : (p.threads t).loopTornDown = false)
    (none : (p.threads t).loopHolder = none) (made : l < p.loopCount) :
    (p.setThread t { p.threads t with loopHolder := some l }).LoopsSound := by
  refine ⟨h.emptied, fun u among l' held => ?_, h.main, h.placeholder, fun r less l' has => ?_⟩
  · by_cases same : u = t
    · subst same
      simp only [setThread, Function.update_self] at held ⊢
      obtain rfl := Option.some.inj held
      exact ⟨made, fun down => by rw [up] at down; cases down⟩
    · simp only [setThread, Function.update_of_ne same] at held ⊢
      exact h.held u among l' held
  · obtain ⟨made', holds⟩ := h.records r less l' has
    refine ⟨made', fun other u of_ => ?_⟩
    rcases holds other u of_ with holder | finished
    · refine Or.inl ?_
      have different : u ≠ t := by
        rintro rfl
        rw [none] at holder
        cases holder
      simp only [setThread, Function.update_of_ne different]
      exact holder
    · exact Or.inr finished

theorem LoopsSound.loopForCurrentThread (h : p.LoopsSound) (among : t < p.threadCount) :
    (p.loopForCurrentThread t).2.LoopsSound ∧
      (p.loopForCurrentThread t).1 < (p.loopForCurrentThread t).2.loopCount ∧
      (((p.loopForCurrentThread t).2.threads t).loopHolder =
          some (p.loopForCurrentThread t).1 ∨
        ((p.loopForCurrentThread t).2.loops (p.loopForCurrentThread t).1).finished = true) := by
  unfold Process.loopForCurrentThread
  split
  · obtain ⟨sound, made, finished⟩ := h.finishedLoop
    exact ⟨sound, made, Or.inr finished⟩
  · rename_i up
    split
    · rename_i l held
      exact ⟨h, (h.held t among l held).1, Or.inl held⟩
    · rename_i none
      have made : (if (p.threads t).isMain then p.mainLoopStorage
            else p.makeLoop Loop.initial).2.LoopsSound ∧
          (if (p.threads t).isMain then p.mainLoopStorage else p.makeLoop Loop.initial).1 <
            (if (p.threads t).isMain then p.mainLoopStorage
              else p.makeLoop Loop.initial).2.loopCount := by
        split
        · exact h.mainLoopStorage
        · exact ⟨h.makeLoop (fun eq => nomatch eq), Nat.lt_succ_self _⟩
      have same : (if (p.threads t).isMain then p.mainLoopStorage
          else p.makeLoop Loop.initial).2.threads = p.threads := by
        split
        · exact mainLoopStorage_threads p
        · rfl
      refine ⟨made.1.hold ?_ ?_ made.2, made.2, Or.inl ?_⟩
      · rw [same]
        exact Bool.eq_false_iff.mpr up
      · rw [same]
        exact none
      · simp [setThread]

theorem LoopsSound.mainRunloop (h : p.LoopsSound) (among : t < p.threadCount) :
    (p.mainRunloop t).2.LoopsSound ∧ (p.mainRunloop t).1 < (p.mainRunloop t).2.loopCount := by
  unfold Process.mainRunloop
  split
  · obtain ⟨sound, made, _⟩ := h.loopForCurrentThread among
    exact ⟨sound, made⟩
  · exact h.mainLoopStorage

/-- A record more, with a loop its thread holds or one that is finished. -/
theorem LoopsSound.addRecord {record : ThreadRecord} {registry : List Nat} {main : Option Nat}
    (h : p.LoopsSound) (made : ∀ l, record.loop = some l → l < p.loopCount ∧
      (record.isMain = false → ∀ t, record.ofThread = some t →
        (p.threads t).loopHolder = some l ∨ (p.loops l).finished = true)) :
    LoopsSound { p with
      records := Function.update p.records p.recordCount record
      recordCount := p.recordCount + 1
      registry := registry
      main := main } := by
  refine ⟨h.emptied, h.held, h.main, h.placeholder, fun r less l has => ?_⟩
  by_cases new : r = p.recordCount
  · subst new
    simp only [Function.update_self] at has ⊢
    exact made l has
  · simp only [Function.update_of_ne new] at has ⊢
    refine h.records r ?_ l has
    replace less : r < p.recordCount + 1 := less
    omega

theorem LoopsSound.mainThreadStorage (h : p.LoopsSound) (among : t < p.threadCount) :
    (p.mainThreadStorage asksMain t).2.LoopsSound := by
  unfold Process.mainThreadStorage
  split
  · exact h
  · obtain ⟨sound, made⟩ := h.mainRunloop among
    refine sound.addRecord ?_
    intro l has
    obtain rfl := Option.some.inj has
    exact ⟨made, fun other => nomatch other⟩

theorem LoopsSound.ensureNativeIdKnown (h : p.LoopsSound) (r t : Nat) :
    (p.ensureNativeIdKnown r t).LoopsSound := by
  unfold Process.ensureNativeIdKnown
  split
  · exact h
  · exact h.keepRecord rfl rfl rfl

theorem LoopsSound.adopt (h : p.LoopsSound) (runs : p.Runs t) :
    (p.adopt asksMain t).2.LoopsSound := by
  unfold Process.adopt
  split
  · exact (h.mainThreadStorage runs.1).ensureNativeIdKnown _ _
  · obtain ⟨made, less, holds⟩ := h.loopForCurrentThread runs.1
    refine made.addRecord ?_
    intro l has
    obtain rfl := Option.some.inj has
    refine ⟨less, fun _ u own => ?_⟩
    obtain rfl := Option.some.inj own
    exact holds

/-- A record's own thread is given its loop. -/
theorem LoopsSound.giveLoop (h : p.LoopsSound) (own : (p.records r).ofThread = some t)
    (made : l < p.loopCount)
    (holds : (p.threads t).loopHolder = some l ∨ (p.loops l).finished = true) :
    (p.setRecord r { p.records r with loop := some l }).LoopsSound := by
  refine ⟨h.emptied, h.held, h.main, h.placeholder, fun r' less l' has => ?_⟩
  by_cases same : r' = r
  · subst same
    simp only [setRecord, Function.update_self] at has ⊢
    obtain rfl := Option.some.inj has
    refine ⟨made, fun _ u of_ => ?_⟩
    obtain rfl := Option.some.inj (own.symm.trans of_)
    exact holds
  · simp only [setRecord, Function.update_of_ne same] at has ⊢
    exact h.records r' less l' has

theorem LoopsSound.begin_ {runLoop : Bool} (h : p.LoopsSound) (sound : p.Sound)
    (among : t < p.threadCount) (at_ : (p.threads t).doing = .beginning r runLoop) :
    (p.begin_ t r runLoop).LoopsSound := by
  obtain ⟨less, own⟩ := sound.claims t among r (Or.inr (by rw [at_]; rfl))
  obtain ⟨m, eq⟩ : ∃ m, m = (p.setThread t { p.threads t with holder := some r }).setRecord r
      { (p.setThread t { p.threads t with holder := some r }).records r with
        nativeId := some (p.threads t).id } := ⟨_, rfl⟩
  have held : (p.setThread t { p.threads t with holder := some r }).LoopsSound :=
    h.keepThread rfl rfl
  have named : m.LoopsSound := by
    rw [eq]
    exact held.keepRecord rfl rfl rfl
  have among' : t < m.threadCount := by
    rw [eq]
    exact among
  have own' : (m.records r).ofThread = some t := by
    rw [eq]
    simp [setRecord, setThread, own]
  have looped : (if runLoop then
      (m.loopForCurrentThread t).2.setRecord r { (m.loopForCurrentThread t).2.records r with
        loop := some (m.loopForCurrentThread t).1 } else m).LoopsSound := by
    split
    · obtain ⟨made, less, holds⟩ := named.loopForCurrentThread among'
      refine made.giveLoop ?_ less holds
      rw [(loopForCurrentThread_only m t).records]
      exact own'
    · exact named
  -- registering the record and going on touches no loop
  have begun : p.begin_ t r runLoop = ((if runLoop then
      (m.loopForCurrentThread t).2.setRecord r { (m.loopForCurrentThread t).2.records r with
        loop := some (m.loopForCurrentThread t).1 } else m).registerSelf r).goTo t
          (.registered r) := by
    rw [eq]
    rfl
  rw [begun]
  generalize (if runLoop then
      (m.loopForCurrentThread t).2.setRecord r { (m.loopForCurrentThread t).2.records r with
        loop := some (m.loopForCurrentThread t).1 } else m) = n at looped
  have registered : (n.registerSelf r).LoopsSound :=
    ⟨looped.emptied, looped.held, looped.main, looped.placeholder, looped.records⟩
  exact registered.goTo _

/-- A loop goes on, or is finished. -/
theorem LoopsSound.setLoop {loop : Loop} (h : p.LoopsSound)
    (kept : l < p.loopCount → (p.loops l).finished = true → loop.finished = true)
    (emptied : l < p.loopCount → loop.finished = true → loop.pending = [] ∧ loop.timers = []) :
    (p.setLoop l loop).LoopsSound := by
  have finished {l' : Nat} (less : l' < p.loopCount) (was : (p.loops l').finished = true) :
      (Function.update p.loops l loop l').finished = true := by
    by_cases same : l' = l
    · subst same
      rw [Function.update_self]
      exact kept less was
    · rw [Function.update_of_ne same]
      exact was
  refine ⟨fun l' less done => ?_, fun t among l' held => ?_, h.main, fun l' known => ?_,
    fun r less l' has => ?_⟩
  · by_cases same : l' = l
    · subst same
      simp only [Process.setLoop, Function.update_self] at done ⊢
      exact emptied less done
    · simp only [Process.setLoop, Function.update_of_ne same] at done ⊢
      exact h.emptied l' less done
  · obtain ⟨made, torn⟩ := h.held t among l' held
    exact ⟨made, fun down => finished made (torn down)⟩
  · obtain ⟨made, done⟩ := h.placeholder l' known
    exact ⟨made, finished made done⟩
  · obtain ⟨made, holds⟩ := h.records r less l' has
    refine ⟨made, fun other t of_ => ?_⟩
    exact (holds other t of_).imp (fun holder => holder) (finished made)

/-- What anyone may do to a loop leaves a finished one finished, and empty. -/
theorem LoopStep.kept {loop later : Loop} (step : LoopStep loop later)
    (emptied : loop.finished = true → loop.pending = [] ∧ loop.timers = []) :
    (loop.finished = true → later.finished = true) ∧
      (later.finished = true → later.pending = [] ∧ later.timers = []) := by
  cases step with
  | enqueue =>
    unfold Loop.enqueue
    split
    · exact ⟨fun eq => eq, emptied⟩
    · rename_i open_
      exact ⟨fun eq => absurd eq open_, fun eq => absurd eq open_⟩
  | quit => exact ⟨fun eq => eq, emptied⟩
  | clear => exact ⟨fun eq => eq, fun eq => ⟨rfl, (emptied eq).2⟩⟩
  | serve later kept fewer timers =>
    refine ⟨fun eq => kept.trans eq, fun eq => ?_⟩
    obtain ⟨pending, timers'⟩ := emptied (kept.symm.trans eq)
    rw [pending] at fewer
    exact ⟨List.suffix_nil.mp fewer, timers timers'⟩
  | installTimer which =>
    unfold Loop.installTimer
    split
    · exact ⟨fun eq => eq, emptied⟩
    · rename_i open_
      exact ⟨fun eq => absurd eq open_, fun eq => absurd eq open_⟩

theorem LoopsSound.dropLoop (h : p.LoopsSound) (among : t < p.threadCount)
    (held : (p.threads t).loopHolder = some l) : (p.dropLoop t l).LoopsSound := by
  have finished : (p.setLoop l (p.loops l).finish).LoopsSound :=
    h.setLoop (fun _ _ => rfl) (fun _ _ => ⟨rfl, rfl⟩)
  have done : ((p.setLoop l (p.loops l).finish).loops l).finished = true := by
    simp [Process.setLoop, Loop.finish]
  refine ⟨finished.emptied, fun u less l' holder => ?_, finished.main, finished.placeholder,
    fun r less l' has => ?_⟩
  · by_cases same : u = t
    · subst same
      simp only [Process.dropLoop, Process.setLoop, setThread, Function.update_self] at holder
      obtain rfl := Option.some.inj (held.symm.trans holder)
      exact ⟨(h.held u among l held).1, fun _ => done⟩
    · simp only [Process.dropLoop, Process.setLoop, setThread, Function.update_of_ne same] at holder ⊢
      exact finished.held u less l' holder
  · obtain ⟨made, holds⟩ := finished.records r less l' has
    refine ⟨made, fun other u of_ => ?_⟩
    rcases holds other u of_ with holder | done
    · refine Or.inl ?_
      by_cases same : u = t
      · subst same
        simp only [Process.dropLoop, Process.setLoop, setThread, Function.update_self]
        exact holder
      · simp only [Process.dropLoop, Process.setLoop, setThread, Function.update_of_ne same]
        exact holder
    · exact Or.inr done

theorem LoopsSound.step (h : p.LoopsSound) (sound : p.Sound) (step : Step asksMain p q) :
    q.LoopsSound := by
  have apart : ∀ r < p.recordCount, ∀ l, (p.records r).loop = some l →
      (p.records r).ofThread ≠ some p.threadCount := by
    intro r less _ _ own
    exact Nat.lt_irrefl _ (sound.fits r less _ own).1
  cases step with
  | create id unused => exact h.addThread rfl apart
  | start t id runLoop runs unused =>
    have record : (p.makeRecord (.fresh (some p.threadCount))).2.LoopsSound :=
      h.addRecord (by rintro l ⟨⟩)
    refine (record.goTo (t := t) (.starting p.recordCount)).addThread rfl
      (fun r less l has => ?_)
    by_cases new : r = p.recordCount
    · subst new
      simp [Process.goTo, Process.setThread, Process.makeRecord, ThreadRecord.fresh] at has
    · replace less : r < p.recordCount + 1 := less
      simp only [Process.goTo, Process.setThread, Process.makeRecord,
        Function.update_of_ne new] at has ⊢
      exact apart r (by omega) l has
  | begin_ t r runLoop at_ => exact h.begin_ sound (sound.within at_ (by rintro ⟨⟩)) at_
  | publish t r at_ =>
    have published : (p.setRecord r { p.records r with published := true }).LoopsSound :=
      h.keepRecord rfl rfl rfl
    exact published.goTo _
  | notifyReady t r at_ => exact h.keepThread rfl rfl
  | started t r at_ published => exact h.keepThread rfl rfl
  | adopt t runs kept first => exact (h.adopt runs).goTo _
  | install t r at_ => exact h.keepThread rfl rfl
  | nameFinished t runs gone =>
    unfold finishedPlaceholder
    split
    · exact h
    · have added : LoopsSound { p with
          records := Function.update p.records p.recordCount
            { ThreadRecord.fresh none with finished := true }
          recordCount := p.recordCount + 1
          registry := p.registry
          main := p.main } := h.addRecord (by rintro l ⟨⟩)
      exact ⟨added.emptied, added.held, added.main, added.placeholder, added.records⟩
  | nameMain t runs other => exact h.mainThreadStorage runs.1
  | nameLoop t runs => exact (h.loopForCurrentThread runs.1).1
  | nameMainLoop t runs => exact (h.mainRunloop runs.1).1
  | perform t r runs made open_ => exact h.keepThread rfl rfl
  | delegate t r at_ =>
    unfold Process.performOn
    split
    · rename_i l has
      have enqueued : (p.setLoop l (p.loops l).enqueue).LoopsSound :=
        h.setLoop (fun made => (LoopStep.enqueue.kept (h.emptied l made)).1)
          (fun made => (LoopStep.enqueue.kept (h.emptied l made)).2)
      exact enqueued.goTo .outside
    · exact h.keepThread rfl rfl
  | cancel r made => exact h.keepRecord rfl rfl rfl
  | loop l later made step =>
    obtain ⟨kept, emptied⟩ := LoopStep.kept step (h.emptied l made)
    exact h.setLoop (fun _ => kept) (fun _ => emptied)
  | leave t runs => exact h.keepThread rfl rfl
  | dropLoop t l runs leaving held kept => exact h.dropLoop runs.1 held
  | deregister t r runs leaving held kept =>
    have going : (p.goTo t (.deregistered r)).LoopsSound := h.keepThread rfl rfl
    exact ⟨going.emptied, going.held, going.main, going.placeholder, going.records⟩
  | markFinished t r at_ =>
    have finished : (p.setRecord r { p.records r with finished := true }).LoopsSound :=
      h.keepRecord rfl rfl rfl
    exact finished.goTo _
  | tearDown t r at_ => exact h.keepThread rfl rfl
  | end_ t runs leaving cleared => exact h.keepThread rfl rfl

theorem Reachable.loopsSound (h : p.Reachable asksMain) : p.LoopsSound := by
  have both := Transition.Reachable.invariant (P := fun p => p.LoopsSound ∧ p.Sound)
    ?_ (fun a b known step => ⟨known.1.step known.2 step, known.2.step step⟩) h
  · exact both.1
  · rintro a ⟨mainId, rfl⟩
    refine ⟨⟨?_, ?_, ?_, ?_, ?_⟩, initial_sound mainId⟩
    · exact fun l less => absurd less (Nat.not_lt_zero l)
    · exact fun t _ l held => nomatch held
    · exact fun l known => nomatch known
    · exact fun l known => nomatch known
    · exact fun r less => absurd less (Nat.not_lt_zero r)

/-- When a thread other than the main one has ended, its record is finished and unlisted, and
its loop is finished and holds nothing; so a `perform` that saw the record unfinished before
still leaves nothing behind. -/
theorem ended_strands_nothing (h : p.Reachable asksMain) (less : r < p.recordCount)
    (own : (p.records r).ofThread = some t) (other : (p.records r).isMain = false)
    (ended : (p.threads t).doing = .ended) :
    (p.records r).finished = true ∧ r ∉ p.registry ∧
      ∀ l, (p.records r).loop = some l → (p.loops l).finished = true ∧
        (p.loops l).pending = [] ∧ (p.loops l).timers = [] ∧
        p.setLoop l (p.loops l).enqueue = p := by
  have loops := h.loopsSound
  have among := (h.sound.fits r less t own).1
  have finished : (p.records r).finished = true := by
    by_contra open_
    rw [Bool.not_eq_true] at open_
    have main := h.sound.ended_finished less own ended open_
    rw [other] at main
    cases main
  refine ⟨finished, h.sound.finished_unlisted less finished, fun l has => ?_⟩
  obtain ⟨made, holds⟩ := loops.records r less l has
  have down : (p.loops l).finished = true := by
    rcases holds other t own with held | down
    · obtain ⟨_, torn⟩ := loops.held t among l held
      refine torn (((h.sound.coherent t among).ended ended).2.resolve_left ?_)
      rw [held]
      simp
    · exact down
  obtain ⟨pending, timers⟩ := loops.emptied l made down
  refine ⟨down, pending, timers, ?_⟩
  rw [Loop.enqueue, if_pos down]
  exact congrArg (fun loops => { p with loops := loops }) (Function.update_eq_self l p.loops)

theorem ended_strands_nothing_departed :
    (((departed.dropLoop 1 0).goTo 1 .ended).loops 0).pending = [] ∧
      ((departed.dropLoop 1 0).goTo 1 .ended).setLoop 0
        (((departed.dropLoop 1 0).goTo 1 .ended).loops 0).enqueue =
          (departed.dropLoop 1 0).goTo 1 .ended := by
  have reached : departed.Reachable true :=
    Transition.Reachable.later visited_reachable visited_departs
  have dropped := Transition.Reachable.next reached (.dropLoop 1 0 ⟨by decide, rfl⟩ rfl rfl rfl)
  have ended := Transition.Reachable.next dropped
    (.end_ 1 ⟨by decide, rfl⟩ rfl ⟨Or.inr rfl, Or.inr rfl⟩)
  have less : 0 < ((departed.dropLoop 1 0).goTo 1 .ended).recordCount := by decide
  obtain ⟨_, _, loops⟩ := ended_strands_nothing ended less rfl rfl rfl
  obtain ⟨_, pending, _, same⟩ := loops 0 rfl
  exact ⟨pending, same⟩

end Process

end Dross
