import Dross.Thread.ThreadSteps

/-!
# The registry of threads

What holds of the records, the registry and the holders in every run, and what a run only
adds to.
-/

namespace Dross

namespace Process

variable {asksMain : Bool} {p q : Process} {t : Nat}

theorem initial_sound (mainId : Nat) : (initial mainId).Sound where
  nodup := List.nodup_nil
  made := fun _ mem => nomatch mem
  some_thread := Nat.one_pos
  beyond := fun _ _ => rfl
  isMain := by
    intro t less
    simp [initial, OsThread.make]
  coherent := fun _ _ => ⟨fun _ => rfl, (fun _ eq => nomatch eq), (fun eq => nomatch eq),
    (fun eq => nomatch eq)⟩
  claims := by
    rintro t _ r (eq | eq) <;> cases eq
  fits := fun _ less => absurd less (Nat.not_lt_zero _)
  orphan := fun _ less => absurd less (Nat.not_lt_zero _)
  main := fun _ => ⟨(fun eq => nomatch eq), fun both => absurd both.1 (Nat.not_lt_zero _)⟩
  mainThread := fun _ less => absurd less (Nat.not_lt_zero _)
  placeholder := fun _ eq => nomatch eq
  unique := fun _ less => absurd less (Nat.not_lt_zero _)
  distinct := fun _ less _ less' _ _ _ =>
    (Nat.lt_one_iff.mp less).trans (Nat.lt_one_iff.mp less').symm

theorem Reachable.sound (h : p.Reachable asksMain) : p.Sound :=
  Transition.Reachable.invariant (fun _ start => start.elim fun mainId eq => eq ▸ initial_sound mainId)
    (fun _ _ sound step => sound.step step) h

end Process

/-! ## What a run only adds to -/

/-- What becomes of a thread in a run. -/
structure OsThread.Later (t u : OsThread) : Prop where
  id : u.id = t.id
  isMain : u.isMain = t.isMain
  holder : ∀ r, t.holder = some r → u.holder = some r
  tornDown : t.tornDown = true → u.tornDown = true
  loopHolder : ∀ l, t.loopHolder = some l → u.loopHolder = some l
  loopTornDown : t.loopTornDown = true → u.loopTornDown = true

theorem OsThread.Later.refl (t : OsThread) : t.Later t :=
  ⟨rfl, rfl, fun _ eq => eq, fun eq => eq, fun _ eq => eq, fun eq => eq⟩

theorem OsThread.Later.trans {t u v : OsThread} (h : t.Later u) (h' : u.Later v) : t.Later v :=
  ⟨h'.id.trans h.id, h'.isMain.trans h.isMain, fun r eq => h'.holder r (h.holder r eq),
    fun eq => h'.tornDown (h.tornDown eq), fun l eq => h'.loopHolder l (h.loopHolder l eq),
    fun eq => h'.loopTornDown (h.loopTornDown eq)⟩

/-- What becomes of a record in a run. -/
structure ThreadRecord.Later (a b : ThreadRecord) : Prop where
  ofThread : b.ofThread = a.ofThread
  isMain : b.isMain = a.isMain
  finished : a.finished = true → b.finished = true
  published : a.published = true → b.published = true
  nativeId : ∀ id, a.nativeId = some id → b.nativeId = some id
  stopRequested : a.stopRequested = true → b.stopRequested = true

theorem ThreadRecord.Later.refl (a : ThreadRecord) : a.Later a :=
  ⟨rfl, rfl, id, id, fun _ => id, id⟩

theorem ThreadRecord.Later.trans {a b c : ThreadRecord} (h : a.Later b) (h' : b.Later c) :
    a.Later c :=
  ⟨h'.ofThread.trans h.ofThread, h'.isMain.trans h.isMain, fun eq => h'.finished (h.finished eq),
    fun eq => h'.published (h.published eq), fun id eq => h'.nativeId id (h.nativeId id eq),
    fun eq => h'.stopRequested (h.stopRequested eq)⟩

namespace Process

variable {asksMain : Bool} {p q : Process} {t : Nat}

structure Extends (p q : Process) : Prop where
  recordCount : p.recordCount ≤ q.recordCount
  threadCount : p.threadCount ≤ q.threadCount
  threads : ∀ t < p.threadCount, (p.threads t).Later (q.threads t)
  records : ∀ r < p.recordCount, (p.records r).Later (q.records r)

theorem Extends.refl (p : Process) : p.Extends p :=
  ⟨Nat.le_refl _, Nat.le_refl _, fun _ _ => .refl _, fun _ _ => .refl _⟩

theorem Extends.trans {m : Process} (h : p.Extends m) (h' : m.Extends q) : p.Extends q :=
  ⟨Nat.le_trans h.recordCount h'.recordCount, Nat.le_trans h.threadCount h'.threadCount,
    fun t less => (h.threads t less).trans (h'.threads t (Nat.lt_of_lt_of_le less h.threadCount)),
    fun r less => (h.records r less).trans (h'.records r (Nat.lt_of_lt_of_le less h.recordCount))⟩

theorem Extends.setThread {thread : OsThread} (later : (p.threads t).Later thread) :
    p.Extends (p.setThread t thread) := by
  refine ⟨Nat.le_refl _, Nat.le_refl _, fun u _ => ?_, fun _ _ => .refl _⟩
  by_cases same : u = t
  · subst same
    simp only [Process.setThread, Function.update_self]
    exact later
  · simp only [Process.setThread, Function.update_of_ne same]
    exact .refl _

theorem Extends.goTo (doing : Doing) : p.Extends (p.goTo t doing) :=
  .setThread ⟨rfl, rfl, fun _ => id, id, fun _ => id, id⟩

theorem Extends.setRecord {r : Nat} {record : ThreadRecord} (later : (p.records r).Later record) :
    p.Extends (p.setRecord r record) := by
  refine ⟨Nat.le_refl _, Nat.le_refl _, fun _ _ => .refl _, fun r' _ => ?_⟩
  by_cases same : r' = r
  · subst same
    simp only [Process.setRecord, Function.update_self]
    exact later
  · simp only [Process.setRecord, Function.update_of_ne same]
    exact .refl _

theorem Extends.makeRecord (record : ThreadRecord) : p.Extends (p.makeRecord record).2 := by
  refine ⟨Nat.le_succ _, Nat.le_refl _, fun _ _ => .refl _, fun r less => ?_⟩
  simp only [Process.makeRecord, Function.update_of_ne (Nat.ne_of_lt less)]
  exact .refl _

theorem Extends.makeLoop (loop : Loop) : p.Extends (p.makeLoop loop).2 :=
  ⟨Nat.le_refl _, Nat.le_refl _, fun _ _ => .refl _, fun _ _ => .refl _⟩

/-- Nothing below depends on the registry, the loops or the statics. -/
theorem Extends.congr {m : Process} (h : p.Extends m) (records : q.records = m.records)
    (recordCount : q.recordCount = m.recordCount) (threads : q.threads = m.threads)
    (threadCount : q.threadCount = m.threadCount) : p.Extends q := by
  refine ⟨recordCount ▸ h.recordCount, threadCount ▸ h.threadCount, ?_, ?_⟩
  · rw [threads]
    exact h.threads
  · rw [records]
    exact h.records

theorem Extends.registerSelf {m : Process} (h : p.Extends m) (r : Nat) :
    p.Extends (m.registerSelf r) := h.congr rfl rfl rfl rfl

theorem Extends.mainLoopStorage (p : Process) : p.Extends p.mainLoopStorage.2 := by
  unfold Process.mainLoopStorage
  split
  · exact .refl p
  · exact (Extends.makeLoop Loop.initial).congr rfl rfl rfl rfl

theorem Extends.finishedLoop (p : Process) : p.Extends p.finishedLoop.2 := by
  unfold Process.finishedLoop
  split
  · exact .refl p
  · exact (Extends.makeLoop Loop.initial.finish).congr rfl rfl rfl rfl

theorem Extends.loopForCurrentThread (p : Process) (t : Nat) :
    p.Extends (p.loopForCurrentThread t).2 := by
  unfold Process.loopForCurrentThread
  split
  · exact .finishedLoop p
  · split
    · exact .refl p
    · rename_i none
      have made : p.Extends (if (p.threads t).isMain then p.mainLoopStorage
          else p.makeLoop Loop.initial).2 := by
        split
        · exact .mainLoopStorage p
        · exact .makeLoop _
      have same : (if (p.threads t).isMain then p.mainLoopStorage
          else p.makeLoop Loop.initial).2.threads = p.threads := by
        split
        · exact mainLoopStorage_threads p
        · rfl
      refine made.trans (.setThread ⟨rfl, rfl, fun _ => id, id, ?_, id⟩)
      intro l held
      rw [same, none] at held
      cases held

theorem Extends.mainRunloop (p : Process) (t : Nat) : p.Extends (p.mainRunloop t).2 := by
  unfold Process.mainRunloop
  split
  · exact .loopForCurrentThread p t
  · exact .mainLoopStorage p

theorem Extends.mainThreadStorage (p : Process) (t : Nat) :
    p.Extends (p.mainThreadStorage asksMain t).2 := by
  unfold Process.mainThreadStorage
  split
  · exact .refl p
  · exact ((Extends.mainRunloop p t).trans (.makeRecord _)).congr rfl rfl rfl rfl

theorem Extends.ensureNativeIdKnown (p : Process) (r t : Nat) :
    p.Extends (p.ensureNativeIdKnown r t) := by
  unfold Process.ensureNativeIdKnown
  split
  · exact .refl p
  · rename_i none
    refine .setRecord ⟨rfl, rfl, id, id, ?_, id⟩
    intro id known
    rw [none] at known
    cases known

theorem Extends.makeAdopted (p : Process) (t : Nat) : p.Extends (p.makeAdopted t).2 :=
  ((Extends.loopForCurrentThread p t).trans (.makeRecord _)).congr rfl rfl rfl rfl

theorem Extends.adopt (p : Process) (t : Nat) : p.Extends (p.adopt asksMain t).2 := by
  unfold Process.adopt
  split
  · exact (Extends.mainThreadStorage p t).trans (.ensureNativeIdKnown _ _ _)
  · exact .makeAdopted p t

theorem Extends.finishedPlaceholder (p : Process) : p.Extends p.finishedPlaceholder.2 := by
  unfold Process.finishedPlaceholder
  split
  · exact .refl p
  · exact (Extends.makeRecord _).congr rfl rfl rfl rfl

theorem Extends.start (p : Process) (t id : Nat) (runLoop : Bool) :
    p.Extends (p.start t id runLoop) := by
  have first : p.Extends ((p.makeRecord (ThreadRecord.fresh (some p.threadCount))).2.goTo t
      (.starting p.recordCount)) := (Extends.makeRecord _).trans (.goTo _)
  refine ⟨first.recordCount, Nat.le_succ _, fun u less => ?_, first.records⟩
  rw [show (p.start t id runLoop).threads u = ((p.makeRecord (ThreadRecord.fresh
    (some p.threadCount))).2.goTo t (.starting p.recordCount)).threads u from
      Function.update_of_ne (Nat.ne_of_lt less) _ _]
  exact first.threads u less

theorem Sound.extends_begin {r : Nat} {runLoop : Bool} (h : p.Sound) (among : t < p.threadCount)
    (at_ : (p.threads t).doing = .beginning r runLoop) : p.Extends (p.begin_ t r runLoop) := by
  have holder := (h.coherent t among).bare (by rw [at_]; rfl)
  obtain ⟨less, of_⟩ := h.claims t among r (Or.inr (by rw [at_]; rfl))
  obtain ⟨_, fit⟩ := h.fits r less t of_
  have installed : p.Extends (p.setThread t { p.threads t with holder := some r }) := by
    refine .setThread ⟨rfl, rfl, fun r' eq => ?_, fun eq => eq, fun _ eq => eq, fun eq => eq⟩
    rw [holder] at eq
    cases eq
  obtain ⟨m, eq⟩ : ∃ m, m = p.setThread t { p.threads t with holder := some r } := ⟨_, rfl⟩
  have records : m.records = p.records := by rw [eq]; rfl
  rw [← eq] at installed
  have named : p.Extends (m.setRecord r { m.records r with
      nativeId := some (p.threads t).id }) := by
    refine installed.trans (.setRecord ⟨rfl, rfl, fun eq => eq, fun eq => eq, ?_, fun eq => eq⟩)
    intro id known
    rw [records] at known
    rcases fit.named with named | ⟨none, _⟩
    · rw [← known, named]
    · rw [none] at known
      cases known
  unfold Process.begin_
  dsimp only
  rw [← eq]
  refine (Extends.registerSelf ?_ r).trans (.goTo _)
  split
  · exact (named.trans (.loopForCurrentThread _ t)).trans
      (.setRecord ⟨rfl, rfl, fun eq => eq, fun eq => eq, fun _ eq => eq, fun eq => eq⟩)
  · exact named

theorem Sound.extends_step (h : p.Sound) (step : Step asksMain p q) : p.Extends q := by
  cases step with
  | create id unused =>
    refine ⟨Nat.le_refl _, Nat.le_succ _, fun u less => ?_, fun _ _ => .refl _⟩
    simp only [Function.update_of_ne (Nat.ne_of_lt less)]
    exact .refl _
  | start t id runLoop runs unused => exact .start p t id runLoop
  | begin_ t r runLoop at_ => exact h.extends_begin (h.within at_ (fun eq => nomatch eq)) at_
  | publish t r at_ =>
    have published : p.Extends (p.setRecord r { p.records r with published := true }) :=
      .setRecord ⟨rfl, rfl, fun eq => eq, fun _ => rfl, fun _ eq => eq, fun eq => eq⟩
    exact published.trans (.goTo _)
  | notifyReady t r at_ => exact .goTo _
  | started t r at_ published => exact .goTo _
  | adopt t runs kept first => exact (Extends.adopt p t).trans (.goTo _)
  | install t r at_ =>
    have holder := (h.coherent t (h.within at_ (fun eq => nomatch eq))).bare (by rw [at_]; rfl)
    refine .setThread ⟨rfl, rfl, fun r' eq => ?_, fun eq => eq, fun _ eq => eq, fun eq => eq⟩
    rw [holder] at eq
    cases eq
  | nameFinished t runs gone => exact .finishedPlaceholder p
  | nameMain t runs other => exact .mainThreadStorage p t
  | nameLoop t runs => exact .loopForCurrentThread p t
  | nameMainLoop t runs => exact .mainRunloop p t
  | perform t r runs made open_ => exact .goTo _
  | delegate t r at_ =>
    unfold Process.performOn
    split
    · exact (Extends.goTo (p := p) (t := t) .outside).congr rfl rfl rfl rfl
    · exact .goTo _
  | cancel r made =>
    exact .setRecord ⟨rfl, rfl, fun eq => eq, fun eq => eq, fun _ eq => eq, fun _ => rfl⟩
  | loop l later made step => exact (Extends.refl p).congr rfl rfl rfl rfl
  | leave t runs =>
    exact .setThread ⟨rfl, rfl, fun _ eq => eq, fun eq => eq, fun _ eq => eq, fun eq => eq⟩
  | dropLoop t l runs leaving held kept =>
    have dropped : p.Extends (p.setThread t { p.threads t with loopTornDown := true }) :=
      .setThread ⟨rfl, rfl, fun _ eq => eq, fun eq => eq, fun _ eq => eq, fun _ => rfl⟩
    exact dropped.congr rfl rfl rfl rfl
  | deregister t r runs leaving held kept =>
    exact (Extends.goTo (p := p) (t := t) (.deregistered r)).congr rfl rfl rfl rfl
  | markFinished t r at_ =>
    have finished : p.Extends (p.setRecord r { p.records r with finished := true }) :=
      .setRecord ⟨rfl, rfl, fun _ => rfl, fun eq => eq, fun _ eq => eq, fun eq => eq⟩
    exact finished.trans (.goTo _)
  | tearDown t r at_ =>
    exact .setThread ⟨rfl, rfl, fun _ eq => eq, fun _ => rfl, fun _ eq => eq, fun eq => eq⟩
  | end_ t runs leaving cleared => exact .goTo _

theorem Reachable.extends (h : p.Reachable asksMain)
    (run : Relation.ReflTransGen (Step asksMain) p q) : p.Extends q := by
  induction run with
  | refl => exact .refl p
  | tail run step ih =>
    have later : Reachable asksMain _ := Transition.Reachable.later h run
    exact ih.trans (later.sound.extends_step step)

/-! ## The registry -/

theorem Sound.finished_unlisted {r : Nat} (h : p.Sound) (less : r < p.recordCount)
    (finished : (p.records r).finished = true) : r ∉ p.registry := by
  cases own : (p.records r).ofThread with
  | none => exact (h.orphan r less own).1.unlisted
  | some t =>
    obtain ⟨_, fit⟩ := h.fits r less t own
    rw [fit.listed]
    rw [fit.finished, OsThread.past, Bool.or_eq_true] at finished
    intro shows
    rw [OsThread.shows, Bool.and_eq_true, Bool.not_eq_true', Bool.not_eq_true'] at shows
    rcases finished with torn | finishes
    · rw [shows.1] at torn
      cases torn
    · cases doing : (p.threads t).doing <;> simp_all [Doing.finishes, Doing.hides]

theorem Reachable.stays_finished {r : Nat} (h : p.Reachable asksMain) (less : r < p.recordCount)
    (finished : (p.records r).finished = true) (run : Relation.ReflTransGen (Step asksMain) p q) :
    (q.records r).finished = true ∧ r ∉ q.registry := by
  have extends_ := h.extends run
  have later : Reachable asksMain q := Transition.Reachable.later h run
  have still := (extends_.records r less).finished finished
  exact ⟨still, later.sound.finished_unlisted (Nat.lt_of_lt_of_le less extends_.recordCount) still⟩

/-- The system has made a second thread. -/
def peopled : Process :=
  { initial 1 with
    threads := Function.update (initial 1).threads 1 (.make 2 false .outside)
    threadCount := 2 }

/-- That thread has asked which it is. -/
def visited : Process :=
  ((peopled.adopt true 1).2.goTo 1 (.installing (peopled.adopt true 1).1)).install 1 0

/-- It is ending, and its record is finished. -/
def departed : Process :=
  (((visited.setThread 1 { visited.threads 1 with leaving := true }).deregister 1 0).markFinished
    1 0).tearDown 1

theorem visited_reachable : visited.Reachable true := by
  have start : (initial 1).Reachable true := Transition.Reachable.start ⟨1, rfl⟩
  have created : peopled.Reachable true := Transition.Reachable.next start
    (.create 2 fun t less _ => by
      obtain rfl : t = 0 := Nat.lt_one_iff.mp less
      decide)
  have adopted := Transition.Reachable.next created (.adopt 1 ⟨by decide, rfl⟩ rfl rfl)
  exact Transition.Reachable.next adopted (.install 1 0 rfl)

theorem visited_departs : Relation.ReflTransGen (Step true) visited departed :=
  (((Relation.ReflTransGen.single (.leave 1 ⟨by decide, rfl⟩)).tail
    (.deregister 1 0 ⟨by decide, rfl⟩ rfl rfl rfl)).tail (.markFinished 1 0 rfl)).tail
      (.tearDown 1 0 rfl)

/-- A record is in the registry exactly while its thread has registered it and has not
begun to end, once, and no two of one thread are; a finished record is in it never again. -/
theorem registry_exact (h : p.Reachable asksMain) :
    p.registry.Nodup ∧
    (∀ r, r ∈ p.registry ↔ r < p.recordCount ∧ ∃ t < p.threadCount,
      (p.records r).ofThread = some t ∧ (p.threads t).shows = true) ∧
    (∀ r ∈ p.registry, ∀ r' ∈ p.registry, (p.records r).ofThread = (p.records r').ofThread →
      r = r') ∧
    (∀ t < p.threadCount, ∀ r, (p.threads t).holder = some r →
      (r ∈ p.registry ↔ (p.threads t).shows = true)) ∧
    ∀ r < p.recordCount, (p.records r).finished = true → r ∉ p.registry ∧
      ∀ q, Relation.ReflTransGen (Step asksMain) p q →
        (q.records r).finished = true ∧ r ∉ q.registry := by
  have sound := h.sound
  have owned (r : Nat) (mem : r ∈ p.registry) : ∃ t < p.threadCount,
      (p.records r).ofThread = some t ∧ (p.threads t).shows = true := by
    have less := sound.made r mem
    cases own : (p.records r).ofThread with
    | none => exact absurd mem (sound.orphan r less own).1.unlisted
    | some t =>
      obtain ⟨among, fit⟩ := sound.fits r less t own
      exact ⟨t, among, rfl, fit.listed.mp mem⟩
  refine ⟨sound.nodup, fun r => ⟨fun mem => ⟨sound.made r mem, owned r mem⟩, ?_⟩, ?_, ?_, ?_⟩
  · rintro ⟨less, t, _, own, shows⟩
    exact (sound.fits r less t own).2.listed.mpr shows
  · intro r mem r' mem' same
    obtain ⟨t, _, own, _⟩ := owned r mem
    exact sound.unique r (sound.made r mem) r' (sound.made r' mem') t own (same ▸ own)
  · intro t among r held
    exact (sound.listed_of among held).1
  · intro r less finished
    exact ⟨sound.finished_unlisted less finished, fun q run => h.stays_finished less finished run⟩

theorem registry_exact_visited : visited.registry = [0] ∧ ∀ r, r ∈ visited.registry ↔
    r < visited.recordCount ∧ ∃ t < visited.threadCount,
      (visited.records r).ofThread = some t ∧ (visited.threads t).shows = true :=
  ⟨rfl, (registry_exact visited_reachable).2.1⟩

/-- The placeholder, once made, is the only one, and no thread ever has it for its own. -/
theorem Reachable.placeholder_later (h : p.Reachable asksMain) {r : Nat}
    (known : p.placeholder = some r) (run : Relation.ReflTransGen (Step asksMain) p q) :
    q.placeholder = some r ∧ (q.records r).ofThread = none ∧
      ∀ t < q.threadCount, (q.threads t).holder ≠ some r := by
  have extends_ := h.extends run
  have later : q.Reachable asksMain := Transition.Reachable.later h run
  obtain ⟨less, unowned⟩ := h.sound.placeholder r known
  have still : (q.records r).ofThread = none := (extends_.records r less).ofThread.trans unowned
  have less' := Nat.lt_of_lt_of_le less extends_.recordCount
  refine ⟨(later.sound.orphan r less' still).2, still, fun t among held => ?_⟩
  obtain ⟨_, own⟩ := later.sound.claims t among r (Or.inl held)
  rw [still] at own
  cases own

/-- A thread is given the same record for as long as its holder stands, and no other thread
is; once the holder is gone, every thread is given the one finished placeholder, the same
from then on. -/
theorem current_thread_stable {r r' : Nat} (h : p.Reachable asksMain)
    (run : Relation.ReflTransGen (Step asksMain) p q) (among : t < p.threadCount)
    (kept : (p.threads t).tornDown = false) (before : p.currentThread t = some r)
    (after : q.currentThread t = some r') :
    ((q.threads t).tornDown = false → r' = r) ∧
    ((q.threads t).tornDown = true → r' ≠ r ∧ (q.records r').finished = true ∧
      (q.records r').loop = none ∧ (q.records r').nativeId = none ∧ r' ∉ q.registry ∧
      (q.records r).finished = true ∧
      ∀ s, Relation.ReflTransGen (Step asksMain) q s → (s.records r').ofThread = none ∧
        (∀ u < s.threadCount, (s.threads u).holder ≠ some r') ∧
        ∀ u, (s.threads u).tornDown = true → s.currentThread u = some r') ∧
    ∀ u < q.threadCount, u ≠ t → q.currentThread u ≠ some r := by
  have extends_ := h.extends run
  have reached : q.Reachable asksMain := Transition.Reachable.later h run
  have sound := reached.sound
  have among' : t < q.threadCount := Nat.lt_of_lt_of_le among extends_.threadCount
  have held : (p.threads t).holder = some r := by
    rw [currentThread, kept] at before
    exact before
  have still := (extends_.threads t among).holder r held
  obtain ⟨less, own⟩ := sound.claims t among' r (Or.inl still)
  have orphan {r' : Nat} (known : q.placeholder = some r') :
      (q.records r').Orphan (r' ∈ q.registry) ∧ r' ≠ r := by
    obtain ⟨less', none⟩ := sound.placeholder r' known
    refine ⟨(sound.orphan r' less' none).1, fun same => ?_⟩
    rw [same, own] at none
    cases none
  refine ⟨fun up => ?_, fun down => ?_, fun u less' other named => ?_⟩
  · rw [currentThread, up] at after
    exact Option.some.inj (after.symm.trans still)
  · rw [currentThread, down] at after
    obtain ⟨gone, different⟩ := orphan after
    refine ⟨different, gone.finished, gone.loop, gone.unnamed, gone.unlisted, ?_,
      fun s later => ?_⟩
    · rw [(sound.listed_of among' still).2]
      simp [OsThread.past, down]
    · obtain ⟨one, nobody, unheld⟩ := reached.placeholder_later after later
      refine ⟨nobody, unheld, fun u down' => ?_⟩
      rw [currentThread, down', if_pos rfl, one]
  · unfold currentThread at named
    split at named
    · exact (orphan named).2 rfl
    · obtain ⟨_, own'⟩ := sound.claims u less' r (Or.inl named)
      rw [own] at own'
      exact other (Option.some.inj own').symm

theorem current_thread_stable_departed :
    departed.finishedPlaceholder.2.currentThread 1 = some 1 ∧
      (departed.finishedPlaceholder.2.records 1).finished = true ∧
      (∀ s, Relation.ReflTransGen (Step true) departed.finishedPlaceholder.2 s →
        ∀ u, (s.threads u).tornDown = true → s.currentThread u = some 1) ∧
      ∀ u < departed.finishedPlaceholder.2.threadCount, u ≠ 1 →
        departed.finishedPlaceholder.2.currentThread u ≠ some 0 := by
  have run : Relation.ReflTransGen (Step true) visited departed.finishedPlaceholder.2 :=
    visited_departs.tail (.nameFinished 1 ⟨by decide, rfl⟩ rfl)
  have among : 1 < visited.threadCount := by decide
  have before : visited.currentThread 1 = some 0 := rfl
  have after : departed.finishedPlaceholder.2.currentThread 1 = some 1 := rfl
  obtain ⟨_, gone, others⟩ := current_thread_stable visited_reachable run among rfl before after
  obtain ⟨_, finished, _, _, _, _, one⟩ := gone rfl
  exact ⟨rfl, finished, fun s later => (one s later).2.2, others⟩

end Process

end Dross
