import Dross.Thread.ThreadInvariant

/-!
# Steps of the threads

Each function of `thread.cpp` keeps the invariant: those that make a record first, then
what a thread does to itself and the record it holds.
-/

namespace Dross

namespace Process

variable {asksMain : Bool} {p q : Process} {t : Nat}

/-- A thread that has no record of its own has none installed, and is not at work on one. -/
theorem Sound.recordless (h : p.Sound) (among : t < p.threadCount)
    (none : ∀ r < p.recordCount, (p.records r).ofThread ≠ some t) :
    (p.threads t).holder = Option.none ∧ (p.threads t).doing.about = Option.none ∧
      (p.threads t).tornDown = false := by
  have holder : (p.threads t).holder = Option.none := by
    cases holder : (p.threads t).holder with
    | none => rfl
    | some r =>
      obtain ⟨less, own⟩ := h.claims t among r (Or.inl holder)
      exact absurd own (none r less)
  refine ⟨holder, ?_, (h.coherent t among).up holder⟩
  cases about : (p.threads t).doing.about with
  | none => rfl
  | some r =>
    obtain ⟨less, own⟩ := h.claims t among r (Or.inr about)
    exact absurd own (none r less)

theorem Sound.no_main (h : p.Sound) (none : p.main = Option.none) :
    ∀ r < p.recordCount, (p.records r).ofThread ≠ some 0 := by
  intro r less own
  have := (h.main r).mpr ⟨less, (h.mainThread r less).mpr own⟩
  rw [none] at this
  cases this

theorem Doing.not_hides {doing : Doing} (none : doing.about = Option.none) :
    doing.hides = false ∧ doing.finishes = false := by
  cases doing <;> simp_all [Doing.about, Doing.hides, Doing.finishes]

theorem mainThreadStorage_known {r : Nat} (known : p.main = some r) :
    p.mainThreadStorage asksMain t = (r, p) := by
  unfold mainThreadStorage
  rw [known]

theorem Sound.mainThreadStorage (h : p.Sound) (among : t < p.threadCount)
    (alive : (p.threads t).doing ≠ .ended) : (p.mainThreadStorage asksMain t).2.Sound := by
  cases known : p.main with
  | some r =>
    rw [mainThreadStorage_known known]
    exact h
  | none =>
    have sound := h.only (mainRunloop_only p t) among alive
    obtain ⟨_, recordCount, _, _, main, _, _, threads⟩ := mainRunloop_only p t
    obtain ⟨m, made⟩ : ∃ m, m = (p.mainRunloop t).2 := ⟨_, rfl⟩
    obtain ⟨q, eq⟩ : ∃ q, q = (p.mainThreadStorage asksMain t).2 := ⟨_, rfl⟩
    rw [← eq]
    replace eq : q = { m with
        records := Function.update m.records m.recordCount
          { ThreadRecord.fresh (some 0) with
            isMain := true
            nativeId := mainThreadId asksMain p t
            loop := some (p.mainRunloop t).1 }
        recordCount := m.recordCount + 1
        registry := m.registry ++ [m.recordCount]
        main := some m.recordCount } := by
      rw [eq, made]
      unfold Process.mainThreadStorage
      rw [known]
      rfl
    rw [← made] at recordCount main threads sound
    have first : (m.threads 0).id = (p.threads 0).id := by
      by_cases same : 0 = t
      · rw [threads, ← same, Function.update_self]
      · rw [threads, Function.update_of_ne same]
    have none := sound.no_main (main.trans known)
    obtain ⟨holder, about, torn⟩ := sound.recordless sound.some_thread none
    obtain ⟨hides, finishes⟩ := Doing.not_hides about
    have new : q.records m.recordCount = { ThreadRecord.fresh (some 0) with
        isMain := true
        nativeId := mainThreadId asksMain p t
        loop := some (p.mainRunloop t).1 } := by
      rw [eq]
      exact Function.update_self _ _ _
    have same : q.threads = m.threads := by rw [eq]
    have registry : q.registry = m.registry ++ [m.recordCount] := by rw [eq]
    refine sound.grow (t := 0) ⟨by rw [eq], Or.inl ⟨by rw [eq], sound.some_thread⟩, ?_, ?_,
      fun _ _ _ => by rw [same], none,
      by rw [new]; rfl, by rw [new]; simp, by rw [eq]; rfl, by rw [eq], Or.inl registry, ?_, ?_, ?_⟩
    · intro r less
      rw [eq]
      exact Function.update_of_ne (Nat.ne_of_lt less) _ _
    · intro u _ _
      rw [same]
    · rw [same]
      refine ⟨sound.isMain 0 sound.some_thread, sound.coherent 0 sound.some_thread, holder, ?_⟩
      intro r own
      rw [about] at own
      cases own
    · rw [new, same, registry]
      refine ⟨?_, ?_, Or.inr ⟨holder, Or.inr rfl⟩, ?_, ?_⟩
      · simp [OsThread.shows, torn, hides]
      · simp [ThreadRecord.fresh, OsThread.past, torn, finishes]
      · intro r own
        rw [about] at own
        cases own
      · rw [first]
        unfold mainThreadId
        split
        · exact Or.inl rfl
        · exact Or.inr ⟨rfl, Or.inl rfl⟩
    · rw [same]
      intro alive' u less other alive'' clash
      exact other (sound.distinct u less 0 sound.some_thread alive'' alive' clash)

/-- A thread in its owner's code with nothing installed has no record, unless it is the
main thread, whose record others may ask for. -/
theorem Sound.unrecorded (h : p.Sound) (runs : p.Runs t) (first : (p.threads t).holder = none)
    (other : (p.threads t).isMain = false) :
    ∀ r < p.recordCount, (p.records r).ofThread ≠ some t := by
  intro r less own
  obtain ⟨_, fit⟩ := h.fits r less t own
  rcases fit.place with holder | ⟨_, about | main⟩
  · rw [first] at holder
    cases holder
  · rw [runs.2] at about
    cases about
  · have zero := (h.mainThread r less).mp main
    rw [own] at zero
    obtain rfl := Option.some.inj zero
    rw [(h.isMain 0 h.some_thread).mpr rfl] at other
    cases other

theorem Sound.adopted (h : p.Sound) (runs : p.Runs t) (kept : (p.threads t).tornDown = false)
    (first : (p.threads t).holder = none) (other : (p.threads t).isMain = false) :
    ((p.makeAdopted t).2.goTo t (.installing (p.makeAdopted t).1)).Sound := by
  have sound := h.only (loopForCurrentThread_only p t) runs.1 runs.alive
  have none := h.unrecorded runs first other
  obtain ⟨records, recordCount, threadCount, registry, main, placeholder, holder, threads⟩ :=
    loopForCurrentThread_only p t
  obtain ⟨m, made⟩ : ∃ m, m = (p.loopForCurrentThread t).2 := ⟨_, rfl⟩
  rw [← made] at records recordCount threadCount registry main placeholder threads sound
  obtain ⟨q, eq⟩ : ∃ q, q = (p.makeAdopted t).2.goTo t (.installing (p.makeAdopted t).1) :=
    ⟨_, rfl⟩
  rw [← eq]
  replace eq : q = { m with
      records := Function.update m.records m.recordCount
        { ThreadRecord.fresh (some t) with
          nativeId := some (p.threads t).id
          loop := some (p.loopForCurrentThread t).1 }
      recordCount := m.recordCount + 1
      registry := m.registry ++ [m.recordCount]
      threads := Function.update m.threads t
        { m.threads t with doing := .installing m.recordCount } } := by
    rw [eq, made]
    rfl
  have own : q.threads t = { p.threads t with
      loopHolder := holder
      doing := .installing m.recordCount } := by
    rw [eq, threads]
    simp
  have new : q.records m.recordCount = { ThreadRecord.fresh (some t) with
      nativeId := some (p.threads t).id
      loop := some (p.loopForCurrentThread t).1 } := by
    rw [eq]
    exact Function.update_self _ _ _
  have registry' : q.registry = m.registry ++ [m.recordCount] := by rw [eq]
  have nonzero : t ≠ 0 := by
    rintro rfl
    rw [(h.isMain 0 h.some_thread).mpr rfl] at other
    cases other
  refine sound.grow (t := t) ⟨by rw [eq], Or.inl ⟨by rw [eq], threadCount ▸ runs.1⟩, ?_, ?_,
    fun _ _ different => by rw [eq]; exact Function.update_of_ne different _ _, ?_,
    by rw [new]; rfl, by rw [new]; simp [ThreadRecord.fresh, nonzero],
    by rw [eq, if_neg nonzero], by rw [eq], Or.inl registry', ?_, ?_, ?_⟩
  · intro r less
    rw [eq]
    exact Function.update_of_ne (Nat.ne_of_lt less) _ _
  · intro u _ different
    rw [eq]
    exact Function.update_of_ne different _ _
  · rw [records, recordCount]
    exact none
  · rw [own]
    refine ⟨by simp [other, nonzero], ⟨fun _ => first, ?_, ?_, ?_⟩, first, ?_⟩
    · intro r held
      cases held
    · intro torn
      rw [kept] at torn
      cases torn
    · intro ended
      cases ended
    · intro r about
      exact (Option.some.inj about).symm
  · rw [new, own, registry']
    refine ⟨?_, ?_, Or.inr ⟨first, Or.inl rfl⟩, ?_, Or.inl rfl⟩
    · simp [OsThread.shows, kept, Doing.hides]
    · simp [ThreadRecord.fresh, OsThread.past, kept, Doing.finishes]
    · intro r about
      exact (Option.some.inj about).symm
  · rw [own, threadCount]
    intro _ u less different alive' clash
    rw [threads, Function.update_of_ne different] at alive' clash
    exact different (h.distinct u less t runs.1 alive' runs.alive clash)

/-! ## What a thread does to itself -/

/-- A step that changes only the thread that takes it. -/
theorem Sound.turn {thread : OsThread} (h : p.Sound) (among : t < p.threadCount)
    (same : thread.id = (p.threads t).id ∧ thread.isMain = (p.threads t).isMain ∧
      ((p.threads t).doing = .ended → thread.doing = .ended))
    (coherent : thread.Coherent) (shows : thread.shows = (p.threads t).shows)
    (past : thread.past = (p.threads t).past)
    (claims : ∀ r, thread.holder = some r ∨ thread.doing.about = some r →
      (p.threads t).holder = some r ∨ (p.threads t).doing.about = some r)
    (fits : ∀ r, (p.records r).Fits r (p.threads t) (r ∈ p.registry) →
      (thread.holder = some r ∨ thread.holder = none ∧
        (thread.doing.about = some r ∨ (p.records r).isMain = true)) ∧
      ((p.records r).nativeId = some thread.id ∨ (p.records r).nativeId = none ∧
        ((p.records r).isMain = true ∨ ∃ runLoop, thread.doing = .beginning r runLoop))) :
    (p.setThread t thread).Sound := by
  have own : (p.setThread t thread).threads t = thread := Function.update_self _ _ _
  refine h.move (t := t) ⟨⟨rfl, rfl⟩, ⟨rfl, rfl⟩, fun u other => Function.update_of_ne other _ _,
    by rw [own]; exact same, fun _ => ⟨rfl, rfl⟩, fun _ _ => ⟨rfl, Iff.rfl⟩, ⟨h.nodup, h.made⟩⟩
    among (by rw [own]; exact coherent) ?_ ?_
  · intro r claim
    rw [own] at claim
    exact h.claims t among r (claims r claim)
  · intro r less of_ fit
    rw [own]
    obtain ⟨place, named⟩ := fits r fit
    refine ⟨by rw [shows]; exact fit.listed, by rw [past]; exact fit.finished, place, ?_, named⟩
    intro r' about
    rcases claims r' (Or.inr about) with holder | before
    · obtain ⟨less', of'⟩ := h.claims t among r' (Or.inl holder)
      exact h.unique r' less' r less t of' of_
    · exact fit.about r' before

/-- Going from one place to another where the holder and the registry are not touched. -/
theorem Sound.goTo {doing : Doing} (h : p.Sound) (among : t < p.threadCount)
    (hides : doing.hides = (p.threads t).doing.hides)
    (finishes : doing.finishes = (p.threads t).doing.finishes)
    (before : (p.threads t).doing.precedes = false) (after : doing.precedes = false)
    (alive : (p.threads t).doing ≠ .ended)
    (holds : ∀ r, doing.holds = some r → (p.threads t).doing.holds = some r)
    (ended : doing = .ended → p.Cleared t) : (p.goTo t doing).Sound := by
  obtain ⟨bare, held, torn, _⟩ := h.coherent t among
  have about_holds {doing : Doing} {r : Nat} (precedes : doing.precedes = false)
      (about : doing.about = some r) : doing.holds = some r := by
    cases doing <;> simp_all [Doing.about, Doing.holds, Doing.precedes]
  have holds_about {doing : Doing} {r : Nat} (holds : doing.holds = some r) :
      doing.about = some r := by
    cases doing <;> simp_all [Doing.about, Doing.holds]
  refine h.turn among ⟨rfl, rfl, fun eq => absurd eq alive⟩ ⟨?_, ?_, torn, ended⟩ ?_ ?_ ?_ ?_
  · intro precedes
    rw [after] at precedes
    cases precedes
  · intro r eq
    exact held r (holds r eq)
  · simp [OsThread.shows, hides]
  · simp [OsThread.past, finishes]
  · intro r claim
    rcases claim with holder | about
    · exact Or.inl holder
    · exact Or.inr (holds_about (holds r (about_holds after about)))
  · intro r fit
    refine ⟨?_, ?_⟩
    · rcases fit.place with holder | ⟨none, about | main⟩
      · exact Or.inl holder
      · have := (held r (about_holds before about)).1
        rw [none] at this
        cases this
      · exact Or.inr ⟨none, Or.inr main⟩
    · rcases fit.named with named | ⟨none, main | ⟨runLoop, beginning⟩⟩
      · exact Or.inl named
      · exact Or.inr ⟨none, Or.inl main⟩
      · rw [beginning] at before
        cases before

theorem Sound.installed {r : Nat} (h : p.Sound) (among : t < p.threadCount)
    (at_ : (p.threads t).doing = .installing r) : (p.install t r).Sound := by
  refine h.turn among ⟨rfl, rfl, fun eq => by rw [at_] at eq; cases eq⟩ ⟨?_, ?_, ?_, ?_⟩ ?_ ?_ ?_ ?_
  · intro precedes
    cases precedes
  · intro r eq
    cases eq
  · intro _
    exact ⟨r, rfl⟩
  · intro eq
    cases eq
  · simp [OsThread.shows, at_, Doing.hides]
  · simp [OsThread.past, at_, Doing.finishes]
  · rintro r' (eq | eq)
    · obtain rfl := Option.some.inj eq
      exact Or.inr (by rw [at_]; rfl)
    · cases eq
  · intro r' fit
    refine ⟨?_, ?_⟩
    · have own := fit.about r (by rw [at_]; rfl)
      exact Or.inl (by rw [own])
    · rcases fit.named with named | ⟨none, main | ⟨runLoop, beginning⟩⟩
      · exact Or.inl named
      · exact Or.inr ⟨none, Or.inl main⟩
      · rw [at_] at beginning
        cases beginning

theorem Sound.setLoop (h : p.Sound) (l : Nat) (loop : Loop) : (p.setLoop l loop).Sound :=
  ⟨h.nodup, h.made, h.some_thread, h.beyond, h.isMain, h.coherent, h.claims, h.fits, h.orphan, h.main,
    h.mainThread, h.placeholder, h.unique, h.distinct⟩

/-- Marks that neither the registry nor the records depend on. -/
theorem Sound.mark {thread : OsThread} (h : p.Sound) (runs : p.Runs t)
    (same : thread.id = (p.threads t).id ∧ thread.isMain = (p.threads t).isMain)
    (doing : thread.doing = .outside) (holder : thread.holder = (p.threads t).holder)
    (torn : thread.tornDown = (p.threads t).tornDown) : (p.setThread t thread).Sound := by
  obtain ⟨among, outside⟩ := runs
  have was := h.coherent t among
  refine h.turn among ⟨same.1, same.2, fun eq => by rw [outside] at eq; cases eq⟩
    ⟨?_, ?_, ?_, ?_⟩ ?_ ?_ ?_ ?_
  · intro precedes
    rw [doing] at precedes
    cases precedes
  · intro r eq
    rw [doing] at eq
    cases eq
  · rw [torn, holder]
    exact was.torn
  · intro eq
    rw [doing] at eq
    cases eq
  · simp [OsThread.shows, torn, doing, outside]
  · simp [OsThread.past, torn, doing, outside]
  · intro r claim
    rw [doing, holder, ← outside] at claim
    exact claim
  · intro r fit
    rw [doing, holder, same.1, ← outside]
    exact ⟨fit.place, fit.named⟩

/-- A step of a thread on the record it holds. -/
theorem Sound.own {thread : OsThread} {record : ThreadRecord} {registry : List Nat} {r : Nat}
    (h : p.Sound) (among : t < p.threadCount) (held : (p.threads t).holder = some r)
    (alive : (p.threads t).doing ≠ .ended)
    (same : thread.id = (p.threads t).id ∧ thread.isMain = (p.threads t).isMain ∧
      thread.holder = (p.threads t).holder)
    (coherent : thread.Coherent) (about : ∀ r', thread.doing.about = some r' → r' = r)
    (record_same : record.ofThread = (p.records r).ofThread ∧
      record.isMain = (p.records r).isMain ∧ record.nativeId = (p.records r).nativeId)
    (listed : registry.Nodup ∧ ∀ r', r' ≠ r → (r' ∈ registry ↔ r' ∈ p.registry))
    (shows : r ∈ registry ↔ thread.shows = true) (past : record.finished = thread.past) :
    Sound { (p.setRecord r record).setThread t thread with registry := registry } := by
  obtain ⟨less, of_⟩ := h.claims t among r (Or.inl held)
  have members : ∀ r' ∈ registry, r' < p.recordCount := by
    intro r' mem
    by_cases own : r' = r
    · rw [own]
      exact less
    · exact h.made r' ((listed.2 r' own).mp mem)
  have thread_self : Function.update p.threads t thread t = thread := Function.update_self _ _ _
  have record_self : Function.update p.records r record r = record := Function.update_self _ _ _
  refine h.move (t := t) ⟨⟨rfl, rfl⟩, ⟨rfl, rfl⟩, fun u other => Function.update_of_ne other _ _,
    ?_, ?_, ?_, ⟨listed.1, members⟩⟩ among ?_ ?_ ?_
  · simp only [setThread, setRecord, thread_self]
    exact ⟨same.1, same.2.1, fun eq => absurd eq alive⟩
  · intro r'
    by_cases own : r' = r
    · subst own
      simp only [setThread, setRecord, record_self]
      exact ⟨record_same.1, record_same.2.1⟩
    · simp [setThread, setRecord, own]
  · intro r' other
    have different : r' ≠ r := fun eq => other (eq ▸ of_)
    refine ⟨?_, listed.2 r' different⟩
    simp [setThread, setRecord, different]
  · simp only [setThread, setRecord, thread_self]
    exact coherent
  · intro r' claim
    simp only [setThread, setRecord, thread_self] at claim
    rcases claim with holder | about'
    · rw [same.2.2, held] at holder
      obtain rfl := Option.some.inj holder
      exact ⟨less, of_⟩
    · rw [about r' about']
      exact ⟨less, of_⟩
  · intro r' less' of' fit
    obtain rfl := h.unique r' less' r less t of' of_
    simp only [setThread, setRecord, thread_self, record_self]
    refine ⟨shows, past, Or.inl (same.2.2.trans held), about, ?_⟩
    rw [record_same.2.1, record_same.2.2, same.1]
    rcases fit.named with named | ⟨none, main | ⟨runLoop, beginning⟩⟩
    · exact Or.inl named
    · exact Or.inr ⟨none, Or.inl main⟩
    · have bare := (h.coherent t among).bare (by rw [beginning]; rfl)
      rw [held] at bare
      cases bare

theorem Sound.listed_of {r : Nat} (h : p.Sound) (among : t < p.threadCount)
    (held : (p.threads t).holder = some r) :
    (r ∈ p.registry ↔ (p.threads t).shows = true) ∧
      (p.records r).finished = (p.threads t).past := by
  obtain ⟨less, of_⟩ := h.claims t among r (Or.inl held)
  obtain ⟨_, fit⟩ := h.fits r less t of_
  exact ⟨fit.listed, fit.finished⟩

theorem setThread_eq (p : Process) (t : Nat) (thread : OsThread) (r : Nat) :
    p.setThread t thread =
      { (p.setRecord r (p.records r)).setThread t thread with registry := p.registry } := by
  simp [setThread, setRecord]

theorem Sound.publish {r : Nat} (h : p.Sound) (among : t < p.threadCount)
    (at_ : (p.threads t).doing = .registered r) : (p.publish t r).Sound := by
  obtain ⟨_, held, torn, _⟩ := h.coherent t among
  obtain ⟨holder, up⟩ := held r (by rw [at_]; rfl)
  obtain ⟨listed, past⟩ := h.listed_of among holder
  change Sound { (p.setRecord r { p.records r with published := true }).setThread t
    { p.threads t with doing := .published r } with registry := p.registry }
  refine h.own among holder (by rw [at_]; exact fun eq => nomatch eq)
    ⟨rfl, rfl, rfl⟩ ⟨(fun eq => nomatch eq), ?_, torn, (fun eq => nomatch eq)⟩ ?_ ⟨rfl, rfl, rfl⟩
    ⟨h.nodup, fun _ _ => Iff.rfl⟩ ?_ ?_
  · intro r' eq
    obtain rfl := Option.some.inj eq
    exact ⟨holder, up⟩
  · intro r' eq
    exact (Option.some.inj eq).symm
  · rw [listed]
    simp [OsThread.shows, at_, Doing.hides]
  · rw [past]
    simp [OsThread.past, at_, Doing.finishes]

theorem Sound.deregister {r : Nat} (h : p.Sound) (runs : p.Runs t)
    (holder : (p.threads t).holder = some r) (kept : (p.threads t).tornDown = false) :
    (p.deregister t r).Sound := by
  obtain ⟨among, outside⟩ := runs
  obtain ⟨listed, past⟩ := h.listed_of among holder
  have same : p.deregister t r = { (p.setRecord r (p.records r)).setThread t
      { p.threads t with doing := .deregistered r } with
      registry := p.registry.filter (fun entry => entry ≠ r) } := by
    simp [Process.deregister, Process.goTo, setThread, setRecord]
  rw [same]
  refine h.own among holder (by rw [outside]; rintro ⟨⟩) ⟨rfl, rfl, rfl⟩
    ⟨(by rintro ⟨⟩), ?_, (h.coherent t among).torn, (by rintro ⟨⟩)⟩ ?_ ⟨rfl, rfl, rfl⟩
    ⟨h.nodup.filter _, ?_⟩ ?_ ?_
  · intro r' eq
    obtain rfl := Option.some.inj eq
    exact ⟨holder, kept⟩
  · intro r' eq
    exact (Option.some.inj eq).symm
  · intro r' other
    simp [other]
  · simp [OsThread.shows, Doing.hides]
  · rw [past]
    simp [OsThread.past, outside, Doing.finishes]

theorem Sound.markFinished {r : Nat} (h : p.Sound) (among : t < p.threadCount)
    (at_ : (p.threads t).doing = .deregistered r) : (p.markFinished t r).Sound := by
  obtain ⟨_, held, torn, _⟩ := h.coherent t among
  obtain ⟨holder, up⟩ := held r (by rw [at_]; rfl)
  obtain ⟨listed, past⟩ := h.listed_of among holder
  change Sound { (p.setRecord r { p.records r with finished := true }).setThread t
    { p.threads t with doing := .finishing r } with registry := p.registry }
  refine h.own among holder (by rw [at_]; exact fun eq => nomatch eq)
    ⟨rfl, rfl, rfl⟩ ⟨(fun eq => nomatch eq), ?_, torn, (fun eq => nomatch eq)⟩ ?_ ⟨rfl, rfl, rfl⟩
    ⟨h.nodup, fun _ _ => Iff.rfl⟩ ?_ ?_
  · intro r' eq
    obtain rfl := Option.some.inj eq
    exact ⟨holder, up⟩
  · intro r' eq
    exact (Option.some.inj eq).symm
  · rw [listed]
    simp [OsThread.shows, at_, Doing.hides]
  · simp [OsThread.past, Doing.finishes]

theorem Sound.tearDown {r : Nat} (h : p.Sound) (among : t < p.threadCount)
    (at_ : (p.threads t).doing = .finishing r) : (p.tearDown t).Sound := by
  obtain ⟨_, held, torn, _⟩ := h.coherent t among
  obtain ⟨holder, up⟩ := held r (by rw [at_]; rfl)
  obtain ⟨listed, past⟩ := h.listed_of among holder
  unfold Process.tearDown
  rw [setThread_eq p t _ r]
  refine h.own among holder (by rw [at_]; exact fun eq => nomatch eq) ⟨rfl, rfl, rfl⟩
    ⟨(fun eq => nomatch eq), (fun _ eq => nomatch eq), fun _ => ⟨r, holder⟩, (fun eq => nomatch eq)⟩
    (fun _ eq => nomatch eq) ⟨rfl, rfl, rfl⟩ ⟨h.nodup, fun _ _ => Iff.rfl⟩ ?_ ?_
  · rw [listed]
    simp [OsThread.shows, at_, Doing.hides]
  · rw [past]
    simp [OsThread.past, at_, Doing.finishes]

/-- What `run_on_new_thread` leaves, but for the loops. -/
theorem begin_eq (p : Process) (t r : Nat) (runLoop : Bool) : ∃ loopHolder loop,
    (p.begin_ t r runLoop).threads = Function.update p.threads t { p.threads t with
      holder := some r, loopHolder := loopHolder, doing := .registered r } ∧
    (p.begin_ t r runLoop).records = Function.update p.records r { p.records r with
      nativeId := some (p.threads t).id, loop := loop } ∧
    (loop.isSome = true ↔ runLoop = true ∨ (p.records r).loop.isSome = true) ∧
    (p.begin_ t r runLoop).registry = p.registry ++ [r] ∧
    (p.begin_ t r runLoop).recordCount = p.recordCount ∧
    (p.begin_ t r runLoop).threadCount = p.threadCount ∧
    (p.begin_ t r runLoop).main = p.main ∧
    (p.begin_ t r runLoop).placeholder = p.placeholder := by
  cases runLoop with
  | false =>
    refine ⟨(p.threads t).loopHolder, (p.records r).loop, ?_, ?_, by simp, rfl, rfl, rfl, rfl, rfl⟩
    · simp [begin_, goTo, registerSelf, setThread, setRecord]
    · simp [begin_, goTo, registerSelf, setThread, setRecord]
  | true =>
    obtain ⟨named, eq⟩ : ∃ named, named = (p.setThread t { p.threads t with holder := some r }).setRecord
        r { (p.setThread t { p.threads t with holder := some r }).records r with
          nativeId := some (p.threads t).id } := ⟨_, rfl⟩
    obtain ⟨records, recordCount, threadCount, registry, main, placeholder, holder, threads⟩ :=
      loopForCurrentThread_only named t
    refine ⟨holder, some (named.loopForCurrentThread t).1, ?_, ?_, by simp, ?_, ?_, ?_, ?_, ?_⟩
    · simp only [begin_, if_true, goTo, registerSelf, setThread, setRecord] at *
      rw [← eq, threads, eq]
      simp
    · simp only [begin_, if_true, goTo, registerSelf, setThread, setRecord] at *
      rw [← eq, records, eq]
      simp
    · simp only [begin_, if_true, goTo, registerSelf, setThread, setRecord] at *
      rw [← eq, registry, eq]
    · simp only [begin_, if_true, goTo, registerSelf, setThread, setRecord] at *
      rw [← eq, recordCount, eq]
    · simp only [begin_, if_true, goTo, registerSelf, setThread, setRecord] at *
      rw [← eq, threadCount, eq]
    · simp only [begin_, if_true, goTo, registerSelf, setThread, setRecord] at *
      rw [← eq, main, eq]
    · simp only [begin_, if_true, goTo, registerSelf, setThread, setRecord] at *
      rw [← eq, placeholder, eq]

theorem Sound.begin_ {r : Nat} {runLoop : Bool} (h : p.Sound) (among : t < p.threadCount)
    (at_ : (p.threads t).doing = .beginning r runLoop) : (p.begin_ t r runLoop).Sound := by
  obtain ⟨loopHolder, loop, threads, records, _, registry, recordCount, threadCount, main,
    placeholder⟩ := begin_eq p t r runLoop
  obtain ⟨less, of_⟩ := h.claims t among r (Or.inr (by rw [at_]; rfl))
  obtain ⟨_, fit⟩ := h.fits r less t of_
  have coherent := h.coherent t among
  have up := coherent.up (coherent.bare (by rw [at_]; rfl))
  have unlisted : r ∉ p.registry := by
    rw [fit.listed]
    simp [OsThread.shows, at_, Doing.hides]
  have thread : (p.begin_ t r runLoop).threads t = { p.threads t with
      holder := some r, loopHolder := loopHolder, doing := .registered r } := by
    rw [threads, Function.update_self]
  have record : (p.begin_ t r runLoop).records r = { p.records r with
      nativeId := some (p.threads t).id, loop := loop } := by
    rw [records, Function.update_self]
  have other {r' : Nat} (different : r' ≠ r) :
      (p.begin_ t r runLoop).records r' = p.records r' := by
    rw [records, Function.update_of_ne different]
  have listed {r' : Nat} (different : r' ≠ r) :
      r' ∈ (p.begin_ t r runLoop).registry ↔ r' ∈ p.registry := by
    rw [registry]
    simp [different]
  refine h.move (t := t) ⟨⟨recordCount, threadCount⟩, ⟨main, placeholder⟩, ?_, ?_, ?_, ?_, ?_⟩
    among ?_ ?_ ?_
  · intro u different
    rw [threads, Function.update_of_ne different]
  · rw [thread]
    exact ⟨rfl, rfl, fun eq => by rw [at_] at eq; cases eq⟩
  · intro r'
    by_cases same : r' = r
    · rw [same, record]
      exact ⟨rfl, rfl⟩
    · rw [other same]
      exact ⟨rfl, rfl⟩
  · intro r' elsewhere
    have different : r' ≠ r := fun eq => elsewhere (eq ▸ of_)
    exact ⟨other different, listed different⟩
  · rw [registry, List.nodup_append]
    refine ⟨⟨h.nodup, List.nodup_singleton r, ?_⟩, ?_⟩
    · rintro a mem b mem' rfl
      rw [List.mem_singleton.mp mem'] at mem
      exact unlisted mem
    · intro r' mem
      rcases List.mem_append.mp mem with mem | mem
      · exact h.made r' mem
      · rw [List.mem_singleton.mp mem]
        exact less
  · rw [thread]
    refine ⟨(fun eq => nomatch eq), ?_, ?_, (fun eq => nomatch eq)⟩
    · intro r' eq
      obtain rfl := Option.some.inj eq
      exact ⟨rfl, up⟩
    · intro eq
      rw [up] at eq
      cases eq
  · intro r' claim
    rw [thread] at claim
    have same : r' = r := by
      rcases claim with eq | eq <;> exact (Option.some.inj eq).symm
    rw [same]
    exact ⟨less, of_⟩
  · intro r' less' of' fit'
    obtain rfl := h.unique r' less' r less t of' of_
    rw [record, thread, registry]
    refine ⟨?_, ?_, Or.inl rfl, ?_, Or.inl rfl⟩
    · simp [OsThread.shows, up, Doing.hides]
    · rw [fit'.finished]
      simp [OsThread.past, at_, Doing.finishes]
    · intro r'' eq
      exact (Option.some.inj eq).symm

theorem mainThreadStorage_main (p : Process) (t : Nat) :
    (p.mainThreadStorage asksMain t).2.main = some (p.mainThreadStorage asksMain t).1 := by
  unfold mainThreadStorage
  split
  · rename_i known
    exact known
  · rfl

theorem mainThreadStorage_threads (asksMain : Bool) (p : Process) (t : Nat) : ∃ loopHolder,
    (p.mainThreadStorage asksMain t).2.threads =
      Function.update p.threads t { p.threads t with loopHolder := loopHolder } ∧
    (p.mainThreadStorage asksMain t).2.threadCount = p.threadCount := by
  unfold mainThreadStorage
  split
  · exact ⟨(p.threads t).loopHolder, (Function.update_eq_self t p.threads).symm, rfl⟩
  · obtain ⟨_, _, threadCount, _, _, _, holder, threads⟩ := mainRunloop_only p t
    exact ⟨holder, threads, threadCount⟩

/-- The main thread takes over the record that is kept for it. -/
theorem Sound.claimed {m : Process} {r : Nat} (h : m.Sound) (runs : m.Runs t)
    (kept : (m.threads t).tornDown = false) (first : (m.threads t).holder = none)
    (isMain : (m.threads t).isMain = true) (main : m.main = some r) :
    ((m.ensureNativeIdKnown r t).goTo t (.installing r)).Sound := by
  obtain ⟨among, outside⟩ := runs
  obtain rfl := (h.isMain t among).mp isMain
  obtain ⟨less, isMain'⟩ := (h.main r).mp main
  have of_ := (h.mainThread r less).mp isMain'
  obtain ⟨record, eq, same⟩ : ∃ record, (m.ensureNativeIdKnown r 0).goTo 0 (.installing r) =
      (m.setRecord r record).goTo 0 (.installing r) ∧
      record = { m.records r with nativeId := record.nativeId } ∧
      record.nativeId = some (m.threads 0).id := by
    obtain ⟨_, fit⟩ := h.fits r less 0 of_
    unfold ensureNativeIdKnown
    split
    · rename_i id known
      refine ⟨m.records r, ?_, rfl, ?_⟩
      · simp [setRecord]
      · rcases fit.named with named | ⟨none, _⟩
        · exact named
        · rw [known] at none
          cases none
    · exact ⟨_, rfl, rfl, rfl⟩
  obtain ⟨same, named⟩ := same
  rw [eq]
  have thread_self : ((m.setRecord r record).goTo 0 (.installing r)).threads 0 =
      { m.threads 0 with doing := .installing r } := by
    simp [Process.goTo, setThread, setRecord]
  have record_self : ((m.setRecord r record).goTo 0 (.installing r)).records r = record :=
    Function.update_self _ _ _
  have record_other {r' : Nat} (other : r' ≠ r) :
      ((m.setRecord r record).goTo 0 (.installing r)).records r' = m.records r' :=
    Function.update_of_ne other _ _
  refine h.move (t := 0) ⟨⟨rfl, rfl⟩, ⟨rfl, rfl⟩, fun u other => Function.update_of_ne other _ _,
    ?_, ?_, ?_, ⟨h.nodup, h.made⟩⟩ among ?_ ?_ ?_
  · rw [thread_self]
    exact ⟨rfl, rfl, fun eq => by rw [outside] at eq; cases eq⟩
  · intro r'
    by_cases own : r' = r
    · rw [own, record_self, same]
      exact ⟨rfl, rfl⟩
    · rw [record_other own]
      exact ⟨rfl, rfl⟩
  · intro r' elsewhere
    exact ⟨record_other (fun eq => elsewhere (eq ▸ of_)), Iff.rfl⟩
  · rw [thread_self]
    refine ⟨fun _ => first, (by rintro _ ⟨⟩), ?_, (by rintro ⟨⟩)⟩
    intro eq
    rw [kept] at eq
    cases eq
  · intro r' claim
    rw [thread_self] at claim
    rcases claim with holder | about
    · rw [first] at holder
      cases holder
    · obtain rfl := Option.some.inj about
      exact ⟨less, of_⟩
  · intro r' less' of' fit
    obtain rfl := h.unique r' less' r less 0 of' of_
    rw [record_self, thread_self]
    refine ⟨?_, ?_, Or.inr ⟨first, Or.inl rfl⟩, ?_, Or.inl named⟩
    · rw [show r' ∈ ((m.setRecord r' record).goTo 0 (.installing r')).registry ↔ r' ∈ m.registry
        from Iff.rfl, fit.listed]
      simp [OsThread.shows, outside, Doing.hides]
    · rw [same, show ({ m.records r' with nativeId := record.nativeId } : ThreadRecord).finished =
        (m.records r').finished from rfl, fit.finished]
      simp [OsThread.past, outside, Doing.finishes]
    · intro r'' eq
      exact (Option.some.inj eq).symm

theorem Sound.adopt (h : p.Sound) (runs : p.Runs t) (kept : (p.threads t).tornDown = false)
    (first : (p.threads t).holder = none) :
    ((p.adopt asksMain t).2.goTo t (.installing (p.adopt asksMain t).1)).Sound := by
  unfold Process.adopt
  split
  · rename_i isMain
    obtain ⟨loopHolder, threads, count⟩ := mainThreadStorage_threads asksMain p t
    have own : (p.mainThreadStorage asksMain t).2.threads t =
        { p.threads t with loopHolder := loopHolder } := by
      rw [threads, Function.update_self]
    have sound : (p.mainThreadStorage asksMain t).2.Sound := h.mainThreadStorage runs.1 runs.alive
    refine sound.claimed ⟨count ▸ runs.1, ?_⟩ ?_ ?_ ?_ (mainThreadStorage_main p t)
    · rw [own]
      exact runs.2
    · rw [own]
      exact kept
    · rw [own]
      exact first
    · rw [own]
      exact isMain
  · rename_i other
    exact h.adopted runs kept first (Bool.eq_false_iff.mpr other)

/-- A thread the system starts, with no record yet. -/
theorem Sound.create (h : p.Sound) {id : Nat} (unused : p.Unused id) :
    Sound { p with
      threads := Function.update p.threads p.threadCount (.make id false .outside)
      threadCount := p.threadCount + 1 } := by
  have old {u : Nat} (less : u < p.threadCount) :
      Function.update p.threads p.threadCount (.make id false .outside) u = p.threads u :=
    Function.update_of_ne (Nat.ne_of_lt less) _ _
  have new : Function.update p.threads p.threadCount (.make id false .outside) p.threadCount =
      .make id false .outside := Function.update_self _ _ _
  have cases_ {u : Nat} (less : u < p.threadCount + 1) :
      u < p.threadCount ∨ u = p.threadCount := by omega
  refine ⟨h.nodup, h.made, Nat.succ_pos _, ?_, ?_, ?_, ?_, ?_, h.orphan, h.main, h.mainThread,
    h.placeholder, h.unique, ?_⟩
  · intro u more
    replace more : p.threadCount + 1 ≤ u := more
    simp only [Function.update_of_ne (show u ≠ p.threadCount by omega)]
    exact h.beyond u (by omega)
  · intro u less
    rcases cases_ less with less | rfl
    · simp only [old less]
      exact h.isMain u less
    · simp only [new]
      have := h.some_thread
      simp only [OsThread.make, Bool.false_eq_true, false_iff]
      omega
  · intro u less
    rcases cases_ less with less | rfl
    · simp only [old less]
      exact h.coherent u less
    · simp only [new]
      exact ⟨fun _ => rfl, (fun _ eq => nomatch eq), (fun eq => nomatch eq), (fun eq => nomatch eq)⟩
  · intro u less r claim
    rcases cases_ less with less | rfl
    · simp only [old less] at claim
      exact h.claims u less r claim
    · simp only [new] at claim
      rcases claim with eq | eq <;> cases eq
  · intro r less u own
    obtain ⟨known, fit⟩ := h.fits r less u own
    simp only [old known]
    exact ⟨Nat.lt_succ_of_lt known, fit⟩
  · intro u less v less' alive alive' same
    rcases cases_ less with less | rfl
    · simp only [old less] at alive same
      rcases cases_ less' with less' | rfl
      · simp only [old less'] at alive' same
        exact h.distinct u less v less' alive alive' same
      · simp only [new] at same
        exact absurd same (unused u less alive)
    · rcases cases_ less' with less' | rfl
      · simp only [old less', new] at alive' same
        exact absurd same.symm (unused v less' alive')
      · rfl

theorem Sound.started {id : Nat} {runLoop : Bool} (h : p.Sound) (runs : p.Runs t)
    (unused : p.Unused id) : (p.start t id runLoop).Sound := by
  have waiting : (p.goTo t (.starting p.recordCount)).Sound := by
    refine h.goTo runs.1 ?_ ?_ ?_ rfl ?_ (by rintro _ ⟨⟩) (by rintro ⟨⟩)
    · rw [runs.2]
      rfl
    · rw [runs.2]
      rfl
    · rw [runs.2]
      rfl
    · rw [runs.2]
      rintro ⟨⟩
  have old {u : Nat} (less : u < p.threadCount) : (p.start t id runLoop).threads u =
      (p.goTo t (.starting p.recordCount)).threads u :=
    Function.update_of_ne (Nat.ne_of_lt less) _ _
  have new : (p.start t id runLoop).threads p.threadCount =
      .make id false (.beginning p.recordCount runLoop) := Function.update_self _ _ _
  have record : (p.start t id runLoop).records p.recordCount = .fresh (some p.threadCount) :=
    Function.update_self _ _ _
  have nonzero : p.threadCount ≠ 0 := Nat.ne_of_gt h.some_thread
  have ids (u : Nat) : ((p.goTo t (.starting p.recordCount)).threads u).id = (p.threads u).id ∧
      (((p.goTo t (.starting p.recordCount)).threads u).doing ≠ .ended →
        (p.threads u).doing ≠ .ended) := by
    by_cases same : u = t
    · subst same
      refine ⟨by simp [Process.goTo, setThread], fun _ => ?_⟩
      rw [runs.2]
      rintro ⟨⟩
    · simp [Process.goTo, setThread, same]
  refine waiting.grow (t := p.threadCount) ⟨rfl, Or.inr ⟨rfl, rfl⟩, ?_, ?_,
    fun _ _ different => Function.update_of_ne different _ _, ?_, ?_, ?_, ?_, rfl,
    Or.inr rfl, ?_, ?_, ?_⟩
  · intro r less
    exact Function.update_of_ne (Nat.ne_of_lt less) _ _
  · intro u less _
    exact old less
  · intro r less own
    exact Nat.lt_irrefl _ (h.fits r less p.threadCount own).1
  · exact congrArg ThreadRecord.ofThread record
  · rw [show ((p.start t id runLoop).records (p.goTo t (.starting p.recordCount)).recordCount).isMain
      = false from congrArg ThreadRecord.isMain record]
    simp [nonzero]
  · exact (if_neg nonzero).symm
  · rw [new]
    refine ⟨by simp [OsThread.make, nonzero], ⟨fun _ => rfl, (by rintro _ ⟨⟩),
      (by rintro ⟨⟩), (by rintro ⟨⟩)⟩, rfl, ?_⟩
    intro r eq
    exact (Option.some.inj eq).symm
  · rw [show (p.start t id runLoop).records (p.goTo t (.starting p.recordCount)).recordCount =
      .fresh (some p.threadCount) from record, new]
    refine ⟨?_, rfl, Or.inr ⟨rfl, Or.inl rfl⟩, ?_, Or.inr ⟨rfl, Or.inr ⟨runLoop, rfl⟩⟩⟩
    · refine ⟨fun mem => absurd (h.made _ mem) (Nat.lt_irrefl _), fun shows => ?_⟩
      cases shows
    · intro r eq
      exact (Option.some.inj eq).symm
  · intro _ u less _ alive
    rw [new, (ids u).1]
    exact unused u less ((ids u).2 alive)

/-! ## Every step -/

/-- A request to stop is nothing the registry knows of. -/
theorem Sound.cancel {r : Nat} (h : p.Sound) :
    (p.setRecord r { p.records r with stopRequested := true }).Sound := by
  have same (r' : Nat) : Function.update p.records r
      { p.records r with stopRequested := true } r' =
        { p.records r' with stopRequested := (r' == r) || (p.records r').stopRequested } := by
    by_cases own : r' = r
    · subst own
      simp
    · rw [Function.update_of_ne own, beq_false_of_ne own, Bool.false_or]
  refine ⟨h.nodup, h.made, h.some_thread, h.beyond, h.isMain, h.coherent, ?_, ?_, ?_, ?_, ?_, ?_, ?_,
    h.distinct⟩
  · intro t less r' claim
    simp only [setRecord, same]
    exact h.claims t less r' claim
  · intro r' less t own
    simp only [setRecord, same] at own ⊢
    obtain ⟨known, fit⟩ := h.fits r' less t own
    exact ⟨known, fit.listed, fit.finished, fit.place, fit.about, fit.named⟩
  · intro r' less none
    simp only [setRecord, same] at none ⊢
    obtain ⟨orphan, known⟩ := h.orphan r' less none
    exact ⟨⟨orphan.finished, orphan.unlisted, orphan.unnamed, orphan.isMain, orphan.loop⟩, known⟩
  · intro r'
    simp only [setRecord, same]
    exact h.main r'
  · intro r' less
    simp only [setRecord, same]
    exact h.mainThread r' less
  · intro r' known
    simp only [setRecord, same]
    exact h.placeholder r' known
  · intro r' less r'' less' t
    simp only [setRecord, same]
    exact h.unique r' less r'' less' t

theorem Sound.performOn (h : p.Sound) (loop : Option Nat) : (p.performOn loop).Sound := by
  cases loop with
  | none => exact h
  | some l => exact h.setLoop l _

theorem performOn_threads (loop : Option Nat) : (p.performOn loop).threads = p.threads := by
  cases loop <;> rfl

theorem performOn_threadCount (loop : Option Nat) :
    (p.performOn loop).threadCount = p.threadCount := by
  cases loop <;> rfl

theorem Sound.step (h : p.Sound) (step : Step asksMain p q) : q.Sound := by
  cases step with
  | create id unused => exact h.create unused
  | start t id runLoop runs unused => exact h.started runs unused
  | begin_ t r runLoop at_ => exact h.begin_ (h.within at_ (by rintro ⟨⟩)) at_
  | publish t r at_ => exact h.publish (h.within at_ (by rintro ⟨⟩)) at_
  | notifyReady t r at_ =>
    refine h.goTo (h.within at_ (by rintro ⟨⟩)) ?_ ?_ ?_ rfl ?_ (by rintro _ ⟨⟩)
      (by rintro ⟨⟩) <;> rw [at_] <;> first | rfl | rintro ⟨⟩
  | started t r at_ published =>
    refine h.goTo (h.within at_ (by rintro ⟨⟩)) ?_ ?_ ?_ rfl ?_ (by rintro _ ⟨⟩)
      (by rintro ⟨⟩) <;> rw [at_] <;> first | rfl | rintro ⟨⟩
  | adopt t runs kept first => exact h.adopt runs kept first
  | install t r at_ => exact h.installed (h.within at_ (by rintro ⟨⟩)) at_
  | nameFinished t runs gone => exact h.orphaned
  | nameMain t runs other => exact h.mainThreadStorage runs.1 runs.alive
  | nameLoop t runs => exact h.only (loopForCurrentThread_only p t) runs.1 runs.alive
  | nameMainLoop t runs => exact h.only (mainRunloop_only p t) runs.1 runs.alive
  | perform t r runs made open_ =>
    refine h.goTo runs.1 ?_ ?_ ?_ rfl runs.alive (by rintro _ ⟨⟩)
      (by rintro ⟨⟩) <;> rw [runs.2] <;> rfl
  | delegate t r at_ =>
    have sound : (p.performOn (p.records r).loop).Sound := h.performOn _
    have same : (p.performOn (p.records r).loop).threads = p.threads := performOn_threads _
    have count : (p.performOn (p.records r).loop).threadCount = p.threadCount :=
      performOn_threadCount _
    refine sound.goTo (count ▸ h.within at_ (by rintro ⟨⟩)) ?_ ?_ ?_ rfl ?_
      (by rintro _ ⟨⟩) (by rintro ⟨⟩) <;> rw [same, at_] <;> first | rfl | rintro ⟨⟩
  | cancel r made => exact h.cancel
  | loop l later made step => exact h.setLoop l later
  | leave t runs => exact h.mark runs ⟨rfl, rfl⟩ runs.2 rfl rfl
  | dropLoop t l runs leaving held kept =>
    have marked : (p.setThread t { p.threads t with loopTornDown := true }).Sound :=
      h.mark runs ⟨rfl, rfl⟩ runs.2 rfl rfl
    exact marked.setLoop l _
  | deregister t r runs leaving held kept => exact h.deregister runs held kept
  | markFinished t r at_ => exact h.markFinished (h.within at_ (by rintro ⟨⟩)) at_
  | tearDown t r at_ => exact h.tearDown (h.within at_ (by rintro ⟨⟩)) at_
  | end_ t runs leaving cleared =>
    refine h.goTo runs.1 ?_ ?_ ?_ rfl runs.alive (by rintro _ ⟨⟩)
      (fun _ => cleared) <;> rw [runs.2] <;> rfl

end Process

end Dross
