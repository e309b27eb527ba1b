import Dross.Thread.ThreadRecords
import Mathlib.Data.List.Nodup

/-!
# How records stand to threads

A record is in the registry from when its thread has registered it until that thread
begins to end, and is marked finished only after. The invariant says of each record how
it stands to the one thread it is the record of, so a step has to be looked at for the
thread that takes it alone.
-/

namespace Dross

namespace Doing

/-- The thread's own record, where it is at work on that. -/
def about : Doing → Option Nat
  | beginning r _ | registered r | published r | installing r | deregistered r | finishing r =>
    some r
  | _ => none

def hides : Doing → Bool
  | beginning _ _ | deregistered _ | finishing _ => true
  | _ => false

def finishes : Doing → Bool
  | finishing _ => true
  | _ => false

/-- Whether the holder is installed from here on, and not yet destroyed. -/
def holds : Doing → Option Nat
  | registered r | published r | deregistered r | finishing r => some r
  | _ => none

/-- Whether nothing is installed yet. -/
def precedes : Doing → Bool
  | beginning _ _ | installing _ => true
  | _ => false

end Doing

namespace OsThread

/-- Whether the thread's record is in the registry. -/
def shows (t : OsThread) : Bool := ! t.tornDown && ! t.doing.hides

/-- Whether the thread's record is marked finished. -/
def past (t : OsThread) : Bool := t.tornDown || t.doing.finishes

/-- How a thread's holders and marks agree with what it does. -/
structure Coherent (t : OsThread) : Prop where
  bare : t.doing.precedes = true → t.holder = none
  held : ∀ r, t.doing.holds = some r → t.holder = some r ∧ t.tornDown = false
  torn : t.tornDown = true → ∃ r, t.holder = some r
  ended : t.doing = .ended → (t.holder = none ∨ t.tornDown = true) ∧
    (t.loopHolder = none ∨ t.loopTornDown = true)

theorem Coherent.up {t : OsThread} (h : t.Coherent) (bare : t.holder = none) :
    t.tornDown = false := by
  cases torn : t.tornDown with
  | false => rfl
  | true =>
    obtain ⟨r, held⟩ := h.torn torn
    rw [bare] at held
    cases held

end OsThread

/-- How a record stands to the thread it is the record of. -/
structure ThreadRecord.Fits (record : ThreadRecord) (r : Nat) (thread : OsThread) (listed : Prop) :
    Prop where
  listed : listed ↔ thread.shows = true
  finished : record.finished = thread.past
  place : thread.holder = some r ∨ thread.holder = none ∧
    (thread.doing.about = some r ∨ record.isMain = true)
  about : ∀ r', thread.doing.about = some r' → r' = r
  named : record.nativeId = some thread.id ∨ record.nativeId = none ∧
    (record.isMain = true ∨ ∃ runLoop, thread.doing = .beginning r runLoop)

/-- The placeholder: finished, of no thread, and never anything else. -/
structure ThreadRecord.Orphan (record : ThreadRecord) (listed : Prop) : Prop where
  finished : record.finished = true
  unlisted : ¬ listed
  unnamed : record.nativeId = none
  isMain : record.isMain = false
  loop : record.loop = none

namespace Process

variable {asksMain : Bool} {p q : Process} {t : Nat}

structure Sound (p : Process) : Prop where
  nodup : p.registry.Nodup
  made : ∀ r ∈ p.registry, r < p.recordCount
  some_thread : 0 < p.threadCount
  beyond : ∀ t, p.threadCount ≤ t → (p.threads t).doing = .outside
  isMain : ∀ t < p.threadCount, (p.threads t).isMain = true ↔ t = 0
  coherent : ∀ t < p.threadCount, (p.threads t).Coherent
  claims : ∀ t < p.threadCount, ∀ r, (p.threads t).holder = some r ∨
    (p.threads t).doing.about = some r → r < p.recordCount ∧ (p.records r).ofThread = some t
  fits : ∀ r < p.recordCount, ∀ t, (p.records r).ofThread = some t → t < p.threadCount ∧
    (p.records r).Fits r (p.threads t) (r ∈ p.registry)
  orphan : ∀ r < p.recordCount, (p.records r).ofThread = none →
    (p.records r).Orphan (r ∈ p.registry) ∧ p.placeholder = some r
  main : ∀ r, p.main = some r ↔ r < p.recordCount ∧ (p.records r).isMain = true
  mainThread : ∀ r < p.recordCount, (p.records r).isMain = true ↔ (p.records r).ofThread = some 0
  placeholder : ∀ r, p.placeholder = some r → r < p.recordCount ∧ (p.records r).ofThread = none
  unique : ∀ r < p.recordCount, ∀ r' < p.recordCount, ∀ t, (p.records r).ofThread = some t →
    (p.records r').ofThread = some t → r = r'
  distinct : ∀ t < p.threadCount, ∀ u < p.threadCount, (p.threads t).doing ≠ .ended →
    (p.threads u).doing ≠ .ended → (p.threads t).id = (p.threads u).id → t = u

theorem Runs.alive (runs : p.Runs t) : (p.threads t).doing ≠ .ended := by
  rw [runs.2]
  rintro ⟨⟩

theorem Sound.within {doing : Doing} (h : p.Sound) (at_ : (p.threads t).doing = doing)
    (other : doing ≠ .outside) : t < p.threadCount := by
  by_contra beyond
  rw [h.beyond t (Nat.le_of_not_lt beyond)] at at_
  exact other at_.symm

/-- What one thread does to itself and its record leaves every other as it was. -/
structure Moves (p q : Process) (t : Nat) : Prop where
  counts : q.recordCount = p.recordCount ∧ q.threadCount = p.threadCount
  statics : q.main = p.main ∧ q.placeholder = p.placeholder
  others : ∀ u, u ≠ t → q.threads u = p.threads u
  same : (q.threads t).id = (p.threads t).id ∧ (q.threads t).isMain = (p.threads t).isMain ∧
    ((p.threads t).doing = .ended → (q.threads t).doing = .ended)
  records : ∀ r, (q.records r).ofThread = (p.records r).ofThread ∧
    (q.records r).isMain = (p.records r).isMain
  elsewhere : ∀ r, (p.records r).ofThread ≠ some t → q.records r = p.records r ∧
    (r ∈ q.registry ↔ r ∈ p.registry)
  listed : q.registry.Nodup ∧ ∀ r ∈ q.registry, r < p.recordCount

theorem Sound.move (h : p.Sound) (moves : Moves p q t) (among : t < p.threadCount)
    (coherent : (q.threads t).Coherent)
    (claims : ∀ r, (q.threads t).holder = some r ∨ (q.threads t).doing.about = some r →
      r < p.recordCount ∧ (p.records r).ofThread = some t)
    (fits : ∀ r < p.recordCount, (p.records r).ofThread = some t →
      (p.records r).Fits r (p.threads t) (r ∈ p.registry) →
        (q.records r).Fits r (q.threads t) (r ∈ q.registry)) : q.Sound where
  nodup := moves.listed.1
  made := by
    rw [moves.counts.1]
    exact moves.listed.2
  some_thread := by
    rw [moves.counts.2]
    exact h.some_thread
  beyond := by
    intro u more
    rw [moves.counts.2] at more
    rw [moves.others u (fun same => absurd among (Nat.not_lt.mpr (same ▸ more)))]
    exact h.beyond u more
  isMain := by
    intro u less
    rw [moves.counts.2] at less
    by_cases same : u = t
    · subst same
      rw [moves.same.2.1]
      exact h.isMain u less
    · rw [moves.others u same]
      exact h.isMain u less
  coherent := by
    intro u less
    rw [moves.counts.2] at less
    by_cases same : u = t
    · subst same
      exact coherent
    · rw [moves.others u same]
      exact h.coherent u less
  claims := by
    intro u less r claim
    rw [moves.counts.2] at less
    rw [moves.counts.1, (moves.records r).1]
    by_cases same : u = t
    · subst same
      exact claims r claim
    · rw [moves.others u same] at claim
      exact h.claims u less r claim
  fits := by
    intro r less u own
    rw [moves.counts.1] at less
    rw [(moves.records r).1] at own
    obtain ⟨known, fit⟩ := h.fits r less u own
    refine ⟨moves.counts.2 ▸ known, ?_⟩
    by_cases same : u = t
    · subst same
      exact fits r less own fit
    · have other : (p.records r).ofThread ≠ some t := by
        rw [own]
        exact fun eq => same (Option.some.inj eq)
      obtain ⟨record, listed⟩ := moves.elsewhere r other
      rw [record, moves.others u same, listed]
      exact fit
  orphan := by
    intro r less none
    rw [moves.counts.1] at less
    rw [(moves.records r).1] at none
    obtain ⟨record, listed⟩ := moves.elsewhere r (by rw [none]; exact fun eq => nomatch eq)
    rw [record, listed, moves.statics.2]
    exact h.orphan r less none
  main := by
    intro r
    rw [moves.statics.1, moves.counts.1, (moves.records r).2]
    exact h.main r
  mainThread := by
    intro r
    rw [moves.counts.1, (moves.records r).1, (moves.records r).2]
    exact h.mainThread r
  placeholder := by
    intro r
    rw [moves.statics.2, moves.counts.1, (moves.records r).1]
    exact h.placeholder r
  unique := by
    intro r less r' less' u
    rw [moves.counts.1] at less less'
    rw [(moves.records r).1, (moves.records r').1]
    exact h.unique r less r' less' u
  distinct := by
    have kept : ∀ u, (q.threads u).id = (p.threads u).id ∧
        ((p.threads u).doing = .ended → (q.threads u).doing = .ended) := by
      intro u
      by_cases same : u = t
      · subst same
        exact ⟨moves.same.1, moves.same.2.2⟩
      · rw [moves.others u same]
        exact ⟨rfl, id⟩
    intro u less v less' alive alive' same
    rw [moves.counts.2] at less less'
    rw [(kept u).1, (kept v).1] at same
    exact h.distinct u less v less' (fun ended => alive ((kept u).2 ended))
      (fun ended => alive' ((kept v).2 ended)) same

/-- A record is made for a thread that had none, and that may itself be new. -/
structure Grows (p q : Process) (t : Nat) : Prop where
  recordCount : q.recordCount = p.recordCount + 1
  threadCount : q.threadCount = p.threadCount ∧ t < p.threadCount ∨
    q.threadCount = p.threadCount + 1 ∧ t = p.threadCount
  records : ∀ r < p.recordCount, q.records r = p.records r
  threads : ∀ u < p.threadCount, u ≠ t → q.threads u = p.threads u
  beyond : ∀ u, q.threadCount ≤ u → u ≠ t → q.threads u = p.threads u
  none : ∀ r < p.recordCount, (p.records r).ofThread ≠ some t
  own : (q.records p.recordCount).ofThread = some t
  isMain : (q.records p.recordCount).isMain = true ↔ t = 0
  main : q.main = if t = 0 then some p.recordCount else p.main
  placeholder : q.placeholder = p.placeholder
  registry : q.registry = p.registry ++ [p.recordCount] ∨ q.registry = p.registry
  thread : ((q.threads t).isMain = true ↔ t = 0) ∧ (q.threads t).Coherent ∧
    (q.threads t).holder = Option.none ∧
    ∀ r, (q.threads t).doing.about = some r → r = p.recordCount
  fits : (q.records p.recordCount).Fits p.recordCount (q.threads t) (p.recordCount ∈ q.registry)
  distinct : (q.threads t).doing ≠ .ended → ∀ u < p.threadCount, u ≠ t →
    (p.threads u).doing ≠ .ended → (p.threads u).id ≠ (q.threads t).id

theorem Grows.lt (grows : Grows p q t) : t < q.threadCount := by
  rcases grows.threadCount with ⟨same, less⟩ | ⟨more, rfl⟩
  · rw [same]
    exact less
  · rw [more]
    exact Nat.lt_succ_self _

theorem Grows.old {u : Nat} (grows : Grows p q t) (less : u < q.threadCount) (other : u ≠ t) :
    u < p.threadCount := by
  rcases grows.threadCount with ⟨same, _⟩ | ⟨more, rfl⟩
  · rwa [same] at less
  · rw [more] at less
    omega

theorem Grows.listed (grows : Grows p q t) {r : Nat} (less : r < p.recordCount) :
    r ∈ q.registry ↔ r ∈ p.registry := by
  rcases grows.registry with more | same
  · rw [more, List.mem_append, List.mem_singleton]
    exact ⟨fun mem => mem.resolve_right (Nat.ne_of_lt less), Or.inl⟩
  · rw [same]

theorem Sound.grow (h : p.Sound) (grows : Grows p q t) : q.Sound where
  nodup := by
    rcases grows.registry with more | same
    · rw [more, List.nodup_append]
      refine ⟨h.nodup, List.nodup_singleton _, fun r mem r' mem' => ?_⟩
      rw [List.mem_singleton.mp mem']
      exact Nat.ne_of_lt (h.made r mem)
    · rw [same]
      exact h.nodup
  made := by
    intro r mem
    rw [grows.recordCount]
    rcases grows.registry with more | same
    · rw [more, List.mem_append, List.mem_singleton] at mem
      rcases mem with mem | rfl
      · exact Nat.lt_succ_of_lt (h.made r mem)
      · exact Nat.lt_succ_self _
    · rw [same] at mem
      exact Nat.lt_succ_of_lt (h.made r mem)
  some_thread := Nat.lt_of_le_of_lt (Nat.zero_le t) grows.lt
  beyond := by
    intro u more
    have other : u ≠ t := fun same => absurd grows.lt (Nat.not_lt.mpr (same ▸ more))
    rw [grows.beyond u more other]
    refine h.beyond u (Nat.le_trans ?_ more)
    rcases grows.threadCount with ⟨same, _⟩ | ⟨more, _⟩ <;> omega
  isMain := by
    intro u less
    by_cases same : u = t
    · subst same
      exact grows.thread.1
    · rw [grows.threads u (grows.old less same) same]
      exact h.isMain u (grows.old less same)
  coherent := by
    intro u less
    by_cases same : u = t
    · subst same
      exact grows.thread.2.1
    · rw [grows.threads u (grows.old less same) same]
      exact h.coherent u (grows.old less same)
  claims := by
    intro u less r claim
    rw [grows.recordCount]
    by_cases same : u = t
    · subst same
      obtain rfl : r = p.recordCount := by
        rcases claim with holder | about
        · rw [grows.thread.2.2.1] at holder
          cases holder
        · exact grows.thread.2.2.2 r about
      exact ⟨Nat.lt_succ_self _, grows.own⟩
    · rw [grows.threads u (grows.old less same) same] at claim
      obtain ⟨made, own⟩ := h.claims u (grows.old less same) r claim
      rw [grows.records r made]
      exact ⟨Nat.lt_succ_of_lt made, own⟩
  fits := by
    intro r less u own
    rw [grows.recordCount] at less
    by_cases new : r = p.recordCount
    · subst new
      rw [grows.own] at own
      obtain rfl := Option.some.inj own
      exact ⟨grows.lt, grows.fits⟩
    · have old : r < p.recordCount := by omega
      rw [grows.records r old] at own ⊢
      have other : u ≠ t := fun same => grows.none r old (same ▸ own)
      obtain ⟨known, fit⟩ := h.fits r old u own
      rw [grows.threads u known other, grows.listed old]
      refine ⟨?_, fit⟩
      rcases grows.threadCount with ⟨same, _⟩ | ⟨more, _⟩ <;> omega
  orphan := by
    intro r less none
    rw [grows.recordCount] at less
    have old : r < p.recordCount := by
      by_contra new
      obtain rfl : r = p.recordCount := by omega
      rw [grows.own] at none
      cases none
    rw [grows.records r old] at none ⊢
    rw [grows.listed old, grows.placeholder]
    exact h.orphan r old none
  main := by
    intro r
    rw [grows.recordCount]
    by_cases new : r = p.recordCount
    · subst new
      rw [grows.main, grows.isMain]
      have gone : p.main ≠ some p.recordCount := fun eq => Nat.lt_irrefl _ ((h.main _).mp eq).1
      split <;> simp_all
    · have same : r < p.recordCount + 1 ↔ r < p.recordCount := by omega
      rw [same]
      by_cases old : r < p.recordCount
      · rw [grows.records r old, ← h.main r, grows.main]
        split
        · rename_i first
          subst first
          have absent : p.main ≠ some r := fun eq =>
            grows.none r old ((h.mainThread r old).mp ((h.main r).mp eq).2)
          simp [absent, Ne.symm new]
        · rfl
      · have gone : p.main ≠ some r := fun eq => old ((h.main _).mp eq).1
        rw [grows.main]
        split
        · simp [old, Ne.symm new]
        · simp [old, gone]
  mainThread := by
    intro r less
    rw [grows.recordCount] at less
    by_cases new : r = p.recordCount
    · subst new
      rw [grows.own, grows.isMain, Option.some.injEq]
    · have old : r < p.recordCount := by omega
      rw [grows.records r old]
      exact h.mainThread r old
  placeholder := by
    intro r eq
    rw [grows.placeholder] at eq
    obtain ⟨old, none⟩ := h.placeholder r eq
    rw [grows.recordCount, grows.records r old]
    exact ⟨Nat.lt_succ_of_lt old, none⟩
  unique := by
    intro r less r' less' u own own'
    rw [grows.recordCount] at less less'
    by_cases new : r = p.recordCount
    · subst new
      rw [grows.own] at own
      obtain rfl := Option.some.inj own
      by_contra different
      have old : r' < p.recordCount := by omega
      rw [grows.records r' old] at own'
      exact grows.none r' old own'
    · have old : r < p.recordCount := by omega
      rw [grows.records r old] at own
      by_cases new' : r' = p.recordCount
      · subst new'
        rw [grows.own] at own'
        exact absurd (own'.symm ▸ own) (grows.none r old)
      · have old' : r' < p.recordCount := by omega
        rw [grows.records r' old'] at own'
        exact h.unique r old r' old' u own own'
  distinct := by
    intro u less v less' alive alive' same
    by_cases first : u = t
    · by_cases second : v = t
      · rw [first, second]
      · rw [grows.threads v (grows.old less' second) second] at alive' same
        subst first
        exact absurd same.symm (grows.distinct alive v (grows.old less' second) second alive')
    · rw [grows.threads u (grows.old less first) first] at alive same
      by_cases second : v = t
      · subst second
        exact absurd same (grows.distinct alive' u (grows.old less first) first alive)
      · rw [grows.threads v (grows.old less' second) second] at alive' same
        exact h.distinct u (grows.old less first) v (grows.old less' second) alive alive' same

/-- A record of no thread is made, once, as the placeholder. -/
theorem Sound.orphaned (h : p.Sound) : p.finishedPlaceholder.2.Sound := by
  cases known : p.placeholder with
  | some r =>
    have same : p.finishedPlaceholder.2 = p := by
      unfold finishedPlaceholder
      rw [known]
    rw [same]
    exact h
  | none =>
    obtain ⟨q, made⟩ : ∃ q, q = p.finishedPlaceholder.2 := ⟨_, rfl⟩
    rw [← made]
    replace made : q = { p with
        records := Function.update p.records p.recordCount
          { ThreadRecord.fresh Option.none with finished := true }
        recordCount := p.recordCount + 1
        placeholder := some p.recordCount } := by
      rw [made]
      unfold finishedPlaceholder
      rw [known]
      rfl
    have count : q.recordCount = p.recordCount + 1 := by rw [made]
    have registry : q.registry = p.registry := by rw [made]
    have threads : q.threads = p.threads := by rw [made]
    have threadCount : q.threadCount = p.threadCount := by rw [made]
    have main : q.main = p.main := by rw [made]
    have old {r : Nat} (less : r < p.recordCount) : q.records r = p.records r := by
      rw [made]
      exact Function.update_of_ne (Nat.ne_of_lt less) _ _
    have new : q.records p.recordCount =
        { ThreadRecord.fresh Option.none with finished := true } := by
      rw [made]
      exact Function.update_self _ _ _
    have cases_ {r : Nat} (less : r < q.recordCount) : r < p.recordCount ∨ r = p.recordCount := by
      omega
    have orphan : (q.records p.recordCount).ofThread = Option.none := by rw [new]; rfl
    exact {
      nodup := registry ▸ h.nodup
      made := fun r mem => count ▸ Nat.lt_succ_of_lt (h.made r (registry ▸ mem))
      some_thread := threadCount ▸ h.some_thread
      beyond := by
        rw [threads, threadCount]
        exact h.beyond
      isMain := by
        rw [threads, threadCount]
        exact h.isMain
      coherent := by
        rw [threads, threadCount]
        exact h.coherent
      claims := by
        intro u less r claim
        rw [threads] at claim
        obtain ⟨less', own⟩ := h.claims u (threadCount ▸ less) r claim
        rw [count, old less']
        exact ⟨Nat.lt_succ_of_lt less', own⟩
      fits := by
        intro r less u own
        rcases cases_ less with less | rfl
        · rw [old less] at own ⊢
          rw [threads, threadCount, registry]
          exact h.fits r less u own
        · rw [orphan] at own
          cases own
      orphan := by
        intro r less none
        rcases cases_ less with less | rfl
        · rw [old less] at none
          have := (h.orphan r less none).2
          rw [known] at this
          cases this
        · rw [new, registry]
          exact ⟨⟨rfl, fun mem => Nat.lt_irrefl _ (h.made _ mem), rfl, rfl, rfl⟩, by rw [made]⟩
      main := by
        intro r
        rw [main, h.main r]
        by_cases less : r < p.recordCount
        · rw [old less]
          exact ⟨fun both => ⟨by omega, both.2⟩, fun both => ⟨less, both.2⟩⟩
        · refine ⟨fun both => absurd both.1 less, fun both => ?_⟩
          obtain rfl := (cases_ both.1).resolve_left less
          rw [new] at both
          cases both.2
      mainThread := by
        intro r less
        rcases cases_ less with less | rfl
        · rw [old less]
          exact h.mainThread r less
        · rw [new]
          simp [ThreadRecord.fresh]
      placeholder := by
        intro r eq
        have same : q.placeholder = some p.recordCount := by rw [made]
        rw [same] at eq
        obtain rfl := Option.some.inj eq
        exact ⟨by omega, orphan⟩
      unique := by
        intro r less r' less' u own own'
        rcases cases_ less with less | rfl
        · rcases cases_ less' with less' | rfl
          · rw [old less] at own
            rw [old less'] at own'
            exact h.unique r less r' less' u own own'
          · rw [orphan] at own'
            cases own'
        · rw [orphan] at own
          cases own
      distinct := by
        rw [threads, threadCount]
        exact h.distinct }

/-! ## What only touches loops -/

/-- Only loops change, and which loop a thread holds. -/
structure LoopsOnly (p q : Process) (t : Nat) : Prop where
  records : q.records = p.records
  recordCount : q.recordCount = p.recordCount
  threadCount : q.threadCount = p.threadCount
  registry : q.registry = p.registry
  main : q.main = p.main
  placeholder : q.placeholder = p.placeholder
  threads : ∃ holder, q.threads =
    Function.update p.threads t { p.threads t with loopHolder := holder }

theorem LoopsOnly.of_threads (records : q.records = p.records)
    (recordCount : q.recordCount = p.recordCount) (threadCount : q.threadCount = p.threadCount)
    (registry : q.registry = p.registry) (main : q.main = p.main)
    (placeholder : q.placeholder = p.placeholder) (threads : q.threads = p.threads) :
    LoopsOnly p q t :=
  ⟨records, recordCount, threadCount, registry, main, placeholder, (p.threads t).loopHolder, by
    rw [threads]
    exact (Function.update_eq_self t p.threads).symm⟩

theorem mainLoopStorage_only (p : Process) (t : Nat) : LoopsOnly p p.mainLoopStorage.2 t := by
  unfold mainLoopStorage
  split
  · exact .of_threads rfl rfl rfl rfl rfl rfl rfl
  · exact .of_threads rfl rfl rfl rfl rfl rfl rfl

theorem finishedLoop_only (p : Process) (t : Nat) : LoopsOnly p p.finishedLoop.2 t := by
  unfold finishedLoop
  split
  · exact .of_threads rfl rfl rfl rfl rfl rfl rfl
  · exact .of_threads rfl rfl rfl rfl rfl rfl rfl

theorem mainLoopStorage_threads (p : Process) : p.mainLoopStorage.2.threads = p.threads := by
  unfold mainLoopStorage
  split <;> rfl

theorem loopForCurrentThread_only (p : Process) (t : Nat) :
    LoopsOnly p (p.loopForCurrentThread t).2 t := by
  unfold loopForCurrentThread
  split
  · exact finishedLoop_only p t
  · split
    · exact .of_threads rfl rfl rfl rfl rfl rfl rfl
    · split
      · obtain ⟨records, recordCount, threadCount, registry, main, placeholder, _⟩ :=
          mainLoopStorage_only p t
        refine ⟨records, recordCount, threadCount, registry, main, placeholder,
          some p.mainLoopStorage.1, ?_⟩
        simp only [setThread, mainLoopStorage_threads]
      · exact ⟨rfl, rfl, rfl, rfl, rfl, rfl, some p.loopCount, rfl⟩

theorem mainRunloop_only (p : Process) (t : Nat) : LoopsOnly p (p.mainRunloop t).2 t := by
  unfold mainRunloop
  split
  · exact loopForCurrentThread_only p t
  · exact mainLoopStorage_only p t

theorem Sound.only (h : p.Sound) (only : LoopsOnly p q t) (among : t < p.threadCount)
    (alive : (p.threads t).doing ≠ .ended) : q.Sound := by
  obtain ⟨records, recordCount, threadCount, registry, main, placeholder, holder, threads⟩ := only
  have own : q.threads t = { p.threads t with loopHolder := holder } := by
    rw [threads, Function.update_self]
  refine h.move (t := t) ⟨⟨recordCount, threadCount⟩, ⟨main, placeholder⟩, ?_, ?_, ?_, ?_, ?_⟩
    among ?_ ?_ ?_
  · intro u other
    rw [threads, Function.update_of_ne other]
  · rw [own]
    exact ⟨rfl, rfl, id⟩
  · intro r
    rw [records]
    exact ⟨rfl, rfl⟩
  · intro r _
    rw [records, registry]
    exact ⟨rfl, Iff.rfl⟩
  · rw [registry]
    exact ⟨h.nodup, h.made⟩
  · obtain ⟨bare, held, torn, _⟩ := h.coherent t among
    rw [own]
    exact ⟨bare, held, torn, fun ended => absurd ended alive⟩
  · intro r claim
    rw [own] at claim
    exact h.claims t among r claim
  · intro r _ _ fit
    rw [records, registry, own]
    exact ⟨fit.listed, fit.finished, fit.place, fit.about, fit.named⟩

end Process

end Dross
