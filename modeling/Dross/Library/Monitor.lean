import Dross.Library.Transition
import Mathlib.Data.List.Basic
import Mathlib.Data.Nat.Init
import Mathlib.Order.Lattice

/-!
# Waiting on a condition variable

Callers wait under a mutex until something holds of what the mutex guards, or until a
deadline; one that may not wait is answered at once. Whoever makes it hold notifies them
all, but only after the mutex is released, so a caller may look before, between and after.
-/

namespace Monitor

universe u v w

/-- What a mutex guards, what callers wait for, which of them may, and which steps owe a
notification. -/
structure Rules (State : Type u) (Goal : Type v) where
  init : State → Prop
  step : State → State → Prop
  announces : State → State → Prop
  admits : State → Goal → Prop
  holds : State → Goal → Bool
  waits : State → Goal → Bool := fun _ _ => true

namespace Rules

variable {State : Type u} {Goal : Type v}

def Reachable (rules : Rules State Goal) : State → Prop :=
  Transition.Reachable rules.init rules.step

/-- What is waited for comes to hold only with a notification. -/
structure Lawful (rules : Rules State Goal) : Prop where
  admitted : ∀ s t goal, rules.Reachable s → rules.step s t → rules.admits s goal →
    rules.admits t goal
  announced : ∀ s t goal, rules.Reachable s → rules.step s t → rules.admits s goal →
    rules.holds t goal = true → rules.holds s goal = true ∨ rules.announces s t

/-- What is waited for goes on holding. -/
def Steady (rules : Rules State Goal) : Prop :=
  ∀ s t goal, rules.Reachable s → rules.step s t → rules.admits s goal →
    rules.holds s goal = true → rules.holds t goal = true

end Rules

/-- How long a caller is ready to wait. -/
inductive Patience (Time : Type w) where
  | never
  | forever
  | until_ (deadline : Time)
  deriving DecidableEq, Repr

/-- How long a caller waits that is ready to: not at all if it may not. -/
def Rules.allows {Time : Type w} (rules : Rules State Goal) (s : State) (goal : Goal)
    (patience : Patience Time) : Patience Time :=
  if rules.waits s goal then patience else .never

/-- Where a caller is; one that has returned remembers what it saw. -/
inductive Phase (State : Type u) where
  | awake
  | asleep
  | returned (answer : Bool) (seen : State)

structure Call (State : Type u) (Goal : Type v) (Time : Type w) where
  goal : Goal
  patience : Patience Time
  phase : Phase State

/-- The state, everyone who ever called, the notifications owed, and how often the clock
has been read. -/
structure System (State : Type u) (Goal : Type v) (Time : Type w) where
  state : State
  calls : List (Call State Goal Time)
  owed : Nat
  reads : Nat

variable {State : Type u} {Goal : Type v} {Time : Type w}

namespace Call

def isAsleep (call : Call State Goal Time) : Bool :=
  match call.phase with
  | .asleep => true
  | _ => false

/-- What being notified, or waking for no reason at all, does to a caller. -/
def rouse (call : Call State Goal Time) : Call State Goal Time :=
  if call.isAsleep then { call with phase := .awake } else call

@[simp] theorem rouse_goal (call : Call State Goal Time) : call.rouse.goal = call.goal := by
  unfold rouse
  split <;> rfl

@[simp] theorem rouse_patience (call : Call State Goal Time) :
    call.rouse.patience = call.patience := by
  unfold rouse
  split <;> rfl

theorem rouse_not_asleep (call : Call State Goal Time) : call.rouse.phase ≠ .asleep := by
  unfold rouse isAsleep
  cases same : call.phase <;> simp [same]

theorem rouse_returned {call : Call State Goal Time} {answer : Bool} {seen : State} :
    call.rouse.phase = .returned answer seen ↔ call.phase = .returned answer seen := by
  unfold rouse isAsleep
  cases same : call.phase <;> simp [same]

end Call

variable [LinearOrder Time] (rules : Rules State Goal) (now : Nat → Time)

/-- A look with the mutex held: the caller returns, or sleeps until it is notified, its
deadline passes, or it wakes for no reason. -/
def look (state : State) (reads : Nat) (call : Call State Goal Time) :
    Call State Goal Time × Nat :=
  if rules.holds state call.goal then
    ({ call with phase := .returned true state }, reads)
  else
    match call.patience with
    | .never => ({ call with phase := .returned false state }, reads)
    | .forever => ({ call with phase := .asleep }, reads)
    | .until_ deadline =>
      if now reads < deadline then ({ call with phase := .asleep }, reads + 1)
      else ({ call with phase := .returned false state }, reads + 1)

/-- A caller takes the mutex, and looks at once. -/
def System.arrive (m : System State Goal Time) (goal : Goal) (patience : Patience Time) :
    System State Goal Time :=
  let looked := look rules now m.state m.reads
    ⟨goal, rules.allows m.state goal patience, .awake⟩
  { m with calls := m.calls ++ [looked.1], reads := looked.2 }

def System.lookAgain (m : System State Goal Time) (i : Nat) (call : Call State Goal Time) :
    System State Goal Time :=
  let looked := look rules now m.state m.reads call
  { m with calls := m.calls.set i looked.1, reads := looked.2 }

def System.rouse (m : System State Goal Time) (i : Nat) (call : Call State Goal Time) :
    System State Goal Time :=
  { m with calls := m.calls.set i call.rouse }

def System.notify (m : System State Goal Time) : System State Goal Time :=
  { m with calls := m.calls.map Call.rouse, owed := m.owed - 1 }

/-- One step of whoever uses the state, of a caller, or of the clock. -/
inductive Step (m : System State Goal Time) : System State Goal Time → Prop
  | quiet (t : State) (step : rules.step m.state t) (silent : ¬ rules.announces m.state t) :
      Step m { m with state := t }
  | announce (t : State) (step : rules.step m.state t) (loud : rules.announces m.state t) :
      Step m { m with state := t, owed := m.owed + 1 }
  | notify (owes : 0 < m.owed) : Step m m.notify
  | arrive (goal : Goal) (patience : Patience Time) (admitted : rules.admits m.state goal) :
      Step m (m.arrive rules now goal patience)
  | look (i : Nat) (call : Call State Goal Time) (at_ : m.calls[i]? = some call)
      (awake : call.phase = .awake) : Step m (m.lookAgain rules now i call)
  | rouse (i : Nat) (call : Call State Goal Time) (at_ : m.calls[i]? = some call) :
      Step m (m.rouse i call)
  | read (n : Nat) : Step m { m with reads := m.reads + n }

def Starts (m : System State Goal Time) : Prop :=
  rules.init m.state ∧ m.calls = [] ∧ m.owed = 0

def Reachable : System State Goal Time → Prop :=
  Transition.Reachable (Starts rules) (Step rules now)

variable {rules now} {m n : System State Goal Time}

@[simp] theorem look_goal (state : State) (reads : Nat) (call : Call State Goal Time) :
    (look rules now state reads call).1.goal = call.goal := by
  unfold look
  split
  · rfl
  · split
    · rfl
    · rfl
    · split <;> rfl

@[simp] theorem look_patience (state : State) (reads : Nat) (call : Call State Goal Time) :
    (look rules now state reads call).1.patience = call.patience := by
  unfold look
  split
  · rfl
  · split
    · rfl
    · rfl
    · split <;> rfl

theorem reads_le_look (state : State) (reads : Nat) (call : Call State Goal Time) :
    reads ≤ (look rules now state reads call).2 := by
  unfold look
  split
  · exact Nat.le_refl _
  · split
    · exact Nat.le_refl _
    · exact Nat.le_refl _
    · split <;> exact Nat.le_succ reads

/-- Nobody who sees what it waits for goes to sleep. -/
theorem look_asleep {state : State} {reads : Nat} {call : Call State Goal Time}
    (sleeps : (look rules now state reads call).1.phase = .asleep) :
    rules.holds state call.goal = false := by
  unfold look at sleeps
  split at sleeps
  · cases sleeps
  · rename_i open_
    exact Bool.eq_false_iff.mpr open_

theorem look_of_holds {state : State} {reads : Nat} {call : Call State Goal Time}
    (holds : rules.holds state call.goal = true) :
    (look rules now state reads call).1.phase = .returned true state := by
  unfold look
  rw [if_pos holds]

theorem look_never {state : State} {reads : Nat} {call : Call State Goal Time}
    (never : call.patience = .never) : (look rules now state reads call).1.phase =
      .returned (rules.holds state call.goal) state := by
  unfold look
  split
  · rename_i done
    rw [done]
  · rename_i open_
    rw [never, Bool.eq_false_iff.mpr open_]

variable (rules now) in
/-- A caller that may not wait has its answer as it comes. -/
theorem System.arrive_calls (m : System State Goal Time) (goal : Goal)
    (patience : Patience Time) : ∃ call : Call State Goal Time,
      (m.arrive rules now goal patience).calls = m.calls ++ [call] ∧ call.goal = goal ∧
        call.patience = rules.allows m.state goal patience ∧
        (rules.waits m.state goal = false →
          call.phase = .returned (rules.holds m.state goal) m.state) := by
  refine ⟨_, rfl, look_goal _ _ _, look_patience _ _ _, fun refused => look_never ?_⟩
  rw [Rules.allows, refused]
  rfl

/-- A caller that gave up did not wait at all, or saw the clock at its deadline. -/
def GivenUp (now : Nat → Time) (reads : Nat) (patience : Patience Time) : Prop :=
  patience = .never ∨ ∃ deadline k, patience = .until_ deadline ∧ k < reads ∧ deadline ≤ now k

theorem GivenUp.mono {reads later : Nat} {patience : Patience Time} (le : reads ≤ later)
    (h : GivenUp now reads patience) : GivenUp now later patience := by
  rcases h with never | ⟨deadline, k, same, less, passed⟩
  · exact Or.inl never
  · exact Or.inr ⟨deadline, k, same, Nat.lt_of_lt_of_le less le, passed⟩

theorem look_returned {state : State} {reads : Nat} {call : Call State Goal Time} {answer : Bool}
    {seen : State} (returned : (look rules now state reads call).1.phase = .returned answer seen) :
    seen = state ∧ answer = rules.holds state call.goal ∧
      (answer = false → GivenUp now (look rules now state reads call).2 call.patience) := by
  unfold look at returned ⊢
  split at returned
  · rename_i done
    obtain ⟨rfl, rfl⟩ := Phase.returned.inj returned
    exact ⟨rfl, done.symm, fun no => nomatch no⟩
  · rename_i open_
    rw [if_neg open_]
    split at returned
    · rename_i same
      obtain ⟨rfl, rfl⟩ := Phase.returned.inj returned
      exact ⟨rfl, (Bool.eq_false_iff.mpr open_).symm, fun _ => Or.inl same⟩
    · cases returned
    · rename_i deadline same
      split at returned
      · cases returned
      · rename_i passed
        rw [if_neg passed]
        obtain ⟨rfl, rfl⟩ := Phase.returned.inj returned
        exact ⟨rfl, (Bool.eq_false_iff.mpr open_).symm, fun _ =>
          Or.inr ⟨deadline, reads, same, Nat.lt_succ_self reads, not_lt.mp passed⟩⟩

/-! ## What holds of every caller -/

variable (rules now) in
/-- A caller asleep has a notification coming if what it waits for holds, and one that
returned said what it saw. -/
structure Sound (m : System State Goal Time) (call : Call State Goal Time) : Prop where
  admitted : rules.admits m.state call.goal
  woken : call.phase = .asleep → rules.holds m.state call.goal = true → 0 < m.owed
  answered : ∀ answer seen, call.phase = .returned answer seen →
    rules.Reachable seen ∧ Relation.ReflTransGen rules.step seen m.state ∧
      rules.admits seen call.goal ∧ answer = rules.holds seen call.goal ∧
        (answer = false → GivenUp now m.reads call.patience)

theorem Sound.looked {reads : Nat} {call : Call State Goal Time} {calls}
    (reachable : rules.Reachable m.state)
    (admitted : rules.admits m.state call.goal) :
    Sound rules now ⟨m.state, calls, m.owed, (look rules now m.state reads call).2⟩
      (look rules now m.state reads call).1 where
  admitted := by
    rw [look_goal]
    exact admitted
  woken := by
    intro sleeps holds
    rw [look_goal, look_asleep sleeps] at holds
    cases holds
  answered := by
    intro answer seen returned
    obtain ⟨rfl, same, gave⟩ := look_returned returned
    rw [look_goal, look_patience]
    exact ⟨reachable, .refl, admitted, same, gave⟩

/-- A step that reads the clock, or changes the other callers. -/
theorem Sound.read {call : Call State Goal Time} {calls} {reads : Nat} (h : Sound rules now m call)
    (le : m.reads ≤ reads) : Sound rules now ⟨m.state, calls, m.owed, reads⟩ call where
  admitted := h.admitted
  woken := h.woken
  answered := by
    intro answer seen returned
    obtain ⟨reachable, run, admitted, same, gave⟩ := h.answered answer seen returned
    exact ⟨reachable, run, admitted, same, fun no => (gave no).mono le⟩

theorem Sound.roused {call : Call State Goal Time} {calls} {owed : Nat}
    (h : Sound rules now m call) : Sound rules now ⟨m.state, calls, owed, m.reads⟩ call.rouse where
  admitted := by
    rw [Call.rouse_goal]
    exact h.admitted
  woken := fun sleeps => absurd sleeps call.rouse_not_asleep
  answered := by
    intro answer seen returned
    rw [Call.rouse_goal, Call.rouse_patience]
    exact h.answered answer seen (Call.rouse_returned.mp returned)

theorem Sound.stepped {call : Call State Goal Time} {t : State} {owed : Nat}
    (lawful : rules.Lawful) (reachable : rules.Reachable m.state) (step : rules.step m.state t)
    (owes : m.owed ≤ owed) (loud : rules.announces m.state t → 0 < owed)
    (h : Sound rules now m call) : Sound rules now ⟨t, m.calls, owed, m.reads⟩ call where
  admitted := lawful.admitted m.state t call.goal reachable step h.admitted
  woken := by
    intro sleeps holds
    rcases lawful.announced m.state t call.goal reachable step h.admitted holds with before | now'
    · exact Nat.lt_of_lt_of_le (h.woken sleeps before) owes
    · exact loud now'
  answered := by
    intro answer seen returned
    obtain ⟨reached, run, admitted, same, gave⟩ := h.answered answer seen returned
    exact ⟨reached, run.tail step, admitted, same, gave⟩

theorem Step.sound (lawful : rules.Lawful) (step : Step rules now m n)
    (reachable : rules.Reachable m.state) (h : ∀ call ∈ m.calls, Sound rules now m call) :
    rules.Reachable n.state ∧ ∀ call ∈ n.calls, Sound rules now n call := by
  cases step with
  | quiet t step silent =>
    exact ⟨reachable.next step, fun call mem =>
      (h call mem).stepped lawful reachable step (Nat.le_refl _) (fun loud => absurd loud silent)⟩
  | announce t step loud =>
    exact ⟨reachable.next step, fun call mem =>
      (h call mem).stepped lawful reachable step (Nat.le_succ _) (fun _ => Nat.succ_pos _)⟩
  | notify owes =>
    refine ⟨reachable, fun call mem => ?_⟩
    obtain ⟨before, held, rfl⟩ := List.mem_map.mp mem
    exact (h before held).roused
  | arrive goal patience admitted =>
    refine ⟨reachable, fun call mem => ?_⟩
    rcases List.mem_append.mp mem with mem | mem
    · exact (h call mem).read (reads_le_look _ _ _)
    · rw [List.mem_singleton.mp mem]
      exact Sound.looked reachable admitted
  | look i call at_ awake =>
    refine ⟨reachable, fun other mem => ?_⟩
    rcases List.mem_or_eq_of_mem_set mem with mem | rfl
    · exact (h other mem).read (reads_le_look _ _ _)
    · exact Sound.looked reachable (h call (List.mem_of_getElem? at_)).admitted
  | rouse i call at_ =>
    refine ⟨reachable, fun other mem => ?_⟩
    rcases List.mem_or_eq_of_mem_set mem with mem | rfl
    · exact (h other mem).read (Nat.le_refl _)
    · exact (h call (List.mem_of_getElem? at_)).roused
  | read k => exact ⟨reachable, fun call mem => (h call mem).read (Nat.le_add_right _ _)⟩

theorem Reachable.sound (lawful : rules.Lawful) (h : Reachable rules now m) :
    rules.Reachable m.state ∧ ∀ call ∈ m.calls, Sound rules now m call := by
  refine Transition.Reachable.invariant
    (P := fun m => rules.Reachable m.state ∧ ∀ call ∈ m.calls, Sound rules now m call)
    (fun m start => ?_) (fun m n known step => step.sound lawful known.1 known.2) h
  refine ⟨Transition.Reachable.start start.1, fun call mem => ?_⟩
  rw [start.2.1] at mem
  cases mem

/-! ## Runs without end -/

variable (rules now) in
/-- Notifications owed are given, a caller awake looks, and one with a deadline wakes,
sooner or later. -/
structure Fair (run : Nat → System State Goal Time) : Prop where
  starts : Reachable rules now (run 0)
  steps : ∀ n, run (n + 1) = run n ∨ Step rules now (run n) (run (n + 1))
  notifies : ∀ n, 0 < (run n).owed → ∃ m, n ≤ m ∧ run (m + 1) = (run m).notify
  looks : ∀ (n i : Nat) (call : Call State Goal Time), (run n).calls[i]? = some call → call.phase = .awake →
    ∃ m, ∃ later : Call State Goal Time,
      n ≤ m ∧ (run m).calls[i]? = some later ∧ later.phase ≠ .awake
  wakes : ∀ (n i : Nat) (call : Call State Goal Time) deadline, (run n).calls[i]? = some call → call.phase = .asleep →
    call.patience = .until_ deadline →
    ∃ m, ∃ later : Call State Goal Time,
      n ≤ m ∧ (run m).calls[i]? = some later ∧ later.phase ≠ .asleep

/-- What one step may do to a caller. -/
theorem Step.caller (step : Step rules now m n) {i : Nat} {call : Call State Goal Time}
    (at_ : m.calls[i]? = some call) :
    n.calls[i]? = some call ∨ n.calls[i]? = some call.rouse ∨
      (call.phase = .awake ∧ n = m.lookAgain rules now i call) := by
  have short : i < m.calls.length := (List.getElem?_eq_some_iff.mp at_).1
  cases step with
  | quiet t step silent => exact Or.inl at_
  | announce t step loud => exact Or.inl at_
  | notify owes =>
    refine Or.inr (Or.inl ?_)
    simp [System.notify, at_]
  | arrive goal patience admitted =>
    refine Or.inl ?_
    simp only [System.arrive]
    rw [List.getElem?_append_left short, at_]
  | look j other other_at awake =>
    by_cases same : j = i
    · subst same
      obtain rfl := Option.some.inj (other_at.symm.trans at_)
      exact Or.inr (Or.inr ⟨awake, rfl⟩)
    · refine Or.inl ?_
      simp only [System.lookAgain]
      rw [List.getElem?_set_ne same, at_]
  | rouse j other other_at =>
    by_cases same : j = i
    · subst same
      obtain rfl := Option.some.inj (other_at.symm.trans at_)
      refine Or.inr (Or.inl ?_)
      simp [System.rouse, short]
    · refine Or.inl ?_
      simp only [System.rouse]
      rw [List.getElem?_set_ne same, at_]
  | read k => exact Or.inl at_

theorem Step.reads_le (step : Step rules now m n) : m.reads ≤ n.reads := by
  cases step with
  | arrive goal patience admitted => exact reads_le_look _ _ _
  | look i call at_ awake => exact reads_le_look _ _ _
  | read k => exact Nat.le_add_right _ _
  | _ => exact Nat.le_refl _

omit [LinearOrder Time] in
theorem Call.rouse_awake {call : Call State Goal Time} (awake : call.phase = .awake) :
    call.rouse = call := by
  unfold Call.rouse Call.isAsleep
  simp [awake]

theorem lookAgain_caller (m : System State Goal Time) {i : Nat} {call : Call State Goal Time}
    (at_ : m.calls[i]? = some call) :
    (m.lookAgain rules now i call).calls[i]? =
      some (look rules now m.state m.reads call).1 := by
  have short : i < m.calls.length := (List.getElem?_eq_some_iff.mp at_).1
  simp [System.lookAgain, short]

theorem Step.state (step : Step rules now m n) : n.state = m.state ∨ rules.step m.state n.state := by
  cases step with
  | quiet t step silent => exact Or.inr step
  | announce t step loud => exact Or.inr step
  | _ => exact Or.inl rfl

namespace Fair

variable {run : Nat → System State Goal Time}

theorem later (h : Fair rules now run) {n m : Nat} (le : n ≤ m) :
    Relation.ReflTransGen (Step rules now) (run n) (run m) := by
  induction m, le using Nat.le_induction with
  | base => exact .refl
  | succ m _ ih =>
    rcases h.steps m with same | step
    · rw [same]
      exact ih
    · exact ih.tail step

theorem reachable (h : Fair rules now run) (n : Nat) : Reachable rules now (run n) :=
  h.starts.later (h.later (Nat.zero_le n))

theorem reads_mono (h : Fair rules now run) {n m : Nat} (le : n ≤ m) :
    (run n).reads ≤ (run m).reads := by
  induction m, le using Nat.le_induction with
  | base => exact Nat.le_refl _
  | succ m _ ih =>
    rcases h.steps m with same | step
    · rw [same]
      exact ih
    · exact Nat.le_trans ih step.reads_le

/-- What one turn of the run may do to a caller. -/
theorem turn (h : Fair rules now run) {n i : Nat} {call : Call State Goal Time}
    (at_ : (run n).calls[i]? = some call) :
    (run (n + 1)).calls[i]? = some call ∨ (run (n + 1)).calls[i]? = some call.rouse ∨
      (call.phase = .awake ∧ run (n + 1) = (run n).lookAgain rules now i call) := by
  rcases h.steps n with same | step
  · rw [same]
    exact Or.inl at_
  · exact step.caller at_

/-- A caller awake stays as it is until it looks. -/
theorem look_after (h : Fair rules now run) {n i : Nat} {call : Call State Goal Time}
    (at_ : (run n).calls[i]? = some call) (awake : call.phase = .awake) :
    ∃ m, n ≤ m ∧ (run m).calls[i]? = some call ∧
      run (m + 1) = (run m).lookAgain rules now i call := by
  by_contra never
  push Not at never
  have stays : ∀ m, n ≤ m → (run m).calls[i]? = some call := by
    intro m le
    induction m, le using Nat.le_induction with
    | base => exact at_
    | succ m le ih =>
      rcases h.turn ih with same | roused | ⟨_, looked⟩
      · exact same
      · rw [roused, Call.rouse_awake awake]
      · exact absurd looked (never m le ih)
  obtain ⟨m, later, le, found, moved⟩ := h.looks n i call at_ awake
  rw [stays m le] at found
  exact moved (Option.some.inj found ▸ awake)

/-- What a caller waits for never changes. -/
theorem keeps_goal (h : Fair rules now run) {n m i : Nat} {call : Call State Goal Time}
    (at_ : (run n).calls[i]? = some call) (le : n ≤ m) :
    ∃ later, (run m).calls[i]? = some later ∧ later.goal = call.goal := by
  induction m, le using Nat.le_induction with
  | base => exact ⟨call, at_, rfl⟩
  | succ m _ ih =>
    obtain ⟨later, found, same⟩ := ih
    rcases h.turn found with still | roused | ⟨_, look⟩
    · exact ⟨later, still, same⟩
    · exact ⟨later.rouse, roused, by rw [Call.rouse_goal, same]⟩
    · refine ⟨(Monitor.look rules now (run m).state (run m).reads later).1, ?_, ?_⟩
      · rw [look]
        exact lookAgain_caller _ found
      · rw [look_goal, same]

theorem holds_later (h : Fair rules now run) (lawful : rules.Lawful) (steady : rules.Steady)
    {n m : Nat} (le : n ≤ m) {goal : Goal} (admitted : rules.admits (run n).state goal)
    (holds : rules.holds (run n).state goal = true) :
    rules.admits (run m).state goal ∧ rules.holds (run m).state goal = true := by
  induction m, le using Nat.le_induction with
  | base => exact ⟨admitted, holds⟩
  | succ m _ ih =>
    rcases h.steps m with same | step
    · rw [same]
      exact ih
    · rcases Step.state step with same | step
      · rw [same]
        exact ih
      · have reached := ((h.reachable m).sound lawful).1
        exact ⟨lawful.admitted _ _ _ reached step ih.1, steady _ _ _ reached step ih.1 ih.2⟩

/-- A caller awake that has what it waits for returns true. -/
theorem returns_awake (h : Fair rules now run) (lawful : rules.Lawful) (steady : rules.Steady)
    {n i : Nat} {call : Call State Goal Time} (at_ : (run n).calls[i]? = some call)
    (holds : rules.holds (run n).state call.goal = true) (awake : call.phase = .awake) :
    ∃ m later seen, n ≤ m ∧ (run m).calls[i]? = some later ∧ later.goal = call.goal ∧
      later.phase = .returned true seen := by
  obtain ⟨m, le, still, look⟩ := h.look_after at_ awake
  have admitted := (((h.reachable n).sound lawful).2 call (List.mem_of_getElem? at_)).admitted
  refine ⟨m + 1, (Monitor.look rules now (run m).state (run m).reads call).1, (run m).state,
    by omega, ?_, look_goal _ _ _, look_of_holds (h.holds_later lawful steady le admitted holds).2⟩
  rw [look]
  exact lookAgain_caller _ still

/-- Whatever else happens, a caller that has what it waits for returns true. -/
theorem returns (h : Fair rules now run) (lawful : rules.Lawful) (steady : rules.Steady)
    {n i : Nat} {call : Call State Goal Time} (at_ : (run n).calls[i]? = some call)
    (holds : rules.holds (run n).state call.goal = true)
    (waits : ∀ answer seen, call.phase ≠ .returned answer seen) :
    ∃ m later seen, n ≤ m ∧ (run m).calls[i]? = some later ∧ later.goal = call.goal ∧
      later.phase = .returned true seen := by
  have sound := ((h.reachable n).sound lawful).2 call (List.mem_of_getElem? at_)
  cases phase : call.phase with
  | returned answer seen => exact absurd phase (waits answer seen)
  | awake => exact h.returns_awake lawful steady at_ holds phase
  | asleep =>
    -- someone owes a notification, before which this caller may have woken by itself
    obtain ⟨m, le, notified⟩ := h.notifies n (sound.woken phase holds)
    have woke : ∃ k later, n ≤ k ∧ (run k).calls[i]? = some later ∧ later.goal = call.goal ∧
        later.phase = .awake := by
      by_contra never
      push Not at never
      have stays : ∀ k, n ≤ k → (run k).calls[i]? = some call := by
        intro k le
        induction k, le using Nat.le_induction with
        | base => exact at_
        | succ k le ih =>
          rcases h.turn ih with same | roused | ⟨awake, _⟩
          · exact same
          · refine absurd ?_ (never (k + 1) call.rouse (by omega) roused call.rouse_goal)
            simp [Call.rouse, Call.isAsleep, phase]
          · rw [phase] at awake
            cases awake
      refine never (m + 1) call.rouse (by omega) ?_ call.rouse_goal ?_
      · rw [notified]
        simp [System.notify, stays m le]
      · simp [Call.rouse, Call.isAsleep, phase]
    obtain ⟨k, later, le, found, same, awake⟩ := woke
    have held : rules.holds (run k).state later.goal = true := by
      rw [same]
      exact (h.holds_later lawful steady le sound.admitted holds).2
    obtain ⟨m, last, seen, le', at_', goal, returned⟩ :=
      h.returns_awake lawful steady found held awake
    exact ⟨m, last, seen, by omega, at_', by rw [goal, same], returned⟩

/-- A caller asleep with a deadline wakes, as it was but for that. -/
theorem wakes_up (h : Fair rules now run) {n i : Nat} {call : Call State Goal Time}
    {deadline : Time} (at_ : (run n).calls[i]? = some call) (asleep : call.phase = .asleep)
    (timed : call.patience = .until_ deadline) :
    ∃ m, n ≤ m ∧ (run m).calls[i]? = some call.rouse := by
  by_contra never
  push Not at never
  have stays : ∀ k, n ≤ k → (run k).calls[i]? = some call := by
    intro k le
    induction k, le using Nat.le_induction with
    | base => exact at_
    | succ k le ih =>
      rcases h.turn ih with same | roused | ⟨awake, _⟩
      · exact same
      · exact absurd roused (never (k + 1) (by omega))
      · rw [asleep] at awake
        cases awake
  obtain ⟨m, later, le, found, moved⟩ := h.wakes n i call deadline at_ asleep timed
  rw [stays m le] at found
  exact moved (Option.some.inj found ▸ asleep)

/-- Every caller with a deadline looks again, unless it has returned. -/
theorem looks_again (h : Fair rules now run) {n i : Nat} {call : Call State Goal Time}
    {deadline : Time} (at_ : (run n).calls[i]? = some call)
    (timed : call.patience = .until_ deadline)
    (waits : ∀ answer seen, call.phase ≠ .returned answer seen) :
    ∃ m later, n ≤ m ∧ (run m).calls[i]? = some later ∧ later.goal = call.goal ∧
      later.patience = .until_ deadline ∧ run (m + 1) = (run m).lookAgain rules now i later := by
  cases phase : call.phase with
  | returned answer seen => exact absurd phase (waits answer seen)
  | awake =>
    obtain ⟨m, le, still, look⟩ := h.look_after at_ phase
    exact ⟨m, call, le, still, rfl, timed, look⟩
  | asleep =>
    obtain ⟨k, le, roused⟩ := h.wakes_up at_ phase timed
    have awake : call.rouse.phase = .awake := by simp [Call.rouse, Call.isAsleep, phase]
    obtain ⟨m, le', still, look⟩ := h.look_after roused awake
    exact ⟨m, call.rouse, by omega, still, call.rouse_goal, by rw [Call.rouse_patience, timed], look⟩

/-- While it has not returned, a caller with a deadline has the clock read ever more often. -/
theorem reads_unbounded (h : Fair rules now run) {n i : Nat} {call : Call State Goal Time}
    {deadline : Time} (at_ : (run n).calls[i]? = some call)
    (timed : call.patience = .until_ deadline)
    (never : ∀ m later answer seen, n ≤ m → (run m).calls[i]? = some later →
      later.phase ≠ .returned answer seen) (k : Nat) :
    ∃ m later, n ≤ m ∧ (run m).calls[i]? = some later ∧ later.goal = call.goal ∧
      later.patience = .until_ deadline ∧ k ≤ (run m).reads := by
  induction k with
  | zero => exact ⟨n, call, Nat.le_refl n, at_, rfl, timed, Nat.zero_le _⟩
  | succ k ih =>
    obtain ⟨m, later, le, found, goal, timed', reads⟩ := ih
    obtain ⟨m', last, le', found', goal', timed'', look⟩ :=
      h.looks_again found timed' (fun answer seen => never m later answer seen le found)
    have next : (run (m' + 1)).calls[i]? =
        some (Monitor.look rules now (run m').state (run m').reads last).1 := by
      rw [look]
      exact lookAgain_caller _ found'
    refine ⟨m' + 1, _, by omega, next, by rw [look_goal, goal', goal],
      by rw [look_patience, timed''], ?_⟩
    have more := h.reads_mono le'
    -- it did not return, so it compared its deadline with the clock
    have open_ := never (m' + 1) _ true (run m').state (by omega) next
    have short := never (m' + 1) _ false (run m').state (by omega) next
    rw [look]
    unfold System.lookAgain Monitor.look at *
    rw [timed''] at open_ short ⊢
    split at open_
    · exact absurd rfl open_
    · rename_i closed
      rw [if_neg closed] at short ⊢
      dsimp only at short ⊢
      split at short
      · rename_i early
        rw [if_pos early]
        dsimp only
        omega
      · exact absurd rfl short

/-- Whatever else happens, a caller with a deadline returns. -/
theorem returns_in_time (h : Fair rules now run) {n i : Nat} {call : Call State Goal Time}
    {deadline : Time} (at_ : (run n).calls[i]? = some call)
    (timed : call.patience = .until_ deadline) (passes : ∃ k, ∀ j, k ≤ j → deadline ≤ now j) :
    ∃ m later answer seen, n ≤ m ∧ (run m).calls[i]? = some later ∧ later.goal = call.goal ∧
      later.phase = .returned answer seen := by
  by_contra waiting
  push Not at waiting
  obtain ⟨k, passed⟩ := passes
  have never : ∀ m later answer seen, n ≤ m → (run m).calls[i]? = some later →
      later.phase ≠ .returned answer seen := by
    intro m later answer seen le found
    obtain ⟨later', found', goal⟩ := h.keeps_goal at_ le
    obtain rfl := Option.some.inj (found.symm.trans found')
    exact waiting m later answer seen le found goal
  obtain ⟨m, later, le, found, goal, timed', reads⟩ := h.reads_unbounded at_ timed never k
  obtain ⟨m', last, le', found', goal', timed'', look⟩ := h.looks_again found timed'
    (fun answer seen => never m later answer seen le found)
  have late := passed (run m').reads (Nat.le_trans reads (h.reads_mono le'))
  have next : (run (m' + 1)).calls[i]? =
      some (Monitor.look rules now (run m').state (run m').reads last).1 := by
    rw [look]
    exact lookAgain_caller _ found'
  refine never (m' + 1) _ (rules.holds (run m').state last.goal) (run m').state (by omega) next ?_
  unfold Monitor.look
  rw [timed'']
  split
  · rename_i holds
    rw [holds]
  · rename_i open_
    dsimp only
    rw [if_neg (not_lt.mpr late), Bool.eq_false_iff.mpr open_]

end Fair

/-! ## A run that ends -/

/-- The one caller is notified, looks, and nothing happens after. -/
def settles (rules : Rules State Goal) (now : Nat → Time) (m : System State Goal Time)
    (goal : Goal) (patience : Patience Time) : Nat → System State Goal Time
  | 0 => m
  | 1 => m.notify
  | _ + 2 => m.notify.lookAgain rules now 0 ⟨goal, patience, .awake⟩

theorem settles_fair {goal : Goal} {patience : Patience Time} (reachable : Reachable rules now m)
    (calls : m.calls = [⟨goal, patience, .asleep⟩]) (owed : m.owed = 1)
    (holds : rules.holds m.state goal = true) :
    Fair rules now (settles rules now m goal patience) := by
  have notified : m.notify.calls = [⟨goal, patience, .awake⟩] := by
    simp [System.notify, calls, Call.rouse, Call.isAsleep]
  have quiet : m.notify.owed = 0 := by simp [System.notify, owed]
  have state : m.notify.state = m.state := rfl
  have last (n : Nat) : (settles rules now m goal patience (n + 2)).calls =
      [⟨goal, patience, .returned true m.state⟩] := by
    simp only [settles, System.lookAgain, notified, look, state, holds, if_true]
    rfl
  -- there is only one caller, and in the end it has returned
  have ends (n i : Nat) (call : Call State Goal Time)
      (at_ : (settles rules now m goal patience n).calls[i]? = some call) :
      ∃ k, ∃ later : Call State Goal Time, n ≤ k ∧
        (settles rules now m goal patience k).calls[i]? = some later ∧
        later.phase = .returned true m.state := by
    have short : (settles rules now m goal patience n).calls.length = 1 := by
      match n with
      | 0 => rw [settles, calls]; rfl
      | 1 => rw [settles, notified]; rfl
      | n + 2 => rw [last]; rfl
    have first : i < 1 := short ▸ (List.getElem?_eq_some_iff.mp at_).1
    obtain rfl : i = 0 := Nat.lt_one_iff.mp first
    exact ⟨n + 2, ⟨goal, patience, .returned true m.state⟩, by omega, by rw [last]; rfl, rfl⟩
  refine ⟨reachable, fun n => ?_, fun n owes => ?_, fun n i call at_ _ => ?_,
    fun n i call deadline at_ _ _ => ?_⟩
  · match n with
    | 0 => exact Or.inr (.notify (by simp [settles, owed]))
    | 1 => exact Or.inr (.look 0 _ (by rw [settles, notified]; rfl) rfl)
    | _ + 2 => exact Or.inl rfl
  · match n with
    | 0 => exact ⟨0, Nat.le_refl 0, rfl⟩
    | 1 => exact absurd owes (by rw [settles, quiet]; exact Nat.lt_irrefl 0)
    | _ + 2 =>
      have still : m.notify.owed = 0 := quiet
      exact absurd owes (by simp [settles, System.lookAgain, still])
  · obtain ⟨k, later, le, found, returned⟩ := ends n i call at_
    exact ⟨k, later, le, found, by rw [returned]; simp⟩
  · obtain ⟨k, later, le, found, returned⟩ := ends n i call at_
    exact ⟨k, later, le, found, by rw [returned]; simp⟩

end Monitor
