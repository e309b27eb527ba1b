import Dross.Thread.QueueInvariant

/-!
# Accepting a task

`queue` gives a task its order and a place among the dependents, and then puts
it with the ready tasks or aside. In between it is in limbo.
-/

namespace Dross

namespace Run

variable {α : Type} {s t : Run α} {limbo : List Entry}

/-- The run once a task has its order and its result, and no list has it yet. -/
def accept (s : Run α) (operations : Operations α) (submission : Submission) : Run α :=
  { s with
    shared := ⟨{ s.backlog with
      accepted := s.backlog.accepted + 1
      unfinished := insert s.backlog.accepted s.backlog.unfinished
      dependents := match submission.result with
        | some id => AssocList.tryEmplace s.backlog.dependents id []
        | none => s.backlog.dependents }, operations⟩
    log := s.log ++ [submission] }

/-- What making a result changes: the result a task is accepted with is new. -/
structure Makes (s : Run α) (operations : Operations α) (result : Option OperationId) : Prop where
  new : ∀ id, result = some id → s.operations.lastId < id
  states : ∀ id, operations.stateOf id =
    if result = some id then some .pending else s.operations.stateOf id
  queues : ∀ id, operations.queueOf id =
    if result = some id then s.backlog.number else s.operations.queueOf id
  fresh : ∀ id, operations.lastId < id → operations.stateOf id = none

theorem Valid.makesNone (h : s.Valid []) : s.Makes s.operations none :=
  ⟨by simp, by simp, by simp, h.results.fresh⟩

theorem Valid.makesOne (h : s.Valid []) :
    s.Makes (s.operations.make s.backlog.number).2 (some (s.operations.lastId + 1)) := by
  refine ⟨?_, ?_, ?_, ?_⟩
  · intro id hid
    cases hid
    exact Nat.lt_succ_self _
  · intro id
    simp only [Operations.stateOf_make, Option.some.injEq, eq_comm]
  · intro id
    simp only [Operations.queueOf_make, Option.some.injEq, eq_comm]
  · intro id hid
    rw [Operations.make_lastId] at hid
    rw [Operations.stateOf_make, if_neg (Nat.ne_of_gt hid)]
    exact h.results.fresh id (Nat.lt_of_succ_lt hid)

theorem resultOf_lt {order : Nat} {id : OperationId} (h : s.resultOf order = some id) :
    order < s.log.length := by
  by_contra hlt
  have none : s.log[order]? = none := List.getElem?_eq_none (by omega)
  simp [resultOf, none] at h

theorem afterOf_lt {order : Nat} {id : OperationId} (h : id ∈ s.afterOf order) :
    order < s.log.length := by
  by_contra hlt
  have none : s.log[order]? = none := List.getElem?_eq_none (by omega)
  simp [afterOf, none] at h

variable {operations : Operations α} {submission : Submission}

/-- The new submission is the last of the log. -/
theorem log_accept (order : Nat) : (s.accept operations submission).log[order]? =
    if order = s.log.length then some submission else s.log[order]? := by
  change (s.log ++ [submission])[order]? = _
  by_cases last : order = s.log.length
  · rw [if_pos last, last, List.getElem?_concat_length]
  · rw [if_neg last, List.getElem?_append]
    split
    · rfl
    · rename_i beyond
      rw [List.getElem?_eq_none (Nat.le_of_not_lt beyond)]
      exact List.getElem?_eq_none (by rw [List.length_singleton]; omega)

theorem resultOf_accept (order : Nat) : (s.accept operations submission).resultOf order =
    if order = s.log.length then submission.result else s.resultOf order := by
  rw [resultOf, log_accept]
  split <;> rfl

theorem afterOf_accept (order : Nat) : (s.accept operations submission).afterOf order =
    if order = s.log.length then submission.after else s.afterOf order := by
  rw [afterOf, log_accept]
  split <;> rfl

theorem Valid.unkeyed (h : s.Valid []) {id : OperationId} (new : s.operations.lastId < id) :
    AssocList.contains s.backlog.dependents id = false := by
  rw [Bool.eq_false_iff, ne_eq, h.results.keys]
  rintro ⟨task, hl, hr⟩
  have owned := h.results.owned task.order id ((h.books.recorded task hl).trans hr)
  exact owned.2 (h.results.fresh id new)

/-- A new task's result gets an empty list, and no other list changes. -/
theorem Valid.accept_dependents (h : s.Valid []) (makes : s.Makes operations submission.result) :
    (s.accept operations submission).backlog.dependents =
      s.backlog.dependents ++ (submission.result.map (fun id => (id, []))).toList := by
  unfold accept backlog
  cases hr : submission.result with
  | none => simp
  | some id =>
    have none := h.unkeyed (makes.new id hr)
    simp only [AssocList.tryEmplace, Option.map_some, Option.toList_some]
    rw [if_neg (by rw [none]; exact Bool.false_ne_true)]

namespace Makes

variable {result : Option OperationId} {id : OperationId}

theorem old (makes : s.Makes operations result) (h : s.Results limbo)
    (made : s.operations.stateOf id ≠ none) : result ≠ some id :=
  fun new => made (h.fresh id (makes.new id new))

theorem state (makes : s.Makes operations result) (h : s.Results limbo)
    (made : s.operations.stateOf id ≠ none) :
    operations.stateOf id = s.operations.stateOf id := by
  rw [makes.states, if_neg (makes.old h made)]

theorem known (makes : s.Makes operations result) (h : s.Results limbo)
    (here : s.operations.queueOf id = s.backlog.number) (made : s.operations.stateOf id ≠ none) :
    operations.queueOf id = s.backlog.number ∧ operations.stateOf id ≠ none := by
  rw [makes.queues, if_neg (makes.old h made), makes.state h made]
  exact ⟨here, made⟩

theorem pending (makes : s.Makes operations result) (new : result = some id) :
    operations.queueOf id = s.backlog.number ∧ operations.stateOf id = some .pending := by
  rw [makes.queues, makes.states, if_pos new, if_pos new]
  exact ⟨rfl, rfl⟩

end Makes

theorem idle_accept {task : Entry} : (s.accept operations submission).Idle [task] = fun e =>
    s.Idle [] e ∨ e = task := by
  funext e
  rw [eq_iff_iff]
  constructor
  · rintro (ready | aside | between)
    · exact Or.inl (Or.inl ready)
    · exact Or.inl (Or.inr (Or.inl aside))
    · exact Or.inr (List.mem_singleton.mp between)
  · rintro ((ready | aside | between) | rfl)
    · exact Or.inl ready
    · exact Or.inr (Or.inl aside)
    · cases between
    · exact Or.inr (Or.inr List.mem_cons_self)

theorem live_accept {task e : Entry} :
    (s.accept operations submission).Live [task] e ↔ s.Live [] e ∨ e = task := by
  rw [Live, idle_accept, Live, or_right_comm]
  rfl

theorem liveTally_accept (task : Entry) (order : Nat) :
    (s.accept operations submission).liveTally [task] order =
      s.liveTally [] order + if task.order = order then 1 else 0 := by
  change Backlog.readyTally s.backlog.tasks order + tally s.backlog.aside order + tally [task] order +
    tally s.held order = Backlog.readyTally s.backlog.tasks order + tally s.backlog.aside order +
    tally [] order + tally s.held order + _
  simp only [tally_cons, tally_nil]
  omega

/-- The log as it is read once a task is accepted. -/
theorem Books.result_accept (h : s.Books []) (order : Nat) :
    (s.accept operations submission).resultOf order =
      if order = s.backlog.accepted then submission.result else s.resultOf order := by
  rw [← h.logged]
  exact resultOf_accept order

theorem Books.after_accept (h : s.Books []) (order : Nat) :
    (s.accept operations submission).afterOf order =
      if order = s.backlog.accepted then submission.after else s.afterOf order := by
  rw [← h.logged]
  exact afterOf_accept order

theorem Books.result_lt (h : s.Books limbo) {order : Nat} {id : OperationId}
    (result : s.resultOf order = some id) : order < s.backlog.accepted :=
  h.logged ▸ resultOf_lt result

theorem Books.after_lt (h : s.Books limbo) {order : Nat} {id : OperationId}
    (after : id ∈ s.afterOf order) : order < s.backlog.accepted :=
  h.logged ▸ afterOf_lt after

/-- The order of the next task is in no place yet. -/
theorem Books.unused (h : s.Books limbo) : s.liveTally limbo s.backlog.accepted = 0 ∧
    s.finished.count s.backlog.accepted = 0 ∧ s.cancelled.count s.backlog.accepted = 0 := by
  have none := h.accounted s.backlog.accepted
  rw [if_neg (Nat.lt_irrefl _)] at none
  omega

theorem Valid.books_accept (h : s.Valid []) (makes : s.Makes operations submission.result)
    (made : ∀ id ∈ submission.after, s.operations.queueOf id = s.backlog.number ∧
      s.operations.stateOf id ≠ none) :
    (s.accept operations submission).Books [⟨s.backlog.accepted, submission.result⟩] := by
  obtain ⟨books, results, -⟩ := h
  exact {
    accounted := by
      intro order
      have was := books.accounted order
      rw [liveTally_accept]
      change _ + s.finished.count order + s.cancelled.count order =
        if order < s.backlog.accepted + 1 then 1 else 0
      by_cases eq : s.backlog.accepted = order
      · rw [if_pos eq, if_pos (by omega)]
        rw [if_neg (by omega)] at was
        omega
      · rw [if_neg eq]
        by_cases lt : order < s.backlog.accepted
        · rw [if_pos (by omega)]
          rw [if_pos lt] at was
          omega
        · rw [if_neg (by omega)]
          rw [if_neg lt] at was
          omega
    unfinished := by
      intro order
      rw [liveTally_accept]
      change order ∈ insert s.backlog.accepted s.backlog.unfinished ↔ _
      rw [Finset.mem_insert, books.unfinished]
      by_cases eq : s.backlog.accepted = order
      · rw [if_pos eq]
        simp [eq.symm]
      · rw [if_neg eq]
        simp [Ne.symm eq]
    logged := by
      change (s.log ++ [submission]).length = s.backlog.accepted + 1
      simp [books.logged]
    recorded := by
      intro e live
      rw [books.result_accept]
      rcases live_accept.mp live with live | rfl
      · rw [if_neg (Nat.ne_of_lt (books.live_lt live))]
        exact books.recorded e live
      · rw [if_pos rfl]
    distinct := by
      intro order other id hr hr'
      rw [books.result_accept] at hr hr'
      split at hr <;> split at hr'
      · omega
      · exact absurd hr (makes.old results (results.owned other id hr').2)
      · exact absurd hr' (makes.old results (results.owned order id hr).2)
      · exact books.distinct order other id hr hr'
    earlier := by
      intro order other id ha hr
      rw [books.after_accept] at ha
      rw [books.result_accept] at hr
      split at ha <;> split at hr
      · exact absurd hr (makes.old results (made id ha).2)
      · have := books.result_lt hr
        omega
      · exact absurd hr (makes.old results (results.named order id ha).2)
      · exact books.earlier order other id ha hr
    taken := books.taken }

/-- A result is listed with its dependents as long as its task is live, the new one too. -/
theorem Valid.keys_accept (h : s.Valid []) (makes : s.Makes operations submission.result)
    (id : OperationId) :
    AssocList.contains (s.accept operations submission).backlog.dependents id = true ↔
      ∃ e, (s.accept operations submission).Live [⟨s.backlog.accepted, submission.result⟩] e ∧
        e.result = some id := by
  rw [h.accept_dependents makes, AssocList.contains_iff_key, List.map_append, List.mem_append,
    ← AssocList.contains_iff_key, h.results.keys]
  constructor
  · rintro (⟨e, live, hr⟩ | hm)
    · exact ⟨e, live_accept.mpr (Or.inl live), hr⟩
    · refine ⟨_, live_accept.mpr (Or.inr rfl), ?_⟩
      cases hr : submission.result with
      | none => simp [hr] at hm
      | some own => simpa [hr, eq_comm] using hm
  · rintro ⟨e, live, hr⟩
    rcases live_accept.mp live with live | rfl
    · exact Or.inl ⟨e, live, hr⟩
    · refine Or.inr ?_
      have hr : submission.result = some id := hr
      simp [hr]

theorem Valid.keysNodup_accept (h : s.Valid []) (makes : s.Makes operations submission.result) :
    ((s.accept operations submission).backlog.dependents.map Prod.fst).Nodup := by
  rw [h.accept_dependents makes, List.map_append, List.nodup_append]
  refine ⟨h.results.keysNodup, ?_, ?_⟩
  · cases submission.result <;> simp
  · intro id hm other ho
    cases hr : submission.result with
    | none => simp [hr] at ho
    | some own =>
      have ho : other = own := by simpa [hr] using ho
      rintro rfl
      have none := h.unkeyed (makes.new own hr)
      rw [← ho, AssocList.contains_iff_key.mpr hm] at none
      cases none

theorem Valid.results_accept (h : s.Valid []) (makes : s.Makes operations submission.result)
    (made : ∀ id ∈ submission.after, s.operations.queueOf id = s.backlog.number ∧
      s.operations.stateOf id ≠ none) :
    (s.accept operations submission).Results [⟨s.backlog.accepted, submission.result⟩] := by
  have keys := h.keys_accept makes
  have keysNodup := h.keysNodup_accept makes
  obtain ⟨books, results, -⟩ := h
  exact {
    keys := keys
    keysNodup := keysNodup
    owned := by
      intro order id hr
      rw [books.result_accept] at hr
      split at hr
      · obtain ⟨here, pending⟩ := makes.pending hr
        exact ⟨here, Option.isSome_iff_ne_none.mp (Option.isSome_of_eq_some pending)⟩
      · obtain ⟨here, known⟩ := results.owned order id hr
        exact makes.known results here known
    named := by
      intro order id ha
      rw [books.after_accept] at ha
      split at ha
      · exact makes.known results (made id ha).1 (made id ha).2
      · obtain ⟨here, known⟩ := results.named order id ha
        exact makes.known results here known
    fresh := makes.fresh
    idle := by
      intro e id idle hr
      rw [idle_accept] at idle
      rcases idle with idle | rfl
      · have was := results.idle e id idle hr
        exact (makes.state results (by rw [was]; simp)).trans was
      · exact (makes.pending hr).2
    running := by
      intro hand hm id hr
      have was := results.running hand hm id hr
      have live : s.Live [] hand.entry := Or.inr (List.mem_map_of_mem (f := Hand.entry) hm)
      have owned := results.owned hand.entry.order id ((books.recorded _ live).trans hr)
      change (_ → operations.stateOf id = _) ∧ (_ → ∃ v, operations.stateOf id = _)
      rw [makes.state results owned.2]
      exact was
    settled := by
      intro id hq hp
      change operations.queueOf id = s.backlog.number at hq
      change operations.stateOf id = some .pending at hp
      rw [makes.queues] at hq
      rw [makes.states] at hp
      by_cases hr : submission.result = some id
      · exact ⟨_, live_accept.mpr (Or.inr rfl), hr⟩
      · rw [if_neg hr] at hq hp
        obtain ⟨e, live, he⟩ := results.settled id hq hp
        exact ⟨e, live_accept.mpr (Or.inl live), he⟩
    cancelled := by
      intro order ho id hr
      rw [books.result_accept] at hr
      split at hr
      · rename_i last
        rw [last] at ho
        exact absurd books.unused.2.2 (Nat.ne_of_gt (List.count_pos_iff.mpr ho))
      · have was := results.cancelled order ho id hr
        exact (makes.state results (by rw [was]; simp)).trans was
    finished := by
      intro order ho id hr
      rw [books.result_accept] at hr
      split at hr
      · rename_i last
        rw [last] at ho
        exact absurd books.unused.2.1 (Nat.ne_of_gt (List.count_pos_iff.mpr ho))
      · obtain ⟨v, was⟩ := results.finished order ho id hr
        exact ⟨v, (makes.state results (by rw [was]; simp)).trans was⟩ }

theorem Valid.links_accept (h : s.Valid []) (makes : s.Makes operations submission.result) :
    (s.accept operations submission).Links [⟨s.backlog.accepted, submission.result⟩] := by
  have deps := h.accept_dependents makes
  obtain ⟨books, results, links⟩ := h
  have placed : ∀ order, order ≠ s.backlog.accepted →
      (s.accept operations submission).afterOf order = s.afterOf order := by
    intro order hne
    rw [books.after_accept, if_neg hne]
  have returned : ∀ id, (∃ v, s.operations.stateOf id = some (.returned v)) →
      ∃ v, operations.stateOf id = some (.returned v) := by
    rintro id ⟨v, hv⟩
    exact ⟨v, (makes.state results (by rw [hv]; simp)).trans hv⟩
  exact {
    listed := by
      intro id orders hm order ho
      rw [deps] at hm
      rcases List.mem_append.mp hm with hm | hm
      · obtain ⟨named, place⟩ := links.listed id orders hm order ho
        rw [placed order (Nat.ne_of_lt (books.after_lt named))]
        refine ⟨named, ?_⟩
        rcases place with ha | ⟨e, hl, _⟩ | hc
        · exact Or.inl ha
        · cases hl
        · exact Or.inr (Or.inr hc)
      · cases hr : submission.result with
        | none => simp [hr] at hm
        | some own =>
          simp only [hr, Option.map_some, Option.toList_some, List.mem_singleton,
            Prod.mk.injEq] at hm
          rw [hm.2] at ho
          cases ho
    counted := by
      intro w hw
      rw [deps, Backlog.occurrences_append]
      have zero : Backlog.occurrences
          (submission.result.map (fun id => (id, ([] : List Nat)))).toList w.task.order = 0 := by
        cases submission.result <;> simp
      rw [zero]
      exact links.counted w hw
    waits := by
      intro w hw id ha
      have live : s.Live [] w.task :=
        Or.inl (Or.inr (Or.inl (Backlog.mem_aside.mpr ⟨w, hw, rfl⟩)))
      rw [placed _ (Nat.ne_of_lt (books.live_lt live))] at ha
      rcases links.waits w hw id ha with hv | ⟨orders, hm, hl⟩
      · exact Or.inl (returned id hv)
      · refine Or.inr ⟨orders, ?_, hl⟩
        rw [deps]
        exact List.mem_append_left _ hm
    started := by
      intro order place id ha
      have ne : order ≠ s.backlog.accepted := by
        obtain ⟨none, unfinished, -⟩ := books.unused
        unfold liveTally at none
        rintro rfl
        rcases place with ⟨p, e, hp, he⟩ | ⟨e, hh, he⟩ | hf
        · have : 0 < Backlog.readyTally s.backlog.tasks _ :=
            Backlog.readyTally_pos.mpr ⟨p, e, hp, he⟩
          omega
        · have : 0 < tally s.held _ := tally_pos.mpr ⟨e, hh, he⟩
          omega
        · have : 0 < s.finished.count s.backlog.accepted := List.count_pos_iff.mpr hf
          omega
      rw [placed order ne] at ha
      exact returned id (links.started order place id ha) }

/-- A task is accepted, and is between the lists. -/
theorem Valid.accept (h : s.Valid []) (makes : s.Makes operations submission.result)
    (made : ∀ id ∈ submission.after, s.operations.queueOf id = s.backlog.number ∧
      s.operations.stateOf id ≠ none) :
    (s.accept operations submission).Valid [⟨s.backlog.accepted, submission.result⟩] :=
  ⟨h.books_accept makes made, h.results_accept makes made, h.links_accept makes⟩

/-! ## From limbo to a list -/

/-- The dependents once an order is entered under every result it names. -/
def entered (dependents : Dependents) (order : Nat) (after : List OperationId) : Dependents :=
  dependents.map (fun p => (p.1, p.2 ++ List.replicate (after.count p.1) order))

theorem entered_nil (dependents : Dependents) (order : Nat) :
    entered dependents order [] = dependents := by
  simp [entered]

/-- One more name adds one occurrence, under the result it names if that has a list. -/
theorem occurrences_entered_cons {dependents : Dependents}
    (nodup : (dependents.map Prod.fst).Nodup) (order other : Nat) (id : OperationId)
    (after : List OperationId) :
    Backlog.occurrences (entered dependents order (id :: after)) other =
      Backlog.occurrences (entered dependents order after) other +
        if order = other ∧ AssocList.contains dependents id = true then 1 else 0 := by
  have one : Backlog.occurrences (entered dependents order (id :: after)) other =
      Backlog.occurrences (entered dependents order after) other +
        if order = other then (dependents.map Prod.fst).count id else 0 := by
    clear nodup
    induction dependents with
    | nil => simp [entered]
    | cons p rest ih =>
      simp only [entered, List.map_cons, Backlog.occurrences_cons, List.count_append,
        List.count_replicate, List.count_cons, beq_iff_eq] at ih ⊢
      rw [ih]
      have same : (if p.1 = id then 1 else 0) = if id = p.1 then 1 else 0 := by
        simp only [eq_comm]
      rw [same]
      by_cases ho : order = other
      · simp only [ho, if_true]
        omega
      · simp only [ho, if_false]
        omega
  rw [one]
  by_cases key : id ∈ dependents.map Prod.fst
  · rw [List.count_eq_one_of_mem nodup key]
    simp [AssocList.contains_iff_key.mpr key]
  · rw [List.count_eq_zero.mpr key]
    have missing : ¬ AssocList.contains dependents id = true :=
      fun hc => key (AssocList.contains_iff_key.mp hc)
    simp [missing]

/-- Every name that has a list is one more occurrence, as often as it is named. -/
theorem occurrences_entered {dependents : Dependents}
    (nodup : (dependents.map Prod.fst).Nodup) (order other : Nat) (after : List OperationId) :
    Backlog.occurrences (entered dependents order after) other =
      Backlog.occurrences dependents other +
        if order = other then (after.filter (AssocList.contains dependents)).length else 0 := by
  induction after with
  | nil => simp [entered_nil]
  | cons id after ih =>
    rw [occurrences_entered_cons nodup, ih, List.filter_cons]
    by_cases ho : order = other
    · by_cases hc : AssocList.contains dependents id = true
      · simp only [ho, hc, and_self, if_true, List.length_cons]
        omega
      · simp [ho, hc]
    · simp [ho]

/-- What `queue` does with an order once it is entered. -/
def settlePlace (b : Backlog) (task : Entry) (priority : OperationPriority)
    (after : List OperationId) : Backlog :=
  let remaining := (after.filter (AssocList.contains b.dependents)).length
  if 0 < remaining then
    { b with
      dependents := entered b.dependents task.order after
      waiting := b.waiting ++ [⟨task, priority, remaining⟩] }
  else (({ b with dependents := entered b.dependents task.order after } : Backlog).makeReady task priority).1

@[simp] theorem entered_keys (dependents : Dependents) (order : Nat) (after : List OperationId) :
    (entered dependents order after).map Prod.fst = dependents.map Prod.fst := by
  simp [entered, Function.comp_def]

/-- An order listed once another is entered was listed before, or is that other. -/
theorem mem_entered {dependents : Dependents} {order : Nat} {after : List OperationId}
    {id : OperationId} {orders : List Nat} (mem : (id, orders) ∈ entered dependents order after) :
    ∃ before, (id, before) ∈ dependents ∧
      ∀ other ∈ orders, other ∈ before ∨ (other = order ∧ id ∈ after) := by
  obtain ⟨⟨key, before⟩, was, same⟩ := List.mem_map.mp mem
  cases same
  refine ⟨before, was, ?_⟩
  intro other listed
  rcases List.mem_append.mp listed with listed | listed
  · exact Or.inl listed
  · obtain ⟨pos, rfl⟩ := List.mem_replicate.mp listed
    exact Or.inr ⟨rfl, List.count_pos_iff.mp (Nat.pos_of_ne_zero pos)⟩

theorem entered_of_mem {dependents : Dependents} {id : OperationId} {before : List Nat}
    (mem : (id, before) ∈ dependents) (order : Nat) (after : List OperationId) {other : Nat}
    (listed : other ∈ before) :
    ∃ orders, (id, orders) ∈ entered dependents order after ∧ other ∈ orders :=
  ⟨_, List.mem_map.mpr ⟨(id, before), mem, rfl⟩, List.mem_append_left _ listed⟩

/-- A name without a list is one whose task has been through `done`. -/
theorem Valid.returned_of_unlisted (h : s.Valid limbo) {order : Nat}
    (uncancelled : ∀ id ∈ s.afterOf order, s.operations.stateOf id ≠ some .cancelled)
    {id : OperationId} (named : id ∈ s.afterOf order)
    (unlisted : AssocList.contains s.backlog.dependents id = false) :
    ∃ v, s.operations.stateOf id = some (.returned v) := by
  obtain ⟨here, known⟩ := h.results.named order id named
  cases state : s.operations.stateOf id with
  | none => exact absurd state known
  | some was =>
    cases was with
    | pending =>
      have live := h.results.settled id here state
      rw [← h.results.keys, unlisted] at live
      cases live
    | returned v => exact ⟨v, rfl⟩
    | cancelled => exact absurd state (uncancelled id named)

section Settling

variable {task : Entry}

/-- The tasks set aside before still wait for what they waited for. -/
theorem Valid.entered_waits (h : s.Valid [task]) (after : List OperationId) {w : Waiting}
    (mem : w ∈ s.backlog.waiting) {id : OperationId} (named : id ∈ s.afterOf w.task.order) :
    (∃ value, s.operations.stateOf id = some (.returned value)) ∨
      ∃ orders, (id, orders) ∈ entered s.backlog.dependents task.order after ∧
        w.task.order ∈ orders := by
  rcases h.links.waits w mem id named with returned | ⟨orders, key, listed⟩
  · exact Or.inl returned
  · exact Or.inr (entered_of_mem key task.order after listed)

theorem Valid.entered_counted (h : s.Valid [task]) (after : List OperationId) {w : Waiting}
    (mem : w ∈ s.backlog.waiting) :
    w.remaining = Backlog.occurrences (entered s.backlog.dependents task.order after) w.task.order ∧
      0 < w.remaining := by
  rw [occurrences_entered h.results.keysNodup, if_neg (h.books.aside_ne mem), Nat.add_zero]
  exact h.links.counted w mem

variable (h : s.Valid [task]) (priority : OperationPriority)
  (unlisted : ∀ id orders, (id, orders) ∈ s.backlog.dependents → task.order ∉ orders)
  (uncancelled : ∀ id ∈ s.afterOf task.order, s.operations.stateOf id ≠ some .cancelled)

include h unlisted uncancelled

theorem Valid.setAside
    (pos : 0 < ((s.afterOf task.order).filter (AssocList.contains s.backlog.dependents)).length) :
    (s.withBacklog { s.backlog with
      dependents := entered s.backlog.dependents task.order (s.afterOf task.order)
      waiting := s.backlog.waiting ++ [⟨task, priority,
        ((s.afterOf task.order).filter (AssocList.contains s.backlog.dependents)).length⟩] }).Valid
      [] := by
  let b : Backlog := { s.backlog with
    dependents := entered s.backlog.dependents task.order (s.afterOf task.order)
    waiting := s.backlog.waiting ++ [⟨task, priority,
      ((s.afterOf task.order).filter (AssocList.contains s.backlog.dependents)).length⟩] }
  have aside : b.aside = s.backlog.aside ++ [task] := by simp [b, Backlog.aside]
  have idle : ∀ e, (s.withBacklog b).Idle [] e ↔ s.Idle [task] e := by
    intro e
    change _ ∨ e ∈ b.aside ∨ _ ↔ _
    rw [aside]
    simp only [List.mem_append, List.not_mem_nil, or_false]
    rfl
  refine ⟨h.books.move rfl rfl rfl rfl rfl rfl (fun _ => rfl) ?_ ?_,
    h.results.move rfl rfl rfl rfl rfl rfl (entered_keys _ _ _) idle, ?_⟩
  · intro order
    change Backlog.readyTally s.backlog.tasks order + tally b.aside order + tally [] order +
      tally s.held order = _
    rw [aside, tally_append]
    simp only [liveTally, tally_nil]
    omega
  · rintro e (hi | hh)
    · exact Or.inl ((idle e).mp hi)
    · exact Or.inr hh
  · exact {
      listed := by
        intro id orders hm order ho
        obtain ⟨old, hb, from_⟩ := mem_entered hm
        change _ ∧ ((∃ e ∈ b.aside, _) ∨ _)
        rw [aside]
        rcases from_ order ho with ho | ⟨rfl, hn⟩
        · obtain ⟨named, place⟩ := h.links.listed id old hb order ho
          refine ⟨named, ?_⟩
          rcases place with ⟨e, ha, he⟩ | ⟨e, hl, he⟩ | hc
          · exact Or.inl ⟨e, List.mem_append_left _ ha, he⟩
          · exact Or.inl ⟨e, List.mem_append_right _ hl, he⟩
          · exact Or.inr (Or.inr hc)
        · exact ⟨hn, Or.inl ⟨task, by simp, rfl⟩⟩
      counted := by
        intro x hx
        rcases List.mem_append.mp hx with hx | hx
        · exact h.entered_counted _ hx
        · rw [List.mem_singleton.mp hx]
          refine ⟨?_, pos⟩
          have before : Backlog.occurrences s.backlog.dependents task.order = 0 := by
            by_contra pos
            obtain ⟨id, orders, hm, ho⟩ := Backlog.occurrences_pos.mp (Nat.pos_of_ne_zero pos)
            exact unlisted id orders hm ho
          change _ = Backlog.occurrences
            (entered s.backlog.dependents task.order (s.afterOf task.order)) task.order
          rw [occurrences_entered h.results.keysNodup, before, if_pos rfl, Nat.zero_add]
      waits := by
        intro x hx id ha
        rcases List.mem_append.mp hx with hx | hx
        · exact h.entered_waits _ hx ha
        · rw [List.mem_singleton.mp hx] at ha ⊢
          change id ∈ s.afterOf task.order at ha
          change _ ∨ ∃ orders, _ ∧ task.order ∈ orders
          by_cases hc : AssocList.contains s.backlog.dependents id = true
          · obtain ⟨orders, hm⟩ := AssocList.contains_iff.mp hc
            refine Or.inr ⟨_, List.mem_map.mpr ⟨(id, orders), hm, rfl⟩, ?_⟩
            refine List.mem_append_right _ (List.mem_replicate.mpr ⟨?_, rfl⟩)
            exact Nat.ne_of_gt (List.count_pos_iff.mpr ha)
          · exact Or.inl (h.returned_of_unlisted uncancelled ha (by simpa using hc))
      started := h.links.started }

theorem Valid.goesReady
    (zero : ¬ 0 < ((s.afterOf task.order).filter (AssocList.contains s.backlog.dependents)).length) :
    (s.withBacklog (({ s.backlog with
      dependents := entered s.backlog.dependents task.order (s.afterOf task.order) } :
        Backlog).makeReady task priority).1).Valid [] := by
  have unnamed : ∀ id ∈ s.afterOf task.order,
      AssocList.contains s.backlog.dependents id = false := by
    intro id ha
    by_contra hc
    have mem : id ∈ (s.afterOf task.order).filter (AssocList.contains s.backlog.dependents) :=
      List.mem_filter.mpr ⟨ha, by simpa using hc⟩
    exact zero (List.length_pos_of_mem mem)
  let b : Backlog := { s.backlog with
    dependents := entered s.backlog.dependents task.order (s.afterOf task.order) }
  have idle : ∀ e, (s.withBacklog (b.makeReady task priority).1).Idle [] e ↔ s.Idle [task] e := by
    intro e
    constructor
    · rintro (⟨p, hp⟩ | ha | hn)
      · rcases (Backlog.mem_makeReady b).mp hp with hp | ⟨_, rfl⟩
        · exact Or.inl ⟨p, hp⟩
        · exact Or.inr (Or.inr List.mem_cons_self)
      · exact Or.inr (Or.inl ha)
      · cases hn
    · rintro (⟨p, hp⟩ | ha | hl)
      · exact Or.inl ⟨p, (Backlog.mem_makeReady b).mpr (Or.inl hp)⟩
      · exact Or.inr (Or.inl ha)
      · exact Or.inl ⟨priority,
          (Backlog.mem_makeReady b).mpr (Or.inr ⟨rfl, List.mem_singleton.mp hl⟩)⟩
  refine ⟨h.books.move rfl rfl rfl rfl rfl rfl (fun _ => rfl) ?_ ?_,
    h.results.move rfl rfl rfl rfl rfl rfl (entered_keys _ _ _) idle, ?_⟩
  · intro order
    have ready := b.readyTally_makeReady task priority order
    change Backlog.readyTally (b.makeReady task priority).1.tasks order +
      tally s.backlog.aside order + tally [] order + tally s.held order = _
    rw [ready]
    simp only [liveTally, tally_cons, tally_nil]
    change Backlog.readyTally s.backlog.tasks order + _ + _ + _ + _ = _
    omega
  · rintro e (hi | hh)
    · exact Or.inl ((idle e).mp hi)
    · exact Or.inr hh
  · exact {
      listed := by
        intro id orders hm order ho
        obtain ⟨old, hb, from_⟩ := mem_entered hm
        rcases from_ order ho with ho | ⟨rfl, hn⟩
        · obtain ⟨named, place⟩ := h.links.listed id old hb order ho
          refine ⟨named, ?_⟩
          rcases place with ha | ⟨e, hl, rfl⟩ | hc
          · exact Or.inl ha
          · rw [List.mem_singleton.mp hl] at ho
            exact absurd ho (unlisted id old hb)
          · exact Or.inr (Or.inr hc)
        · have := unnamed id hn
          rw [AssocList.contains_iff.mpr ⟨old, hb⟩] at this
          cases this
      counted := fun w mem => h.entered_counted _ mem
      waits := fun w mem id named => h.entered_waits _ mem named
      started := by
        rintro order (⟨p, e, hp, rfl⟩ | place) id ha
        · rcases (Backlog.mem_makeReady b).mp hp with hp | ⟨_, rfl⟩
          · exact h.links.started _ (Or.inl ⟨p, e, hp, rfl⟩) id ha
          · exact h.returned_of_unlisted uncancelled ha (unnamed id ha)
        · exact h.links.started order (Or.inr place) id ha }

theorem Valid.settlePlace :
    (s.withBacklog (settlePlace s.backlog task priority (s.afterOf task.order))).Valid [] := by
  unfold Run.settlePlace
  dsimp only
  split
  · rename_i pos
    exact h.setAside priority unlisted uncancelled pos
  · rename_i zero
    exact h.goesReady priority unlisted uncancelled zero

end Settling

theorem queue_eq (b : Backlog) (priority : OperationPriority) (after : List OperationId)
    (result : Option OperationId) :
    (b.queue priority after result).1 = settlePlace { b with
        accepted := b.accepted + 1
        unfinished := insert b.accepted b.unfinished
        dependents := match result with
          | some id => AssocList.tryEmplace b.dependents id []
          | none => b.dependents } ⟨b.accepted, result⟩ priority after := by
  cases result with
  | none =>
    simp only [Backlog.queue, Backlog.enterDependents_eq, settlePlace, entered, Nat.zero_add]
    split <;> rfl
  | some id =>
    simp only [Backlog.queue, Backlog.enterDependents_eq, settlePlace, entered, Nat.zero_add]
    split <;> rfl

/-- A task given an order is one more run of the invariant. -/
theorem Valid.queue (h : s.Valid []) (submission : Submission) (priority : OperationPriority)
    (makes : s.Makes operations submission.result)
    (made : ∀ id ∈ submission.after, s.operations.queueOf id = s.backlog.number ∧
      s.operations.stateOf id ≠ none)
    (uncancelled : ∀ id ∈ submission.after, s.operations.stateOf id ≠ some .cancelled) :
    Valid { s with
      shared := ⟨(s.backlog.queue priority submission.after submission.result).1, operations⟩
      log := s.log ++ [submission] } [] := by
  have acceptedRun := h.accept makes made
  have after : (s.accept operations submission).afterOf s.backlog.accepted = submission.after := by
    rw [afterOf_accept, h.books.logged, if_pos rfl]
  have placed := acceptedRun.settlePlace priority (by
      intro id orders hm ho
      rw [h.accept_dependents makes] at hm
      rcases List.mem_append.mp hm with hm | hm
      · have lt := afterOf_lt (h.links.listed id orders hm _ ho).1
        rw [h.books.logged] at lt
        exact Nat.lt_irrefl _ lt
      · cases hr : submission.result with
        | none => simp [hr] at hm
        | some own =>
          simp only [hr, Option.map_some, Option.toList_some, List.mem_singleton,
            Prod.mk.injEq] at hm
          rw [hm.2] at ho
          cases ho)
    (by
      intro id ha
      rw [after] at ha
      change operations.stateOf id ≠ _
      rw [makes.states]
      split
      · simp
      · exact uncancelled id ha)
  rw [after] at placed
  rw [queue_eq]
  exact placed

theorem queue_keeps (b : Backlog) (priority : OperationPriority) (after : List OperationId)
    (result : Option OperationId) :
    (b.queue priority after result).1.accepted = b.accepted + 1 ∧
    (b.queue priority after result).1.accepting = b.accepting ∧
    (b.queue priority after result).1.workers = b.workers := by
  rw [queue_eq, settlePlace]
  cases result with
  | none =>
    dsimp only
    split <;> exact ⟨rfl, rfl, rfl⟩
  | some id =>
    dsimp only
    split <;> exact ⟨rfl, rfl, rfl⟩

theorem allFromHere_iff {shared : Shared α} {after : List OperationId} :
    shared.allFromHere after = true ↔
      ∀ id ∈ after, shared.operations.queueOf id = shared.backlog.number := by
  simp [Shared.allFromHere]

theorem anyCancelled_iff {shared : Shared α} {after : List OperationId} :
    shared.anyCancelled after = true ↔
      ∃ id ∈ after, shared.operations.stateOf id = some .cancelled := by
  simp [Shared.anyCancelled, Operations.isCancelled_iff]

/-- What `submit` comes to: refused, cancelled as it is accepted, or queued. -/
theorem submit_cases (shared : Shared α) (options : OperationOptions) :
    (shared.submit options = (false, shared, [])) ∨
    (shared.submit options = (true, shared, []) ∧ shared.backlog.accepting = true ∧
      shared.allFromHere options.after = true ∧ shared.anyCancelled options.after = true) ∨
    ∃ priority, priorityOf options.priority = some priority ∧
      shared.backlog.accepting = true ∧ shared.allFromHere options.after = true ∧
      shared.anyCancelled options.after = false ∧
      shared.submit options =
        (true, ⟨(shared.backlog.queue priority options.after none).1, shared.operations⟩,
          (shared.backlog.queue priority options.after none).2) := by
  unfold Shared.submit
  cases priorityOf options.priority with
  | none => exact Or.inl rfl
  | some priority =>
    cases hf : shared.allFromHere options.after with
    | false => exact Or.inl (by simp)
    | true =>
      cases ha : shared.backlog.accepting with
      | false => exact Or.inl (by simp)
      | true =>
        cases hc : shared.anyCancelled options.after with
        | false => exact Or.inr (Or.inr ⟨priority, rfl, by simp⟩)
        | true => exact Or.inr (Or.inl (by simp))

theorem enqueue_cases (shared : Shared α) (options : OperationOptions) :
    (∃ errc, shared.enqueue options = (.error errc, shared, [])) ∨
    (shared.backlog.accepting = true ∧
      shared.allFromHere options.after = true ∧ shared.anyCancelled options.after = true ∧
      shared.enqueue options = (.ok (shared.operations.lastId + 1),
        ⟨shared.backlog, (shared.operations.make shared.backlog.number).2.cancel
          (shared.operations.lastId + 1)⟩, [])) ∨
    ∃ priority, priorityOf options.priority = some priority ∧
      shared.backlog.accepting = true ∧ shared.allFromHere options.after = true ∧
      shared.anyCancelled options.after = false ∧
      shared.enqueue options = (.ok (shared.operations.lastId + 1),
        ⟨(shared.backlog.queue priority options.after (some (shared.operations.lastId + 1))).1,
          (shared.operations.make shared.backlog.number).2⟩,
        (shared.backlog.queue priority options.after (some (shared.operations.lastId + 1))).2) := by
  unfold Shared.enqueue
  cases priorityOf options.priority with
  | none => exact Or.inl ⟨_, rfl⟩
  | some priority =>
    cases hf : shared.allFromHere options.after with
    | false => exact Or.inl ⟨.foreignDependency, by simp⟩
    | true =>
      cases ha : shared.backlog.accepting with
      | false => exact Or.inl ⟨.queueStopped, by simp⟩
      | true =>
        cases hc : shared.anyCancelled options.after with
        | false => exact Or.inr (Or.inr ⟨priority, rfl, by simp⟩)
        | true => exact Or.inr (Or.inl (by simp))

/-- What an admission makes of the backlog: one task more at most. -/
inductive Admits (b : Backlog) : Backlog → List Nat → Prop
  | same : Admits b b []
  | queued (priority : OperationPriority) (after : List OperationId)
      (result : Option OperationId) (accepting : b.accepting = true) :
      Admits b (b.queue priority after result).1 (b.queue priority after result).2

theorem submit_admits (s : Run α) (options : OperationOptions) :
    Admits s.backlog (s.submit options).backlog (s.shared.submit options).2.2 := by
  change Admits s.backlog (s.shared.submit options).2.1.backlog _
  rcases submit_cases s.shared options with eq | ⟨eq, -⟩ | ⟨priority, _, accepting, _, _, eq⟩
  · rw [eq]
    exact .same
  · rw [eq]
    exact .same
  · rw [eq]
    exact .queued priority options.after none accepting

theorem enqueue_admits (s : Run α) (options : OperationOptions) :
    Admits s.backlog (s.enqueue options).backlog (s.shared.enqueue options).2.2 := by
  change Admits s.backlog (s.shared.enqueue options).2.1.backlog _
  rcases enqueue_cases s.shared options with ⟨_, eq⟩ | ⟨_, _, _, eq⟩ |
    ⟨priority, _, accepting, _, _, eq⟩
  · rw [eq]
    exact .same
  · rw [eq]
    exact .same
  · rw [eq]
    exact .queued priority options.after _ accepting

theorem Admits.keeps {b b' : Backlog} {woken : List Nat} (h : Admits b b' woken) :
    b'.accepting = b.accepting ∧ b'.workers = b.workers ∧ (b.accepting = false → b' = b) := by
  cases h with
  | same => exact ⟨rfl, rfl, fun _ => rfl⟩
  | queued priority after result accepting =>
    obtain ⟨-, kept, workers⟩ := queue_keeps b priority after result
    refine ⟨kept, workers, fun stopped => ?_⟩
    rw [stopped] at accepting
    cases accepting

theorem Valid.submit (h : s.Valid []) (options : OperationOptions)
    (made : ∀ id ∈ options.after, s.operations.stateOf id ≠ none) :
    (s.submit options).Valid [] := by
  rcases submit_cases s.shared options with eq | ⟨eq, -⟩ | ⟨priority, _, _, here, cancelled, eq⟩
  · have out : s.submit options = s := by simp [Run.submit, Run.record, eq]
    rw [out]
    exact h
  · have out : s.submit options = s := by simp [Run.submit, Run.record, eq]
    rw [out]
    exact h
  · have out : s.submit options = { s with
        shared := ⟨(s.backlog.queue priority options.after none).1, s.operations⟩
        log := s.log ++ [⟨none, options.after⟩] } := by
      simp [Run.submit, Run.record, eq, (queue_keeps _ _ _ _).1]
    rw [out]
    refine h.queue ⟨none, options.after⟩ priority h.makesNone ?_ ?_
    · exact fun id ha => ⟨allFromHere_iff.mp here id ha, made id ha⟩
    · intro id ha hc
      have := anyCancelled_iff.mpr ⟨id, ha, hc⟩
      rw [cancelled] at this
      cases this

/-- A result that is cancelled as it is made leaves the others of the queue alone. -/
theorem Results.makesCancelled {limbo : List Entry} (results : s.Results limbo) :
    s.Elsewhere ((s.operations.make s.backlog.number).2.cancel (s.operations.lastId + 1)) where
  keep := by
    intro id _ known
    have ne : id ≠ s.operations.lastId + 1 := by
      rintro rfl
      exact known (results.fresh _ (Nat.lt_succ_self _))
    rw [Operations.cancel, Operations.stateOf_settle, if_neg (fun hc => ne hc.1),
      Operations.queueOf_settle, Operations.stateOf_make, Operations.queueOf_make, if_neg ne,
      if_neg ne]
    exact ⟨rfl, rfl⟩
  pending := by
    intro id here waiting
    have pending : (s.operations.make s.backlog.number).2.isPending (s.operations.lastId + 1) =
        true := by
      rw [Operations.isPending_iff, Operations.stateOf_make, if_pos rfl]
    rw [Operations.cancel, Operations.queueOf_settle, Operations.queueOf_make] at here
    rw [Operations.cancel, Operations.stateOf_settle, Operations.stateOf_make] at waiting
    by_cases ne : id = s.operations.lastId + 1
    · rw [if_pos ⟨ne, pending⟩] at waiting
      cases waiting
    · rw [if_neg ne] at here
      rw [if_neg (fun hc => ne hc.1), if_neg ne] at waiting
      exact ⟨here, waiting⟩
  fresh := by
    intro id hid
    rw [Operations.cancel, Operations.settle_lastId, Operations.make_lastId] at hid
    rw [Operations.cancel, Operations.stateOf_settle,
      if_neg (fun hc => Nat.ne_of_gt hid hc.1), Operations.stateOf_make,
      if_neg (Nat.ne_of_gt hid)]
    exact results.fresh id (Nat.lt_of_succ_lt hid)

theorem Valid.enqueue (h : s.Valid []) (options : OperationOptions)
    (made : ∀ id ∈ options.after, s.operations.stateOf id ≠ none) :
    (s.enqueue options).Valid [] := by
  rcases enqueue_cases s.shared options with ⟨errc, eq⟩ | ⟨_, _, _, eq⟩ |
    ⟨priority, _, _, here, cancelled, eq⟩
  · have out : s.enqueue options = s := by simp [Run.enqueue, Run.record, eq]
    rw [out]
    exact h
  · have out : s.enqueue options = s.withOperations
        ((s.operations.make s.backlog.number).2.cancel (s.operations.lastId + 1)) := by
      simp [Run.enqueue, Run.record, eq, withOperations]
    rw [out]
    exact Valid.elsewhere h.results.makesCancelled h
  · have out : s.enqueue options = { s with
        shared := ⟨(s.backlog.queue priority options.after (some (s.operations.lastId + 1))).1,
          (s.operations.make s.backlog.number).2⟩
        log := s.log ++ [⟨some (s.operations.lastId + 1), options.after⟩] } := by
      simp [Run.enqueue, Run.record, eq, (queue_keeps _ _ _ _).1, Except.toOption]
    rw [out]
    refine h.queue ⟨some (s.operations.lastId + 1), options.after⟩ priority h.makesOne ?_ ?_
    · exact fun id ha => ⟨allFromHere_iff.mp here id ha, made id ha⟩
    · intro id ha hc
      have := anyCancelled_iff.mpr ⟨id, ha, hc⟩
      rw [cancelled] at this
      cases this

end Run

end Dross
