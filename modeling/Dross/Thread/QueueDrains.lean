import Dross.Thread.QueueSweeps
import Dross.Thread.WorkerPosts
import Mathlib.Algebra.BigOperators.Group.Finset.Basic
import Mathlib.Algebra.Ring.Nat

/-!
# A queue left to its workers

With nothing more submitted, and calls that return, the workers come to rest by
themselves. A finish item that finds its loop not empty goes behind what is queued
there, and each item it passes is one fewer it can be sent behind again.
-/

namespace Dross

namespace Backlog

variable {b : Backlog}

theorem handSweeps_fewer (is : List Nat) (sweeping : List Bool) :
    (handSweeps is sweeping).2.length ≤ is.length := by
  induction is generalizing sweeping with
  | nil => exact Nat.le_refl _
  | cons i rest ih =>
    rw [handSweeps]
    split
    · exact Nat.le_succ_of_le (ih sweeping)
    · exact Nat.succ_le_succ (ih _)

theorem makeReady_fewer (b : Backlog) (task : Entry) (priority : OperationPriority) :
    (b.makeReady task priority).2.length ≤ b.workers := by
  have fewer := handSweeps_fewer (List.range b.workers) b.sweeping
  rwa [List.length_range] at fewer

/-- What is left of a backlog, with at most so many workers to hand sweeps to: a ready task
is to be taken, to return and to be counted off, and one set aside is to be made ready. -/
def toil (workers : Nat) (b : Backlog) : Nat :=
  3 * ((b.tasks .low).length + (b.tasks .normal).length + (b.tasks .high).length) +
    (3 + 6 * workers) * b.waiting.length

theorem toil_makeReady (workers : Nat) (b : Backlog) (task : Entry)
    (priority : OperationPriority) :
    (b.makeReady task priority).1.toil workers = b.toil workers + 3 := by
  unfold toil
  simp only [Backlog.makeReady_tasks, Backlog.makeReady_waiting]
  cases priority <;> simp [Function.update] <;> omega

theorem countOff_toil {workers : Nat} (staffed : b.workers ≤ workers) (order : Nat) :
    (b.countOff order).1.toil workers + 6 * (b.countOff order).2.length ≤ b.toil workers ∧
      (b.countOff order).1.workers = b.workers := by
  unfold countOff
  split
  · exact ⟨Nat.le_refl _, rfl⟩
  · rename_i found known
    obtain ⟨mem, same⟩ := b.findWaiting_some known
    split
    · have fewer := (b.eraseWaiting order).makeReady_fewer found.task found.priority
      have shorter : (b.eraseWaiting order).waiting.length + 1 ≤ b.waiting.length :=
        List.length_filter_lt_length_iff_exists.mpr ⟨found, mem, by simp [same]⟩
      have scaled := Nat.mul_le_mul_left (3 + 6 * workers) shorter
      have handed : 6 * ((b.eraseWaiting order).makeReady found.task found.priority).2.length ≤
          6 * workers := Nat.mul_le_mul_left 6 (Nat.le_trans fewer staffed)
      refine ⟨?_, rfl⟩
      rw [toil_makeReady]
      change 3 * ((b.tasks .low).length + (b.tasks .normal).length + (b.tasks .high).length) +
        (3 + 6 * workers) * (b.eraseWaiting order).waiting.length + 3 + _ ≤ _
      unfold toil
      rw [Nat.mul_add] at scaled
      omega
    · exact ⟨by simp [toil], rfl⟩

theorem countOffAll_toil {workers : Nat} (orders : List Nat) (staffed : b.workers ≤ workers) :
    (b.countOffAll orders).1.toil workers + 6 * (b.countOffAll orders).2.length ≤
      b.toil workers := by
  induction orders generalizing b with
  | nil => exact Nat.le_refl _
  | cons order rest ih =>
    obtain ⟨first, same⟩ := countOff_toil staffed order
    have later := ih (b := (b.countOff order).1) (same ▸ staffed)
    rw [countOffAll]
    dsimp only
    rw [List.length_append]
    omega

theorem done_toil {workers : Nat} (staffed : b.workers ≤ workers) (task : Entry) :
    (b.done task).1.toil workers + 6 * (b.done task).2.length ≤ b.toil workers := by
  unfold Backlog.done
  dsimp only
  split
  · exact Nat.le_refl _
  · exact countOffAll_toil _ staffed

end Backlog

/-- What is queued on a loop. An item behind the finish item, or on a loop that has none
queued, may still be gone behind by one. -/
def worth : List WorkItem → Nat
  | [] => 0
  | item :: rest =>
    if item = .finish then 4 + 6 * rest.length
    else (if .finish ∈ rest then 2 else 6) + worth rest

theorem worth_le (items : List WorkItem) : worth items ≤ 6 * items.length := by
  induction items with
  | nil => exact Nat.le_refl _
  | cons item rest ih =>
    rw [worth, List.length_cons]
    split_ifs <;> omega

theorem worth_none {items : List WorkItem} (none : .finish ∉ items) :
    worth items = 6 * items.length := by
  induction items with
  | nil => rfl
  | cons item rest ih =>
    rw [List.mem_cons, not_or] at none
    rw [worth, if_neg (Ne.symm none.1), if_neg none.2, ih none.2, List.length_cons]
    omega

theorem worth_requeued {items : List WorkItem} (none : .finish ∉ items) :
    worth (items ++ [.finish]) = 2 * items.length + 4 := by
  induction items with
  | nil => rfl
  | cons item rest ih =>
    rw [List.mem_cons, not_or] at none
    rw [List.cons_append, worth, if_neg (Ne.symm none.1), if_pos (by simp), ih none.2,
      List.length_cons]
    omega

theorem worth_handed {item : WorkItem} (other : item ≠ .finish) (items : List WorkItem) :
    worth (items ++ [item]) ≤ worth items + 6 := by
  induction items with
  | nil =>
    rw [List.nil_append, worth_none (by simp [other.symm])]
    exact Nat.le_refl _
  | cons first rest ih =>
    have same : .finish ∈ rest ++ [item] ↔ .finish ∈ rest := by simp [other.symm]
    rw [List.cons_append, worth, worth, List.length_append, List.length_singleton]
    simp only [same]
    split_ifs <;> omega

/-- What is left of a call itself. -/
def Frame.weight : Frame → Nat
  | .draining last next => (if last then 3 else 1) +
    match next with
    | none => 0
    | some (_, true) => 1
    | some (_, false) => 2
  | .checking => 2
  | _ => 1

theorem Frame.weight_pos (frame : Frame) : 0 < frame.weight := by
  cases frame with
  | draining last next => exact Nat.add_pos_left (by cases last <;> decide) _
  | _ => simp [Frame.weight]

def Worker.load (w : Worker) : Nat := worth w.items + (w.frames.map Frame.weight).sum

namespace Crew

variable {α : Type} {s t : Crew α}

/-- All that is left to do, if nothing more comes. -/
def work (s : Crew α) : Nat :=
  s.run.backlog.toil s.count + ∑ w ∈ Finset.range s.count, (s.workers w).load

theorem load_update {count w : Nat} (workers : Nat → Worker) (less : w < count)
    (worker : Worker) :
    (∑ v ∈ Finset.range count, (Function.update workers w worker v).load) + (workers w).load =
      (∑ v ∈ Finset.range count, (workers v).load) + worker.load := by
  have mem : w ∈ Finset.range count := Finset.mem_range.mpr less
  rw [← Finset.add_sum_erase _ _ mem, ← Finset.add_sum_erase (Finset.range count)
    (fun v => (workers v).load) mem, Function.update_self]
  have rest : ∑ v ∈ (Finset.range count).erase w, (Function.update workers w worker v).load =
      ∑ v ∈ (Finset.range count).erase w, (workers v).load := by
    refine Finset.sum_congr rfl fun v mem => ?_
    rw [Function.update_of_ne (Finset.ne_of_mem_erase mem)]
  omega

theorem load_perform {item : WorkItem} (other : item ≠ .finish) (w : Worker) :
    (w.perform item).load ≤ w.load + 6 := by
  unfold Worker.perform
  split
  · exact Nat.le_add_right _ _
  · have more := worth_handed other w.items
    unfold Worker.load
    dsimp only
    omega

theorem load_hand {item : WorkItem} (other : item ≠ .finish) (count : Nat) (ws : List Nat)
    (workers : Nat → Worker) :
    ∑ v ∈ Finset.range count, (hand workers item ws v).load ≤
      (∑ v ∈ Finset.range count, (workers v).load) + 6 * ws.length := by
  induction ws generalizing workers with
  | nil => exact Nat.le_refl _
  | cons w rest ih =>
    rw [hand, List.length_cons]
    refine Nat.le_trans (ih _) ?_
    by_cases less : w < count
    · have changed := load_update workers less ((workers w).perform item)
      have more := load_perform other (workers w)
      omega
    · have same : ∑ v ∈ Finset.range count,
          (Function.update workers w ((workers w).perform item) v).load =
            ∑ v ∈ Finset.range count, (workers v).load := by
        refine Finset.sum_congr rfl fun v mem => ?_
        have apart : v ≠ w := by
          rintro rfl
          exact less (Finset.mem_range.mp mem)
        rw [Function.update_of_ne apart]
      omega

/-! ## What the workers do by themselves -/

/-- The steps of a worker, but for those that begin a call of somebody else's making: a
task's own running calls, and timers. -/
inductive Works (s : Crew α) : Crew α → Prop
  | next (w : Nat) {item : WorkItem} {items : List WorkItem} {frames : List Frame}
      (front : (s.workers w).items = item :: items) (top : (s.workers w).frames = .loop :: frames)
      (awake : frames = [] → (s.workers w).quit = false) :
      Works s (s.set w
        { s.workers w with items := items, frames := item.frame :: .loop :: frames })
  | leave (w : Nat) {frame : Frame} {frames : List Frame}
      (top : (s.workers w).frames = .loop :: frame :: frames) :
      Works s (s.set w { s.workers w with frames := frame :: frames })
  | back (w : Nat) {frames : List Frame} (top : (s.workers w).frames = .user :: frames) :
      Works s (s.set w { s.workers w with frames := frames })
  | take (w : Nat) {last : Bool} {frames : List Frame}
      (top : (s.workers w).frames = .draining last none :: frames) :
      Works s (s.take w last frames)
  | finish (w : Nat) {last : Bool} {task : Entry} {frames : List Frame} (value : α)
      (top : (s.workers w).frames = .draining last (some (task, false)) :: frames) :
      Works s (s.finish w last task value frames)
  | done (w : Nat) {last : Bool} {task : Entry} {frames : List Frame}
      (top : (s.workers w).frames = .draining last (some (task, true)) :: frames) :
      Works s (s.done w last task frames)
  | check (w : Nat) {frames : List Frame} (top : (s.workers w).frames = .checking :: frames) :
      Works s (s.set w { s.workers w with
        frames := (if 0 < (s.workers w).items.length then .requeueing else .quitting) :: frames })
  | requeue (w : Nat) {frames : List Frame} (top : (s.workers w).frames = .requeueing :: frames) :
      Works s (s.set w ({ s.workers w with frames := frames }.perform .finish))
  | quit (w : Nat) {frames : List Frame} (top : (s.workers w).frames = .quitting :: frames) :
      Works s (s.set w { s.workers w with quit := true, frames := frames })
  | ended (w : Nat) (top : (s.workers w).frames = [.loop]) (told : (s.workers w).quit = true) :
      Works s (s.set w { items := [], quit := false, frames := [], ended := true })

theorem Works.step (works : Works s t) : Step s t := by
  cases works with
  | next w front top awake => exact .next w front top awake
  | leave w top => exact .leave w top
  | back w top => exact .back w top
  | take w top => exact .take w top
  | finish w value top => exact .finish w value top
  | done w top => exact .done w top
  | check w top => exact .check w top
  | requeue w top => exact .requeue w top
  | quit w top => exact .quit w top
  | ended w top told => exact .ended w top told

/-- The run of a loop is at the bottom of its worker's calls until that has ended, and a
finish item, which is only ever the last call, goes behind something. -/
structure Upright (s : Crew α) : Prop where
  based : ∀ w, Posts.Based (s.workers w).frames
  gone : ∀ w < s.count, (s.workers w).frames = [] → (s.workers w).ended = true
  behind : ∀ w frames, (s.workers w).frames = .requeueing :: frames → (s.workers w).items ≠ []
  above : ∀ w, .requeueing ∉ (s.workers w).frames.tail

theorem Upright.handed {item : WorkItem} (h : s.Upright) (run : Run α) (ws : List Nat) :
    Upright ⟨run, s.count, hand s.workers item ws⟩ := by
  refine ⟨fun w => ?_, fun w less => ?_, fun w frames => ?_, fun w => ?_⟩ <;> dsimp only <;>
    rw [hand_eq]
  · exact h.based w
  · exact h.gone w less
  · intro top
    exact List.append_ne_nil_of_left_ne_nil (h.behind w frames top) _
  · exact h.above w

theorem Upright.moved {w : Nat} {worker : Worker} (h : s.Upright) (run : Run α)
    (based : Posts.Based worker.frames) (gone : worker.frames = [] → worker.ended = true)
    (behind : ∀ frames, worker.frames = .requeueing :: frames → worker.items ≠ [])
    (above : .requeueing ∉ worker.frames.tail) :
    Upright ⟨run, s.count, Function.update s.workers w worker⟩ := by
  refine ⟨fun v => ?_, fun v less => ?_, fun v frames => ?_, fun v => ?_⟩ <;> dsimp only <;>
    by_cases same : v = w
  · rw [same, Function.update_self]
    exact based
  · rw [Function.update_of_ne same]
    exact h.based v
  · rw [same, Function.update_self]
    exact gone
  · rw [Function.update_of_ne same]
    exact h.gone v less
  · rw [same, Function.update_self]
    exact behind frames
  · rw [Function.update_of_ne same]
    exact h.behind v frames
  · rw [same, Function.update_self]
    exact above
  · rw [Function.update_of_ne same]
    exact h.above v

variable {w : Nat} {frame other : Frame} {frames : List Frame} {worker : Worker}

/-- A call ends, above the run of the loop. -/
theorem Upright.popped (h : s.Upright) (run : Run α) (top : (s.workers w).frames = frame :: frames)
    (call : frame ≠ .loop ∨ frames ≠ []) (same : worker.frames = frames) :
    Upright ⟨run, s.count, Function.update s.workers w worker⟩ := by
  have based := h.based w
  have above := h.above w
  rw [top] at based above
  refine h.moved run (same ▸ based.tail) (fun none => ?_) (fun rest again => ?_) (fun mem => ?_)
  · rcases call with call | more
    · exact absurd (same.symm.trans none) (based.more call)
    · exact absurd (same.symm.trans none) more
  · rw [same] at again
    rw [List.tail_cons, again] at above
    exact absurd List.mem_cons_self above
  · rw [same] at mem
    exact above (List.mem_of_mem_tail mem)

/-- A call goes on as another. -/
theorem Upright.swapped (h : s.Upright) (run : Run α) (top : (s.workers w).frames = frame :: frames)
    (call : frame ≠ .loop) (same : worker.frames = other :: frames)
    (behind : other = .requeueing → worker.items ≠ []) :
    Upright ⟨run, s.count, Function.update s.workers w worker⟩ := by
  have based := h.based w
  have above := h.above w
  rw [top] at based above
  refine h.moved run (same ▸ based.swap call) (fun none => ?_) (fun rest again => ?_) ?_
  · rw [same] at none
    cases none
  · rw [same] at again
    exact behind (List.cons.inj again).1
  · rw [same]
    exact above

/-- A call begins. -/
theorem Upright.called (h : s.Upright) (run : Run α) (top : (s.workers w).frames = frame :: frames)
    (calls : frame ≠ .requeueing) (same : worker.frames = other :: frame :: frames)
    (calm : other ≠ .requeueing) :
    Upright ⟨run, s.count, Function.update s.workers w worker⟩ := by
  have based := h.based w
  have above := h.above w
  rw [top] at based above
  refine h.moved run (same ▸ based.above (List.cons_ne_nil _ _)) (fun none => ?_)
    (fun rest again => ?_) ?_
  · rw [same] at none
    cases none
  · rw [same] at again
    exact absurd (List.cons.inj again).1 calm
  · rw [same, List.tail_cons, List.mem_cons, not_or]
    exact ⟨calls.symm, above⟩

theorem Upright.step (h : s.Upright) (step : Step s t) : t.Upright := by
  cases step with
  | submit options made => exact h.handed _ _
  | enqueue options made => exact h.handed _ _
  | cancel id => exact ⟨h.based, h.gone, h.behind, h.above⟩
  | stop => exact h.handed _ _
  | elsewhereMakes queue other => exact ⟨h.based, h.gone, h.behind, h.above⟩
  | elsewhereSettles id state other => exact ⟨h.based, h.gone, h.behind, h.above⟩
  | perform w => exact h.handed _ _
  | @next w item items frames front top awake =>
    exact h.called s.run top (by simp) rfl (by cases item <;> simp [WorkItem.frame])
  | timer w top awake => exact h.called s.run top (by simp) rfl (by simp)
  | @nest w frame frames top nests =>
    refine h.called s.run top ?_ rfl (by simp)
    rintro rfl
    cases nests
  | leave w top => exact h.popped s.run top (Or.inr (List.cons_ne_nil _ _)) rfl
  | back w top => exact h.popped s.run top (Or.inl (by simp)) rfl
  | @take w last frames top =>
    unfold Crew.take
    dsimp only
    split
    · exact h.swapped _ top (by simp) rfl (by simp)
    · cases last with
      | false => exact h.popped _ top (Or.inl (by simp)) rfl
      | true => exact h.swapped _ top (by simp) rfl (by simp)
  | finish w value top => exact h.swapped _ top (by simp) rfl (by simp)
  | done w top => exact (h.swapped s.run top (by simp) rfl (by simp)).handed _ _
  | @check w frames top =>
    refine h.swapped s.run top (by simp) rfl ?_
    split
    · rename_i some
      exact fun _ => List.ne_nil_of_length_pos some
    · simp
  | @requeue w frames top =>
    refine h.popped s.run top (Or.inl (by simp)) ?_
    unfold Worker.perform
    split <;> rfl
  | quit w top => exact h.popped s.run top (Or.inl (by simp)) rfl
  | ended w top told => exact h.moved s.run (Or.inl rfl) (fun _ => rfl) (by simp) (by simp)

theorem Reachable.upright (h : s.Reachable) : s.Upright := by
  refine Transition.Reachable.invariant (fun s starts => ?_) (fun s t upright step =>
    upright.step step) h
  have idle := starts.2.2.2
  refine ⟨fun w => ?_, fun w less => ?_, fun w frames => ?_, fun w => ?_⟩ <;> rw [idle] <;>
    dsimp only
  · split
    · exact Or.inr rfl
    · exact Or.inl rfl
  · rw [if_pos less]
    exact fun none => nomatch none
  · split <;> simp
  · split <;> simp

theorem work_less {run : Run α} (less : w < s.count)
    (nearer : run.backlog.toil s.count + worker.load <
      s.run.backlog.toil s.count + (s.workers w).load) :
    work ⟨run, s.count, Function.update s.workers w worker⟩ < s.work := by
  have changed := load_update s.workers less worker
  unfold work
  dsimp only
  omega

theorem load_top (top : (s.workers w).frames = frame :: frames) : (s.workers w).load =
    worth (s.workers w).items + frame.weight + (frames.map Frame.weight).sum := by
  rw [Worker.load, top, List.map_cons, List.sum_cons, Nat.add_assoc]

theorem work_popped (less : w < s.count) (top : (s.workers w).frames = frame :: frames)
    (items : worker.items = (s.workers w).items) (same : worker.frames = frames) {run : Run α}
    (toil : run.backlog.toil s.count = s.run.backlog.toil s.count) :
    work ⟨run, s.count, Function.update s.workers w worker⟩ < s.work := by
  refine work_less less ?_
  rw [load_top top, toil, Worker.load, items, same]
  have := frame.weight_pos
  omega

theorem work_swapped (less : w < s.count) (top : (s.workers w).frames = frame :: frames)
    (items : worker.items = (s.workers w).items) (same : worker.frames = other :: frames)
    {run : Run α} (nearer : run.backlog.toil s.count + other.weight <
      s.run.backlog.toil s.count + frame.weight) :
    work ⟨run, s.count, Function.update s.workers w worker⟩ < s.work := by
  refine work_less less ?_
  rw [load_top top, Worker.load, items, same, List.map_cons, List.sum_cons]
  omega

theorem work_next {item : WorkItem} {items : List WorkItem} (less : w < s.count)
    (front : (s.workers w).items = item :: items)
    (top : (s.workers w).frames = .loop :: frames) :
    (s.set w { s.workers w with items := items, frames := item.frame :: .loop :: frames }).work <
      s.work := by
  have rest := worth_le items
  have was := load_top top
  have now : ({ s.workers w with items := items, frames := item.frame :: .loop :: frames } :
      Worker).load = worth items + (item.frame.weight + (Frame.loop.weight +
        (frames.map Frame.weight).sum)) := by
    rw [Worker.load, List.map_cons, List.map_cons, List.sum_cons, List.sum_cons]
  have nearer : worth items + item.frame.weight < worth (s.workers w).items := by
    rw [front, worth]
    cases item with
    | finish =>
      rw [if_pos rfl, show (WorkItem.frame .finish).weight = 3 from rfl]
      omega
    | _ =>
      rw [if_neg (by simp), show (Frame.weight (WorkItem.frame _)) = 1 from rfl]
      split_ifs <;> omega
  refine work_less less ?_
  omega

theorem work_take {last : Bool} (less : w < s.count)
    (top : (s.workers w).frames = .draining last none :: frames) :
    (s.take w last frames).work < s.work := by
  rcases s.run.backlog.take_cases w with ⟨task, priority, rest, front, eq⟩ | ⟨_, eq⟩
  · have out : s.take w last frames = ⟨s.run.take w, s.count, Function.update s.workers w
        { s.workers w with frames := .draining last (some (task, false)) :: frames }⟩ := by
      simp [Crew.take, eq]
    have backlog : (s.run.take w).backlog = { s.run.backlog with
        tasks := Function.update s.run.backlog.tasks priority rest } := by
      simp [Run.take, eq]
    have toil : (s.run.take w).backlog.toil s.count + 3 = s.run.backlog.toil s.count := by
      rw [backlog]
      unfold Backlog.toil
      cases priority <;> simp [Function.update, front] <;> omega
    rw [out]
    refine work_swapped less top (by rfl) (by rfl) ?_
    simp only [Frame.weight]
    omega
  · have out : s.take w last frames = ⟨s.run.take w, s.count, Function.update s.workers w
        { s.workers w with frames := if last then .checking :: frames else frames }⟩ := by
      simp [Crew.take, eq]
    have toil : (s.run.take w).backlog.toil s.count = s.run.backlog.toil s.count := by
      simp [Run.take, eq, Backlog.toil]
    rw [out]
    cases last with
    | false => exact work_popped less top (by rfl) (by rfl) toil
    | true =>
      refine work_swapped less top (by rfl) (by rfl) ?_
      simp only [Frame.weight, toil]
      simp

theorem work_done {last : Bool} {task : Entry} (less : w < s.count)
    (staffed : s.run.backlog.workers ≤ s.count)
    (top : (s.workers w).frames = .draining last (some (task, true)) :: frames) :
    (s.done w last task frames).work < s.work := by
  have toil := Backlog.done_toil staffed task
  have other : WorkItem.sweep ≠ .finish := by simp
  have handed := load_hand other s.count (s.run.backlog.done task).2
    (Function.update s.workers w { s.workers w with frames := .draining last none :: frames })
  have changed := load_update s.workers less
    { s.workers w with frames := .draining last none :: frames }
  have was := load_top top
  have now : ({ s.workers w with frames := .draining last none :: frames } : Worker).load =
      worth (s.workers w).items + Frame.weight (.draining last none) +
        (frames.map Frame.weight).sum := by
    rw [Worker.load, List.map_cons, List.sum_cons, Nat.add_assoc]
  have weight : Frame.weight (.draining last none) + 1 =
      Frame.weight (.draining last (some (task, true))) := rfl
  change (s.run.backlog.done task).1.toil s.count + ∑ v ∈ Finset.range s.count,
    (hand (Function.update s.workers w { s.workers w with
      frames := .draining last none :: frames }) .sweep (s.run.backlog.done task).2 v).load < _
  unfold work
  omega

theorem work_requeue (sound : s.Sound) (less : w < s.count)
    (top : (s.workers w).frames = .requeueing :: frames) (some : (s.workers w).items ≠ []) :
    (s.set w ({ s.workers w with frames := frames }.perform .finish)).work < s.work := by
  have alive := sound.not_ended top
  have none : .finish ∉ (s.workers w).items := by
    intro mem
    have tokens := sound.tokens w less
    have count := List.count_pos_iff.mpr mem
    have calls : 0 < (s.workers w).frames.countP Frame.finishes := by
      rw [top, List.countP_cons_of_pos rfl]
      exact Nat.succ_pos _
    rw [Worker.tokens] at tokens
    split_ifs at tokens <;> omega
  have long := List.length_pos_of_ne_nil some
  refine work_less less ?_
  rw [Worker.perform, if_neg (by rw [alive]; simp), load_top top, Worker.load,
    worth_requeued none, worth_none none]
  simp only [Frame.weight]
  omega

theorem Works.less (works : Works s t) (sound : s.Sound) (upright : s.Upright)
    (staffed : s.run.backlog.workers ≤ s.count) : t.work < s.work := by
  have used {w : Nat} {frame : Frame} {frames : List Frame}
      (top : (s.workers w).frames = frame :: frames) : w < s.count :=
    sound.used_lt (by rw [top]; exact List.cons_ne_nil _ _)
  cases works with
  | next w front top awake => exact work_next (used top) front top
  | leave w top => exact work_popped (used top) top (by rfl) (by rfl) rfl
  | back w top => exact work_popped (used top) top (by rfl) (by rfl) rfl
  | take w top => exact work_take (used top) top
  | @finish w last task frames value top =>
    refine work_swapped (used top) top (by rfl) (by rfl) ?_
    rw [Run.finish_backlog]
    simp [Frame.weight]
  | done w top => exact work_done (used top) staffed top
  | check w top =>
    refine work_swapped (used top) top (by rfl) (by rfl) ?_
    split <;> simp [Frame.weight]
  | requeue w top => exact work_requeue sound (used top) top (upright.behind w _ top)
  | quit w top => exact work_popped (used top) top (by rfl) (by rfl) rfl
  | ended w top told =>
    refine work_less (used top) ?_
    rw [load_top top, Worker.load, worth]
    simp [Frame.weight]

/-- What the workers do submits nothing, stops nothing and cancels nothing. -/
theorem Works.keeps (works : Works s t) : t.count = s.count ∧
    t.run.backlog.accepting = s.run.backlog.accepting ∧ t.run.cancelled = s.run.cancelled := by
  cases works with
  | take w top =>
    obtain ⟨accepting, _⟩ := take_keeps s.run w
    have cancelled : (s.run.take w).cancelled = s.run.cancelled := by
      unfold Run.take
      dsimp only
      split <;> rfl
    unfold Crew.take
    dsimp only
    split <;> exact ⟨rfl, accepting, cancelled⟩
  | @finish w last task frames value top =>
    refine ⟨rfl, ?_, rfl⟩
    change (s.run.finish ⟨w, task, false⟩ value).backlog.accepting = _
    rw [Run.finish_backlog]
  | @done w last task frames top => exact ⟨rfl, (Run.done_keeps s.run.backlog task).1, rfl⟩
  | _ => exact ⟨rfl, rfl, rfl⟩

/-- With no step left, a worker has ended, or is in its loop with nothing to do. -/
theorem Upright.rested [Nonempty α] (h : s.Upright) (stuck : ∀ t, ¬ Works s t)
    (less : w < s.count) : (s.workers w).frames = [] ∧ (s.workers w).ended = true ∨
      (s.workers w).frames = [.loop] ∧ (s.workers w).items = [] ∧
        (s.workers w).quit = false := by
  obtain ⟨value⟩ := ‹Nonempty α›
  cases top : (s.workers w).frames with
  | nil => exact Or.inl ⟨rfl, h.gone w less top⟩
  | cons frame frames =>
    refine Or.inr ?_
    cases frame with
    | loop =>
      cases frames with
      | cons below frames => exact absurd (.leave w top) (stuck _)
      | nil =>
        cases told : (s.workers w).quit with
        | true => exact absurd (.ended w top told) (stuck _)
        | false =>
          cases front : (s.workers w).items with
          | nil => exact ⟨rfl, rfl, rfl⟩
          | cons item items => exact absurd (.next w front top (fun _ => told)) (stuck _)
    | user => exact absurd (.back w top) (stuck _)
    | draining last next =>
      cases next with
      | none => exact absurd (.take w top) (stuck _)
      | some next =>
        obtain ⟨task, returned⟩ := next
        cases returned with
        | false => exact absurd (.finish w value top) (stuck _)
        | true => exact absurd (.done w top) (stuck _)
    | checking => exact absurd (.check w top) (stuck _)
    | requeueing => exact absurd (.requeue w top) (stuck _)
    | quitting => exact absurd (.quit w top) (stuck _)

end Crew

namespace Run

variable {α : Type} {s : Run α}

/-- With nothing ready and nothing running, nothing is left at all. -/
theorem Valid.emptied (h : s.Valid []) (ready : ∀ p, s.backlog.tasks p = []) (hands : s.hands = []) :
    s.backlog.unfinished = ∅ ∧ ∀ order < s.backlog.accepted,
      s.finished.count order + s.cancelled.count order = 1 := by
  have waiting : s.backlog.waiting = [] := by
    by_contra some
    obtain ⟨w, mem⟩ := List.exists_mem_of_ne_nil _ some
    rcases h.progress mem with ⟨p, hp⟩ | hh
    · exact hp (ready p)
    · exact hh hands
  have live (order : Nat) : s.liveTally [] order = 0 := by
    simp [Run.liveTally, Backlog.readyTally, ready, Backlog.aside, waiting, Run.held, hands]
  refine ⟨?_, fun order less => ?_⟩
  · ext order
    rw [h.books.unfinished, live]
    simp
  · have accounted := h.books.accounted order
    rw [live, if_pos less] at accounted
    omega

end Run

namespace Crew

variable {α : Type} {s t : Crew α}

theorem Reachable.worked (h : s.Reachable) (run : Relation.ReflTransGen Works s t) : t.Reachable :=
  Transition.preserved (P := Reachable)
    (fun _ _ before works => Transition.Reachable.next before works.step) h run

section AtRest

variable [Nonempty α] (h : s.Reachable) (stuck : ∀ t, ¬ Works s t)

include h stuck

end AtRest

end Crew

end Dross
