import Dross.Thread.Passes
import Dross.Thread.TimerGuarantees

/-!
# Which call took which timer

A take is a call and the timer it took. For the takes, a step of a loop with timers is a
take by the call that holds the lock, or leaves them as they were; and then no slot is
new but that of a timer never taken before.
-/

namespace Dross

namespace Timers

variable {source : TimeSource} {s t : Timers}

/-- The timers taken, in order, each with the call that took it. -/
def takes (s : Timers) : List (Nat × Nat) := s.fires.map (fun fire => (fire.call, fire.timer))

def takenBy (s : Timers) (i : Nat) : List Nat :=
  (s.takes.filter (fun take => take.1 == i)).map Prod.snd

theorem mem_takenBy {i id : Nat} : id ∈ s.takenBy i ↔ (i, id) ∈ s.takes := by
  simp [takenBy]

/-- What a step does to the takes. -/
inductive Effect (source : TimeSource) (s t : Timers) : Prop
  | take {i : Nat} {call : Call} {which : Slot} {slots : List Slot}
      (at' : s.runloop.calls[i]? = some call) (held : s.runloop.holder = some i)
      (due : TimerSchedule.takeDue s.slots call.pass.boundary (source.now s.runloop.reads)
        call.pass.handled = some (which, slots))
      (left : t.runloop.loop = { s.runloop.loop with timers := slots })
      (running : (s.runloop.turn source.now call).2.2.control = .running)
      (runloop : t.runloop = s.runloop.turned source i call)
      (takes : t.takes = s.takes ++ [(i, which.id)]) : Effect source s t
  | other (runloop : t.runloop = s.runloop ∨ Runloop.Step source s.runloop t.runloop)
      (takes : t.takes = s.takes)
      (slots : ∀ slot ∈ t.slots, slot ∈ s.slots ∨
        slot.id ∉ s.installed ∧ slot.id ∉ s.takes.map Prod.snd)
      (idle : t.runloop.loop.pending = s.runloop.loop.pending → ∀ (i : Nat) (call : Call),
        t.runloop.calls[i]? = some call → call.control = .running →
        s.runloop.calls[i]? = some call) : Effect source s t

theorem takes_set {k i id : Nat} {before after : Stage} (at' : s.fires[k]? = some ⟨i, id, before⟩) :
    (s.fires.set k ⟨i, id, after⟩).map (fun fire => (fire.call, fire.timer)) = s.takes := by
  obtain ⟨bound, eq⟩ := List.getElem?_eq_some_iff.mp at'
  have within : k < (s.fires.map (fun fire => (fire.call, fire.timer))).length := by
    rwa [List.length_map]
  have same : (s.fires.map (fun fire => (fire.call, fire.timer)))[k] = (i, id) := by simp [eq]
  rw [List.map_set, ← same, List.set_getElem_self, takes]

theorem Sound.untaken (h : Sound source s) {id : Nat} {storage : TimerStorage} {first : TimePoint}
    (at' : s.storages id = some storage) (created : storage.making = .created first) :
    id ∉ s.takes.map Prod.snd := by
  have early : storage.making.wasInstalled = false := by rw [created]; rfl
  have none : (s.firesOf id).length = 0 := ((h.lives id storage at').unknown early).2
  intro mem
  obtain ⟨take, taken, same⟩ := List.mem_map.mp mem
  obtain ⟨fire, fired, rfl⟩ := List.mem_map.mp taken
  have positive := List.length_pos_of_mem (mem_firesOf.mpr ⟨fired, same⟩)
  omega

theorem Sound.effect (h : Sound source s) (step : Step source s t) : Effect source s t := by
  have still (takes : t.takes = s.takes) (runloop : t.runloop = s.runloop) : Effect source s t := by
    refine .other (Or.inl runloop) takes (fun slot mem => Or.inl ?_) (fun _ i call at' _ => ?_)
    · rwa [slots, runloop] at mem
    · rwa [runloop] at at'
  have moved (takes : t.takes = s.takes) (step : Runloop.Step source s.runloop t.runloop)
      (slots : ∀ slot ∈ t.slots, slot ∈ s.slots) (calls : t.runloop.calls = s.runloop.calls) :
      Effect source s t :=
    .other (Or.inr step) takes (fun slot mem => Or.inl (slots slot mem))
      (fun _ i call at' _ => by rwa [calls] at at')
  have back {i : Nat} {before after : Call} {call : Call} {j : Nat}
      (at' : (s.runloop.calls.set i after)[j]? = some call) (running : call.control = .running)
      (there : s.runloop.calls[i]? = some before) (rests : after.control ≠ .running) :
      s.runloop.calls[j]? = some call := by
    by_cases own : i = j
    · subst own
      rw [List.getElem?_set_self (List.getElem?_eq_some_iff.mp there).1] at at'
      obtain rfl := Option.some.inj at'
      exact absurd running rests
    · rwa [List.getElem?_set_ne own] at at'
  cases step with
  | make repeats interval => exact moved rfl .read (fun _ mem => mem) rfl
  | makeEmpty | makeElsewhere | refuse | returns | invalidate | mark => exact still rfl rfl
  | @install id storage first at' created free =>
    have out := h.uninstalled at' created
    have fresh : ∀ slot ∈ s.slots, slot.id ≠ id :=
      fun slot mem same => out (List.mem_map.mpr ⟨slot, mem, same⟩)
    refine .other (Or.inr (.installTimer _ free fresh)) rfl (fun slot mem => ?_)
      (fun _ i call at' _ => at')
    unfold slots at mem
    dsimp only [put] at mem
    rw [installTimer_timers] at mem
    split at mem
    · exact Or.inl mem
    · rcases List.mem_append.mp mem with mem | last
      · exact Or.inl mem
      · rw [List.mem_singleton.mp last]
        exact Or.inr ⟨out, h.untaken at' created⟩
  | @drop id calling free =>
    exact moved rfl (.removeTimer id free) (fun _ mem => List.mem_of_mem_eraseP mem) rfl
  | @take i call which slots at' held due left running =>
    exact .take at' held due left running rfl (List.map_append)
  | calls k at' => exact still (takes_set at') rfl
  | back k at' => exact still (takes_set at') rfl
  | repeated k at' => exact still (takes_set at') rfl
  | fired k at' => exact still (takes_set at') rfl
  | finish free => exact moved rfl (.finish free) (fun _ mem => absurd mem List.not_mem_nil) rfl
  | ran i call at' free running done =>
    refine .other (Or.inr (.ran i call at' free running)) rfl (fun _ mem => Or.inl mem) ?_
    intro _ j other there busy
    refine back there busy at' ?_
    unfold Runloop.ranOne
    cases call.kind with
    | run | runOne | runFor | runPending => nofun
  | throws i call at' free running done =>
    refine .other (Or.inr (.throws i call at' running free)) rfl (fun _ mem => Or.inl mem) ?_
    exact fun _ j other there busy => back there busy at' nofun
  | other step timers finished busy idle =>
    refine .other (Or.inr step) rfl (fun slot mem => Or.inl ?_) idle
    rwa [slots, timers] at mem

theorem Step.resting {runloop : Runloop} (step : Runloop.Step source s.runloop runloop)
    (timers : runloop.loop.timers = s.slots)
    (finished : runloop.loop.finished = s.runloop.loop.finished)
    (before : ∀ call ∈ s.runloop.calls, call.control ≠ .running)
    (after : ∀ call ∈ runloop.calls, call.control ≠ .running) :
    Step source s { s with runloop := runloop } :=
  .other step timers finished
    (fun _ call at' running => absurd running (before call (List.mem_of_getElem? at')))
    (fun _ _ call at' running => absurd running (after call (List.mem_of_getElem? at')))

/-- Whoever took a timer has its start behind it. -/
theorem Reachable.takers (h : s.Reachable source) : ∀ take ∈ s.takes,
    ∃ call, s.runloop.calls[take.1]? = some call ∧ call.started = true := by
  have known := Transition.Reachable.invariant (P := fun s => Sound source s ∧ ∀ take ∈ s.takes,
    ∃ call, s.runloop.calls[take.1]? = some call ∧ call.started = true) ?_ ?_ h
  · exact known.2
  · rintro s ⟨nextId, rfl⟩
    exact ⟨.start ⟨nextId, rfl⟩, fun take mem => absurd mem List.not_mem_nil⟩
  · rintro s t ⟨sound, known⟩ step
    refine ⟨sound.step step, ?_⟩
    have kept {i : Nat} {call : Call} (moved : t.runloop = s.runloop ∨
        Runloop.Step source s.runloop t.runloop) (at' : s.runloop.calls[i]? = some call)
        (started : call.started = true) :
        ∃ call, t.runloop.calls[i]? = some call ∧ call.started = true := by
      rcases moved with same | step
      · rw [same]
        exact ⟨call, at', started⟩
      · obtain ⟨call', at', keeps⟩ := step.keeps at'
        exact ⟨call', at', keeps.started started⟩
    cases sound.effect step with
    | @take i call which slots at' held due left running runloop takes =>
      have turn : Runloop.Step source s.runloop t.runloop := runloop ▸ .turn i call at' held
      rw [takes]
      intro take mem
      rcases List.mem_append.mp mem with old | new
      · obtain ⟨call, at', started⟩ := known take old
        exact kept (Or.inr turn) at' started
      · rw [List.mem_singleton.mp new]
        obtain ⟨holding, there, holds⟩ := sound.runloop.held held
        obtain rfl := Option.some.inj (at'.symm.trans there)
        exact kept (Or.inr turn) at' (Runloop.started_of_holds holds)
    | other runloop takes slots idle =>
      rw [takes]
      intro take mem
      obtain ⟨call, at', started⟩ := known take mem
      exact kept runloop at' started

end Timers

end Dross
