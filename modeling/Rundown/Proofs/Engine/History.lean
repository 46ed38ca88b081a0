import Rundown.Proofs.Plan
import Rundown.Proofs.World.Frame

/-!
# Histories of an engine

An event is anything that can happen to an engine: somebody builds an action, compiles a descriptor,
plays a playlist or settles a completion, the clock moves, or one task runs.  Tasks may run in any
order; `Engine.settle` and `Engine.advance` are particular histories (`Engine.settle_eq_after`,
`Engine.advance_eq_after`).
-/

namespace Rundown

/-- Something that happens to an engine. -/
inductive Event where
  | build (action : Action)
  | compile (compiler : Compiler) (descriptor : Descriptor)
  | play (id : PlaylistId) (input : Json) (inRuntime : Bool)
  | cloneHandle (id : PlaylistId)
  | dropHandle (id : PlaylistId)
  | pollCompletion (id : PlaylistId)
  | settle (a : ActionId) (s : Settlement)
  | endAction (a : ActionId)
  | emit (s : Signal)
  /-- Somebody who is not an action subscribes to the bus, reads from it or leaves it. -/
  | useBus (change : Bus → Bus)
  | releaseBus
  | moveClock (now : Nat)
  /-- The task at this position of a queue runs. -/
  | run (queue : Queue) (index : Nat)

namespace Engine

/-- All actions that the descriptor holds exist. -/
def Knows (e : Engine) (d : Descriptor) : Prop :=
  ∀ a ∈ d.instances, a < e.world.instances.length

instance (e : Engine) (d : Descriptor) : Decidable (e.Knows d) :=
  inferInstanceAs (Decidable (∀ a ∈ d.instances, a < e.world.instances.length))

/-- What the event makes of the engine. -/
def apply (e : Engine) : Event → Engine
  | .build action => { e with world := (e.world.addAction action).1 }
  | .compile c d =>
    match (c.compile d e).result with
    | .ok (compiled, _) => if e.Knows d then compiled else e
    | .error _ => e
  | .play id input inRuntime => (e.play id input inRuntime).1
  | .cloneHandle id => e.cloneHandle id
  | .dropHandle id => e.dropHandle id
  | .pollCompletion id => (e.pollCompletion id).1
  | .settle a s => (e.settleAction a s).1
  | .endAction a => { e with world := e.world.endAction a }
  | .emit s => (e.emit s).1
  | .useBus change => { e with world := { e.world with bus := change e.world.bus } }
  | .releaseBus => { e with world := e.world.releaseBus }
  | .moveClock now => { e with world := e.world.moveClock now }
  | .run queue index =>
    match (e.world.queue queue)[index]? with
    | some t => { e with world := e.world.dequeue queue index }.runTask t
    | none => e

/-- What a history makes of the engine. -/
def after (e : Engine) (history : List Event) : Engine := history.foldl apply e

/-- No task waits to be run. -/
def Quiescent (e : Engine) : Prop := e.world.ready = [] ∧ e.world.arrivals = []

instance (e : Engine) : Decidable e.Quiescent :=
  inferInstanceAs (Decidable (e.world.ready = [] ∧ e.world.arrivals = []))

@[simp] theorem after_cons (e : Engine) (event : Event) (history : List Event) :
    e.after (event :: history) = (e.apply event).after history := rfl

theorem after_append (e : Engine) (history history' : List Event) :
    e.after (history ++ history') = (e.after history).after history' :=
  List.foldl_append

/-! ## The order in which the engine itself runs tasks -/

theorem next?_eq_apply {e e' : Engine} (h : e.next? = some e') : ∃ event, e' = e.apply event := by
  unfold next? at h
  cases hr : e.world.ready with
  | cons t rest =>
    rw [hr] at h
    cases h
    exact ⟨.run .ready 0, by simp [apply, World.queue, World.dequeue, hr]⟩
  | nil =>
    cases ha : e.world.arrivals with
    | cons t rest =>
      rw [hr, ha] at h
      cases h
      exact ⟨.run .arrivals 0, by simp [apply, World.queue, World.dequeue, hr, ha]⟩
    | nil =>
      rw [hr, ha] at h
      cases h

theorem run_eq_after (rounds : Nat) (e : Engine) : ∃ history, run rounds e = e.after history := by
  induction rounds generalizing e with
  | zero => exact ⟨[], rfl⟩
  | succ rounds ih =>
    unfold run
    cases hn : e.next? with
    | none => exact ⟨[], rfl⟩
    | some e' =>
      obtain ⟨event, rfl⟩ := next?_eq_apply hn
      obtain ⟨history, hh⟩ := ih (e.apply event)
      exact ⟨event :: history, hh⟩

/-- Running tasks until none is ready is a history. -/
theorem settle_eq_after (e : Engine) : ∃ history, e.settle = e.after history := run_eq_after _ e

theorem advanceTo_eq_after (target stops : Nat) (e : Engine) :
    ∃ history, advanceTo target stops e = e.after history := by
  induction stops generalizing e with
  | zero => exact ⟨[], rfl⟩
  | succ stops ih =>
    unfold advanceTo
    cases hn : e.world.nextDeadline? target with
    | none => exact ⟨[], rfl⟩
    | some now =>
      obtain ⟨history, hh⟩ := settle_eq_after (e.apply (.moveClock now))
      obtain ⟨history', hh'⟩ := ih ((e.apply (.moveClock now)).settle)
      refine ⟨.moveClock now :: (history ++ history'), ?_⟩
      rw [after_cons, after_append, ← hh, ← hh']
      rfl

/-- Moving the clock with all stops on the way is a history. -/
theorem advance_eq_after (e : Engine) (ms : Nat) : ∃ history, e.advance ms = e.after history := by
  obtain ⟨history, hh⟩ := settle_eq_after e
  obtain ⟨stops, hs⟩ := advanceTo_eq_after (e.world.clock + ms) (ms + 1) e.settle
  obtain ⟨rest, hr⟩ := settle_eq_after
    ((advanceTo (e.world.clock + ms) (ms + 1) e.settle).apply (.moveClock (e.world.clock + ms)))
  refine ⟨history ++ stops ++ .moveClock (e.world.clock + ms) :: rest, ?_⟩
  rw [after_append, after_append, ← hh, ← hs, after_cons, ← hr]
  rfl

end Engine

end Rundown
