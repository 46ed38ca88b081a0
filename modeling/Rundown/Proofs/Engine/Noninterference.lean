import Rundown.Proofs.Engine.Ensemble

/-!
# Playlists do not interfere

Playlists that share an engine, and with it the bus, the clock and the queues of tasks, but no
actions and no names of signals, do not notice one another: whatever happens to a member of an
ensemble happens to it in a history that it could have alone, made of the events addressed to it
(`Ensemble.noninterference_spec`).  Its begins, settlements, states and outcome are those of that
history, at every moment.
-/

namespace Rundown

namespace Excerpt

open Engine Step

variable {x : Excerpt} {n : Numbers} {e e' : Engine}

/-- What is seen of the playlist of the excerpt in `e` is seen of the only playlist in `e'`: the
begins of its actions with their inputs, in order, their settlements, the stages of its groups, its
state and its outcome, and how its handles answer. -/
structure Matches (x : Excerpt) (e e' : Engine) : Prop where
  begun : e'.world.begun = e.world.begun.filterMap x.begin?
  settlement? : ∀ a a', x.action? a = some a' → e'.world.settlement? a' = e.world.settlement? a
  tree : ∃ p p', e.playlists[x.playlist]? = some p ∧ e'.playlists = [p'] ∧
    p'.handles = p.handles ∧ Twin x.Counterpart p.root p'.root
  state : e'.playlists[0]?.map Playlist.state = e.playlists[x.playlist]?.map Playlist.state
  outcome? : e'.outcome? 0 = e.outcome? x.playlist
  pollCompletion : (e'.pollCompletion 0).2 = (e.pollCompletion x.playlist).2
  play : ∀ input inRuntime, (e'.play 0 input inRuntime).2 = (e.play x.playlist input inRuntime).2
  clock : e'.world.clock = e.world.clock
  quiescent : e.Quiescent → e'.Quiescent

theorem Mirrors.matches (h : x.Mirrors n e e') (hx : x.Discreet) (hidle : e.world.running = none) :
    x.Matches e e' where
  begun := h.world.begun
  settlement? _ _ ha := h.world.settlement?_own ha
  tree := h.own
  state := by
    have hstate := congrArg (Option.map Stage.state) h.stage
    rwa [Option.map_map, Option.map_map] at hstate
  outcome? := by
    have houtcome := congrArg (Option.bind · Stage.outcome?) h.stage
    rwa [Option.bind_map, Option.bind_map] at houtcome
  pollCompletion := by
    obtain ⟨n', -, -, hanswer⟩ := h.pollCompletion_own hx hidle
    exact hanswer
  play input inRuntime := (h.play_own hidle input inRuntime).2
  clock := h.world.clock
  quiescent hquiet := by
    refine ⟨?_, ?_⟩
    · rw [h.world.ready, hquiet.1]
      rfl
    · rw [h.world.arrivals, hquiet.2]
      rfl

/-- Every history has a part that does to the playlist alone what it does beside others, event by
event. -/
theorem Mirrors.after {lead : ActionId → Prop} (h : x.Mirrors n e e') (hx : x.Discreet)
    (hsound : Sound lead e) {history : List Event} (hordinary : ∀ event ∈ history, event.Ordinary) :
    ∃ parts, List.Forall₂ x.Part history parts ∧
      (∀ k, ∃ n', x.Mirrors n' (e.after (history.take k)) (e'.after (parts.take k).flatten)) ∧
      (e.InTurn history → e'.InTurn parts.flatten) := by
  induction history generalizing n e e' with
  | nil =>
    refine ⟨[], .nil, fun k => ⟨n, ?_⟩, fun _ => trivial⟩
    rw [List.take_nil, List.take_nil]
    exact h
  | cons event rest ih =>
    obtain ⟨part, n₁, -, hpart, hmirrors, hturn⟩ :=
      h.apply hx hsound.idle (hordinary event List.mem_cons_self)
    obtain ⟨parts, hparts, hrest, hturns⟩ := ih hmirrors (hsound.apply event).1
      fun event he => hordinary event (List.mem_cons_of_mem _ he)
    refine ⟨part :: parts, .cons hpart hparts, fun k => ?_, fun hin => ?_⟩
    · cases k with
      | zero => exact ⟨n, h⟩
      | succ k =>
        rw [List.take_succ_cons, List.take_succ_cons, List.flatten_cons, after_append]
        exact hrest k
    · rw [List.flatten_cons, inTurn_append]
      exact ⟨hturn hin.1, hturns hin.2⟩

end Excerpt

namespace Ensemble

open Engine

variable {E : Ensemble} {m : Member} {id : PlaylistId} {history : List Event}

theorem sound (E : Ensemble) : Sound (fun _ => False) E.engine :=
  ((((Sound.ofCapacity E.capacity).after _).1).after _).1

/-- A member that shares no actions and no names of signals with the others goes through a history
of its own: the events that are addressed to it, and its tasks, in turn if all tasks run in turn.
At every moment what is seen of it is what would be seen of it alone. -/
theorem noninterference_spec (E : Ensemble) (hcompiles : E.Compiles)
    (hm : E.members[id]? = some m) (hapart : E.Apart id)
    (hordinary : ∀ event ∈ history, event.Ordinary) :
    ∃ parts, List.Forall₂ (E.excerpt id).Part history parts ∧
      (∀ k, (E.excerpt id).Matches (E.engine.after (history.take k))
        ((E.only m).engine.after (parts.take k).flatten)) ∧
      (E.engine.InTurn history → (E.only m).engine.InTurn parts.flatten) := by
  obtain ⟨parts, hparts, hmirrors, hturns⟩ :=
    (mirrors hcompiles hapart hm).after (E.discreet id) E.sound hordinary
  refine ⟨parts, hparts, fun k => ?_, hturns⟩
  obtain ⟨n', h⟩ := hmirrors k
  exact h.matches (E.discreet id) (E.sound.after _).1.idle

/-- Actions to be built under the name `rest`. -/
def resting : Compiler := ⟨Registry.empty.register "rest" fun _ => .ok .inert, .default⟩

/-- Waits for somebody at the door, and rests. -/
def door : Member := (resting, .sequence [.instance 0, .action ⟨"rest", .null⟩])

/-- Rings a bell and hears it, and rests. -/
def bell : Member := (resting,
  .sequence [.parallel [("hear", .instance 2), ("ring", .instance 1)], .action ⟨"rest", .null⟩])

def doorAndBell : Ensemble where
  capacity := 4
  stock := [.awaitSignal "door", .emitSignal ⟨"bell", .complete .null⟩, .awaitSignal "bell"]
  members := [door, bell]

theorem leaves_doorAndBell (id : PlaylistId) : doorAndBell.leaves id =
    match id with
    | 0 => [0, 3]
    | 1 => [2, 1, 4]
    | _ => [] := by
  match id with
  | 0 | 1 => decide +kernel
  | _ + 2 => rfl

theorem actions_doorAndBell : doorAndBell.engine.world.actions =
    [.awaitSignal "door", .emitSignal ⟨"bell", .complete .null⟩, .awaitSignal "bell",
      .inert, .inert] := rfl

theorem speaks_doorAndBell {id : PlaylistId} {name : String} (h : doorAndBell.Speaks id name) :
    (id = 0 ∧ name = "door") ∨ (id = 1 ∧ name = "bell") := by
  obtain ⟨a, ha, action, hi, hs⟩ := h
  rw [actions_doorAndBell] at hi
  rw [leaves_doorAndBell] at ha
  match id with
  | 0 =>
    simp only [List.mem_cons, List.not_mem_nil, or_false] at ha
    rcases ha with rfl | rfl <;> cases hi <;> simp_all
  | 1 =>
    simp only [List.mem_cons, List.not_mem_nil, or_false] at ha
    rcases ha with rfl | rfl | rfl <;> cases hi <;> simp_all
  | _ + 2 => cases ha

theorem compiles_doorAndBell : doorAndBell.Compiles where
  knows := by decide +kernel
  compiles := by
    intro m hm
    simp only [doorAndBell, List.mem_cons, List.not_mem_nil, or_false] at hm
    rcases hm with rfl | rfl <;> exact ⟨_, rfl⟩

theorem apart_doorAndBell : doorAndBell.Apart 1 where
  leaves other hother a ha := by
    rw [leaves_doorAndBell] at ha ⊢
    match other with
    | 0 => revert a; decide
    | 1 => exact absurd rfl hother
    | _ + 2 => exact List.not_mem_nil
  names other hother name hs hs' := by
    rcases speaks_doorAndBell hs with ⟨h, -⟩ | ⟨-, rfl⟩
    · cases h
    rcases speaks_doorAndBell hs' with ⟨-, h⟩ | ⟨rfl, -⟩
    · revert h
      decide
    · exact hother rfl

/-- Somebody comes to the door after the bell has been heard, and all tasks run in turn. -/
def visit : List Event :=
  [.play 0 .null true, .play 1 .null true, .run .arrivals 0, .run .ready 0, .run .arrivals 0,
    .run .ready 0, .run .ready 0, .run .ready 0, .run .ready 0, .run .ready 0,
    .emit ⟨"door", .complete (.bool true)⟩, .settle 4 (.ok (.bool false)), .run .arrivals 0,
    .run .ready 0, .run .arrivals 0]

theorem noninterference_spec_doorAndBell :
    doorAndBell.Compiles ∧ doorAndBell.Apart 1 ∧ (∀ event ∈ visit, event.Ordinary) ∧
      doorAndBell.engine.InTurn visit ∧
      (doorAndBell.engine.after visit).outcome? 1 = some (.ok (.bool false)) ∧
      ∃ parts, List.Forall₂ (doorAndBell.excerpt 1).Part visit parts ∧
        (∀ k, (doorAndBell.excerpt 1).Matches (doorAndBell.engine.after (visit.take k))
          ((doorAndBell.only bell).engine.after (parts.take k).flatten)) ∧
        (doorAndBell.engine.InTurn visit → (doorAndBell.only bell).engine.InTurn parts.flatten) :=
  have hordinary : ∀ event ∈ visit, event.Ordinary := by decide
  ⟨compiles_doorAndBell, apart_doorAndBell, hordinary, by decide +kernel, by decide +kernel,
    noninterference_spec doorAndBell compiles_doorAndBell rfl apart_doorAndBell hordinary⟩

end Ensemble

end Rundown
