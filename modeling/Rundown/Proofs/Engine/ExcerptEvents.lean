import Rundown.Proofs.Engine.Excerpt

/-!
# Events that concern a playlist

An event beside other playlists is an event of the playlist alone, or none: `Excerpt.Part`.  Every
event that does not compile or build anything and leaves the bus to the actions has such a part,
after which the engine with one playlist mirrors the other again (`Excerpt.Mirrors.apply`).  If tasks
are run in turn beside others, they are run in turn alone (`Engine.InTurn`).
-/

namespace Rundown

/-- The event does not add anything to the engine, and only actions and senders use the bus. -/
def Event.Ordinary : Event → Prop
  | .build _ | .compile _ _ | .useBus _ | .releaseBus => False
  | _ => True

instance (event : Event) : Decidable event.Ordinary :=
  match event with
  | .build _ | .compile _ _ | .useBus _ | .releaseBus => isFalse id
  | .play .. | .cloneHandle _ | .dropHandle _ | .pollCompletion _ | .settle .. | .endAction _ |
    .emit _ | .moveClock _ | .run .. => isTrue trivial

namespace Engine

/-- A task that the event runs is the one whose turn it is: the ready tasks run in order, and the
arrivals in order when none is ready. -/
def TakesTurn (e : Engine) : Event → Prop
  | .run .ready index => index = 0
  | .run .arrivals index => index = 0 ∧ e.world.ready = []
  | _ => True

/-- Every task that the history runs runs when it is its turn. -/
def InTurn (e : Engine) : List Event → Prop
  | [] => True
  | event :: rest => e.TakesTurn event ∧ (e.apply event).InTurn rest

instance (e : Engine) (event : Event) : Decidable (e.TakesTurn event) :=
  match event with
  | .run .ready index => inferInstanceAs (Decidable (index = 0))
  | .run .arrivals index => inferInstanceAs (Decidable (index = 0 ∧ e.world.ready = []))
  | .build _ | .compile .. | .useBus _ | .releaseBus | .play .. | .cloneHandle _ | .dropHandle _ |
    .pollCompletion _ | .settle .. | .endAction _ | .emit _ | .moveClock _ => isTrue trivial

instance InTurn.decidable : (e : Engine) → (history : List Event) → Decidable (e.InTurn history)
  | _, [] => isTrue trivial
  | e, event :: rest =>
    @instDecidableAnd _ _ inferInstance (InTurn.decidable (e.apply event) rest)

variable {e : Engine}

theorem inTurn_append {history history' : List Event} : e.InTurn (history ++ history') ↔
    e.InTurn history ∧ (e.after history).InTurn history' := by
  induction history generalizing e with
  | nil => exact (and_iff_right trivial).symm
  | cons event rest ih =>
    rw [List.cons_append, InTurn, InTurn, ih, and_assoc]
    rfl

end Engine

namespace Playlist

open Step

variable {r : ActionId → ActionId → Prop} {p p' : Playlist}

theorem leaves_withStage (p : Playlist) (stage : Stage) :
    (p.withStage stage).root.leaves = p.root.leaves := by
  obtain ⟨descriptor, root, handles⟩ := p
  cases root <;> rfl

theorem stage_of_twin (h : Twin r p.root p'.root) : p'.stage = p.stage := by
  obtain ⟨descriptor, root, handles⟩ := p
  obtain ⟨descriptor', root', handles'⟩ := p'
  cases root with
  | leaf slot a =>
    obtain ⟨a', rfl, -⟩ := Twin.of_leaf h
    rfl
  | group slot g steps =>
    obtain ⟨steps', rfl, -⟩ := Twin.of_group h
    rfl

theorem twin_withStage (h : Twin r p.root p'.root) (stage : Stage) :
    Twin r (p.withStage stage).root (p'.withStage stage).root := by
  obtain ⟨descriptor, root, handles⟩ := p
  obtain ⟨descriptor', root', handles'⟩ := p'
  cases root with
  | leaf slot a =>
    obtain ⟨a', rfl, ha⟩ := Twin.of_leaf h
    exact ⟨rfl, ha⟩
  | group slot g steps =>
    obtain ⟨steps', rfl, hsteps⟩ := Twin.of_group h
    exact twin_group.2 ⟨rfl, rfl, hsteps⟩

theorem handles_withStage (p : Playlist) (stage : Stage) :
    (p.withStage stage).handles = p.handles := by
  obtain ⟨descriptor, root, handles⟩ := p
  cases root <;> rfl

end Playlist

namespace Excerpt

open Engine Step

/-- What of an event concerns the playlist of the excerpt, as a history of the playlist alone: uses
of its handles, settlements of its actions, signals of its names, the clock, and its tasks. -/
def Part (x : Excerpt) : Event → List Event → Prop
  | .play id input inRuntime, part =>
    part = if id = x.playlist then [.play 0 input inRuntime] else []
  | .cloneHandle id, part => part = if id = x.playlist then [.cloneHandle 0] else []
  | .dropHandle id, part => part = if id = x.playlist then [.dropHandle 0] else []
  | .pollCompletion id, part => part = if id = x.playlist then [.pollCompletion 0] else []
  | .settle a s, part => part = ((x.action? a).map fun a => .settle a s).toList
  | .endAction a, part => part = ((x.action? a).map .endAction).toList
  | .emit s, part => x.names s.name ∧ part = [.emit s] ∨ ¬x.names s.name ∧ part = []
  | .moveClock now, part => part = [.moveClock now]
  | .run queue index, part => part = [] ∨ ∃ index' ≤ index, part = [.run queue index']
  | .build _, _ | .compile _ _, _ | .useBus _, _ | .releaseBus, _ => False

variable {x : Excerpt} {n : Numbers} {e e' : Engine} {id : PlaylistId} {a a' : ActionId}

namespace Mirrors

theorem stage (h : x.Mirrors n e e') :
    e'.playlists[0]?.map Playlist.stage = e.playlists[x.playlist]?.map Playlist.stage := by
  obtain ⟨p, p', hp, hp', -, htwin⟩ := h.own
  rw [hp, hp', List.getElem?_cons_zero, Option.map_some, Option.map_some,
    Playlist.stage_of_twin htwin]

theorem task?_root (x : Excerpt) (n : Numbers) :
    x.task? n (rootSite x.playlist).task = some (rootSite 0).task := if_pos rfl

theorem task?_of_ne (hid : id ≠ x.playlist) : x.task? n (rootSite id).task = none := if_neg hid

theorem free (hidle : e.world.running = none) : x.Free n e.world := fun t ht => by
  cases hidle.symm.trans ht

/-! ### Handles -/

theorem play_own (h : x.Mirrors n e e') (hidle : e.world.running = none) (input : Json)
    (inRuntime : Bool) :
    x.Mirrors n (e.play x.playlist input inRuntime).1 (e'.play 0 input inRuntime).1 ∧
      (e'.play 0 input inRuntime).2 = (e.play x.playlist input inRuntime).2 := by
  unfold Engine.play
  rw [h.stage]
  split
  · exact ⟨h, rfl⟩
  · split
    · refine ⟨h.modify_own (h.world.schedule_own (free hidle) (task?_root x n)) ?_, rfl⟩
      intro p p' _ _ hhandles htwin
      exact ⟨by rw [Playlist.handles_withStage, Playlist.handles_withStage, hhandles],
        Playlist.twin_withStage htwin _⟩
    · exact ⟨h, rfl⟩

theorem play_foreign (h : x.Mirrors n e e') (hid : id ≠ x.playlist) (input : Json)
    (inRuntime : Bool) : x.Mirrors n (e.play id input inRuntime).1 e' := by
  unfold Engine.play
  split
  · exact h
  · split
    · exact h.modify_foreign (h.world.schedule_foreign (task?_of_ne hid) trivial) hid
        fun p => p.leaves_withStage _
    · exact h

theorem cloneHandle_own (h : x.Mirrors n e e') :
    x.Mirrors n (e.cloneHandle x.playlist) (e'.cloneHandle 0) :=
  h.modify_own h.world fun _ _ _ _ hhandles htwin => ⟨congrArg (· + 1) hhandles, htwin⟩

theorem dropHandle_own (h : x.Mirrors n e e') :
    x.Mirrors n (e.dropHandle x.playlist) (e'.dropHandle 0) := by
  refine h.modify_own h.world fun p p' _ _ hhandles htwin => ?_
  have hstage : ({ p' with handles := p.handles - 1 } : Playlist).stage =
      ({ p with handles := p.handles - 1 } : Playlist).stage :=
    Playlist.stage_of_twin (by exact htwin)
  dsimp only
  rw [hhandles, hstage]
  split
  · split
    · refine ⟨?_, Playlist.twin_withStage ?_ _⟩
      · rw [Playlist.handles_withStage, Playlist.handles_withStage]
      · exact htwin
    · exact ⟨rfl, htwin⟩
  · exact ⟨rfl, htwin⟩

theorem dropHandle_foreign (h : x.Mirrors n e e') (hid : id ≠ x.playlist) :
    x.Mirrors n (e.dropHandle id) e' := by
  refine h.modify_foreign h.world hid fun p => ?_
  dsimp only
  split
  · split
    · exact Playlist.leaves_withStage _ _
    · rfl
  · rfl

theorem pollCompletion_own (h : x.Mirrors n e e') (hx : x.Discreet)
    (hidle : e.world.running = none) : ∃ n', n.Extends n' ∧
      x.Mirrors n' (e.pollCompletion x.playlist).1 (e'.pollCompletion 0).1 ∧
      (e'.pollCompletion 0).2 = (e.pollCompletion x.playlist).2 := by
  have hcurrent : ∀ t, (none : Option Task) = some t → (x.task? n t).isSome = true := by
    rintro t heq
    cases heq
  obtain ⟨p, p', hp, hp', -, htwin⟩ := h.own
  obtain ⟨hroot, ⟨n', hext, hshows, -⟩, houtcome, -⟩ := (x.comparison n none hx hcurrent).poll
    (sites x n hx hcurrent) none htwin ⟨n, .refl n, h.world, hidle⟩
  simp only [pollCompletion, hp, (hp' ▸ rfl : e'.playlists[0]? = some p')]
  exact ⟨n', hext, h.modify_own hshows fun _ _ _ _ hhandles _ => ⟨hhandles, hroot⟩, houtcome⟩

theorem pollCompletion_foreign (h : x.Mirrors n e e') (hid : id ≠ x.playlist) :
    x.Mirrors n (e.pollCompletion id).1 e' :=
  (h.of_keeps e.world.running
    (Upkeep.pollCompletion (h.sorted _ _) ⟨h.world, rfl⟩ hid)).1

/-! ### Settlements -/

theorem settle_own (h : x.Mirrors n e e') (hx : x.Discreet) (hidle : e.world.running = none)
    (ha : x.action? a = some a') (s : Settlement) : ∃ n', n.Extends n' ∧
      x.Mirrors n' (e.settleAction a s).1 (e'.settleAction a' s).1 := by
  obtain ⟨hsettled, hanswer⟩ := h.world.settle_own ha s
  have hanswers : (if (e.world.settle a s).2 then some a else none) = none ∧
      (if (e'.world.settle a' s).2 then some a' else none) = none ∨
      ∃ b b', x.action? b = some b' ∧
        (if (e.world.settle a s).2 then some a else none) = some b ∧
        (if (e'.world.settle a' s).2 then some a' else none) = some b' := by
    rw [hanswer]
    split
    · exact .inr ⟨a, a', ha, rfl, rfl⟩
    · exact .inl ⟨rfl, rfl⟩
  have hrunning : (e.world.settle a s).1.running = none :=
    (World.settle_settles e.world a s).keeps.running.trans hidle
  obtain ⟨n', hext, hmirrors, -⟩ := h.withSettled_own hx (fun t heq => by cases heq) hsettled
    hrunning hanswers
  exact ⟨n', hext, hmirrors⟩

theorem settle_foreign (h : x.Mirrors n e e') (ha : x.action? a = none) (s : Settlement) :
    x.Mirrors n (e.settleAction a s).1 e' := by
  refine (h.of_keeps (e.world.settle a s).1.running
    (Upkeep.withSettled (h.sorted _ _) ⟨h.world.settle_foreign ha s, rfl⟩ ?_)).1
  intro b hb id p hp hmem
  split at hb
  · cases hb
    exact h.ne_of_mem ha hp hmem
  · cases hb

/-! ### Tasks -/

/-- If it is a task's turn beside others, it is its turn alone. -/
theorem takesTurn (h : x.Mirrors n e e') {queue : Queue} {index index' : Nat} (hle : index' ≤ index)
    (hturn : e.TakesTurn (.run queue index)) : e'.TakesTurn (.run queue index') := by
  cases queue with
  | ready => exact Nat.le_zero.1 (hle.trans (Nat.le_of_eq hturn))
  | arrivals =>
    refine ⟨Nat.le_zero.1 (hle.trans (Nat.le_of_eq hturn.1)), ?_⟩
    rw [h.world.ready, hturn.2]
    rfl

/-- A task stands in both queues, or does not belong to the excerpt. -/
theorem run (h : x.Mirrors n e e') (hx : x.Discreet) (hidle : e.world.running = none)
    (queue : Queue) (index : Nat) : ∃ part n', n.Extends n' ∧ x.Part (.run queue index) part ∧
      x.Mirrors n' (e.apply (.run queue index)) (e'.after part) ∧
      (e.TakesTurn (.run queue index) → e'.InTurn part) := by
  rcases e.apply_run queue index with heq | ⟨t, ht, heq⟩ <;> rw [heq]
  · exact ⟨[], n, .refl n, .inl rfl, h, fun _ => trivial⟩
  · cases hown : x.task? n t with
    | none =>
      have htaken : x.Mirrors n { e with world := e.world.dequeue queue index } e' :=
        ⟨h.world.dequeue_foreign ht hown, h.own, h.foreign⟩
      exact ⟨[], n, .refl n, .inl rfl, htaken.runTask_foreign hidle hown
        (h.world.below_queue (List.mem_of_getElem? ht)), fun _ => trivial⟩
    | some t' =>
      obtain ⟨index', hle, ht', hshows⟩ := h.world.dequeue_own ht hown
      have htaken : x.Mirrors n { e with world := e.world.dequeue queue index }
          { e' with world := e'.world.dequeue queue index' } :=
        ⟨hshows, h.own, h.foreign⟩
      obtain ⟨n', hext, hmirrors⟩ := htaken.runTask_own hx hown
      refine ⟨[.run queue index'], n', hext, .inr ⟨index', hle, rfl⟩, ?_,
        fun hturn => ⟨h.takesTurn hle hturn, trivial⟩⟩
      simp only [after_cons, Engine.apply, ht']
      exact hmirrors

/-! ### Events -/

/-- Every ordinary event has a part that does to the playlist alone what it does beside others. -/
theorem apply (h : x.Mirrors n e e') (hx : x.Discreet) (hidle : e.world.running = none)
    {event : Event} (hevent : event.Ordinary) : ∃ part n', n.Extends n' ∧ x.Part event part ∧
      x.Mirrors n' (e.apply event) (e'.after part) ∧ (e.TakesTurn event → e'.InTurn part) := by
  cases event with
  | build | compile | useBus | releaseBus => exact hevent.elim
  | play id input inRuntime =>
    refine ⟨_, n, .refl n, rfl, ?_, fun _ => by split <;> trivial⟩
    split
    next hid =>
      subst hid
      exact (h.play_own hidle input inRuntime).1
    next hid => exact h.play_foreign hid input inRuntime
  | cloneHandle id =>
    refine ⟨_, n, .refl n, rfl, ?_, fun _ => by split <;> trivial⟩
    split
    next hid =>
      subst hid
      exact h.cloneHandle_own
    next hid => exact h.modify_foreign h.world hid fun _ => rfl
  | dropHandle id =>
    refine ⟨_, n, .refl n, rfl, ?_, fun _ => by split <;> trivial⟩
    split
    next hid =>
      subst hid
      exact h.dropHandle_own
    next hid => exact h.dropHandle_foreign hid
  | pollCompletion id =>
    by_cases hid : id = x.playlist
    · subst hid
      obtain ⟨n', hext, hmirrors, -⟩ := h.pollCompletion_own hx hidle
      exact ⟨_, n', hext, (if_pos rfl).symm, hmirrors, fun _ => ⟨trivial, trivial⟩⟩
    · exact ⟨_, n, .refl n, (if_neg hid).symm, h.pollCompletion_foreign hid, fun _ => trivial⟩
  | settle a s =>
    cases ha : x.action? a with
    | none =>
      exact ⟨[], n, .refl n, by rw [Part, ha]; rfl, h.settle_foreign ha s, fun _ => trivial⟩
    | some a' =>
      obtain ⟨n', hext, hmirrors⟩ := h.settle_own hx hidle ha s
      exact ⟨[.settle a' s], n', hext, by rw [Part, ha]; rfl, hmirrors, fun _ => ⟨trivial, trivial⟩⟩
  | endAction a =>
    cases ha : x.action? a with
    | none =>
      exact ⟨[], n, .refl n, by rw [Part, ha]; rfl,
        ⟨h.world.endAction_foreign ha, h.own, h.foreign⟩, fun _ => trivial⟩
    | some a' =>
      exact ⟨[.endAction a'], n, .refl n, by rw [Part, ha]; rfl,
        ⟨h.world.endAction_own (free hidle) ha, h.own, h.foreign⟩, fun _ => ⟨trivial, trivial⟩⟩
  | emit s =>
    by_cases hs : x.names s.name
    · exact ⟨[.emit s], n, .refl n, .inl ⟨hs, rfl⟩, ⟨h.world.emit (free hidle) s, h.own, h.foreign⟩,
        fun _ => ⟨trivial, trivial⟩⟩
    · exact ⟨[], n, .refl n, .inr ⟨hs, rfl⟩, ⟨h.world.emit_foreign hs, h.own, h.foreign⟩,
        fun _ => trivial⟩
  | moveClock now =>
    exact ⟨[.moveClock now], n, .refl n, rfl, ⟨h.world.moveClock now, h.own, h.foreign⟩,
      fun _ => ⟨trivial, trivial⟩⟩
  | run queue index => exact h.run hx hidle queue index

end Mirrors

end Excerpt

end Rundown
