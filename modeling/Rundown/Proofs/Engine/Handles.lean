import Rundown.Proofs.Engine.LifeCycle

/-!
# The handles of a playlist

The handles of a playlist are counted, but only a drop before the first play looks at the number:
if it was the last handle, the playlist can never be played.  Every other event does the same
whatever the number is (`Engine.apply_withHandles`), and after the play nothing depends on handles
any more (`Engine.Sound.after_withHandles`).
-/

namespace Rundown

/-- Whether the event changes the number of the playlist's handles. -/
def Event.counts (id : PlaylistId) : Event → Bool
  | .cloneHandle id' | .dropHandle id' => id' == id
  | _ => false

namespace Event

/-- Whether the event is about the playlist's handles: one is cloned, dropped or played. -/
def handles (id : PlaylistId) : Event → Bool
  | .play id' _ _ => id' == id
  | event => event.counts id

/-- How many handles of the playlist were cloned. -/
def clones (id : PlaylistId) (history : List Event) : Nat :=
  history.countP fun
    | .cloneHandle id' => id' == id
    | _ => false

/-- How many handles of the playlist were dropped. -/
def drops (id : PlaylistId) (history : List Event) : Nat :=
  history.countP fun
    | .dropHandle id' => id' == id
    | _ => false

theorem drops_clones_of_counts {id : PlaylistId} {event : Event} (h : event.counts id = false) :
    drops id [event] = 0 ∧ clones id [event] = 0 := by
  cases event with
  | cloneHandle id' | dropHandle id' =>
    have h : (id' == id) = false := h
    simp [drops, clones, h]
  | _ => exact ⟨rfl, rfl⟩

theorem counts_of_handles {id : PlaylistId} {event : Event} (h : event.handles id = false) :
    event.counts id = false := by
  cases event <;> first | rfl | exact h

end Event

namespace Engine

variable {lead : ActionId → Prop} {e : Engine} {id : PlaylistId} {n : Nat} {p : Playlist}
  {stage : Stage}

/-- The engine with another number of handles of a playlist. -/
def withHandles (e : Engine) (id : PlaylistId) (n : Nat) : Engine :=
  e.modifyPlaylist id fun p => { p with handles := n }

theorem modify_comm {α : Type} (l : List α) (i j : Nat) {f g : α → α} (h : ∀ a, f (g a) = g (f a)) :
    (l.modify i f).modify j g = (l.modify j g).modify i f := by
  refine List.ext_getElem? fun k => ?_
  simp only [List.getElem?_modify]
  cases l[k]? with
  | none => rfl
  | some a => by_cases hi : i = k <;> by_cases hj : j = k <;> simp [hi, hj, h]

@[simp] theorem withHandles_world (e : Engine) (id : PlaylistId) (n : Nat) :
    (e.withHandles id n).world = e.world := rfl

/-- A change of the playlists that does not look at the number of handles. -/
theorem modify_withHandles (w : World) (j : PlaylistId) {g : Playlist → Playlist}
    (h : ∀ p : Playlist, g { p with handles := n } = { g p with handles := n }) :
    (⟨w, (e.withHandles id n).playlists.modify j g⟩ : Engine) =
      withHandles ⟨w, e.playlists.modify j g⟩ id n :=
  congrArg _ (modify_comm e.playlists id j fun p => (h p).symm)

/-- A change of another playlist. -/
theorem modify_ne_withHandles {j : PlaylistId} (g : Playlist → Playlist) (hne : id ≠ j) :
    (e.withHandles id n).modifyPlaylist j g = (e.modifyPlaylist j g).withHandles id n := by
  refine congrArg (Engine.mk e.world) (List.ext_getElem? fun k => ?_)
  simp only [withHandles, modifyPlaylist, List.getElem?_modify]
  cases e.playlists[k]? with
  | none => rfl
  | some p => by_cases hi : id = k <;> by_cases hj : j = k <;> simp_all

theorem getElem?_withHandles (j : PlaylistId) : (e.withHandles id n).playlists[j]? =
    e.playlists[j]?.map fun p => if id = j then { p with handles := n } else p := by
  simp only [withHandles, modifyPlaylist, List.getElem?_modify]
  cases e.playlists[j]? with
  | none => rfl
  | some p => rfl

/-- The number of handles that there are already. -/
theorem withHandles_self (hp : e.playlists[id]? = some p) : e.withHandles id p.handles = e := by
  refine congrArg (Engine.mk e.world) (List.ext_getElem? fun j => ?_)
  rw [List.getElem?_modify]
  by_cases hj : id = j
  · subst hj
    rw [hp]
    simp
  · simp [hj]

/-- A change of the playlist's handles only. -/
theorem modify_modify_withHandles {g : Playlist → Playlist} (h : ∀ p, e.playlists[id]? = some p →
    { g p with handles := n } = { p with handles := n }) :
    (e.modifyPlaylist id g).withHandles id n = e.withHandles id n := by
  refine congrArg (Engine.mk e.world) (List.ext_getElem? fun j => ?_)
  simp only [modifyPlaylist, List.getElem?_modify]
  by_cases hj : id = j
  · subst hj
    cases hp : e.playlists[id]? with
    | none => rfl
    | some p => simp [h p hp]
  · simp [hj]

theorem wakeFrom_withHandles (a : ActionId) (first i : Nat) (playlists : List Playlist)
    (w : World) :
    wakeFrom a first (playlists.modify i fun p => { p with handles := n }) w =
      ((wakeFrom a first playlists w).1.modify i fun p => { p with handles := n },
        (wakeFrom a first playlists w).2) := by
  induction playlists generalizing first i w with
  | nil => cases i <;> rfl
  | cons p rest ih =>
    cases i with
    | zero => rfl
    | succ i => simp only [List.modify_succ_cons, wakeFrom, ih]

theorem withSettled_withHandles (e : Engine) (id : PlaylistId) (n : Nat)
    (result : World × Option ActionId) :
    (e.withHandles id n).withSettled result = (e.withSettled result).withHandles id n := by
  obtain ⟨w, _ | a⟩ := result
  · rfl
  · simp only [withSettled, wake, withHandles, modifyPlaylist, wakeFrom_withHandles]

theorem perform_withHandles (e : Engine) (id : PlaylistId) (n : Nat) (t : Task) :
    (e.withHandles id n).perform t =
    ((e.perform t).1.withHandles id n, (e.perform t).2) := by
  cases t with
  | timer m =>
    have h := withSettled_withHandles e id n (e.world.runTimer m)
    exact Prod.ext h (by simp only [perform, withHandles_world, h])
  | listener r =>
    have h := withSettled_withHandles e id n (e.world.runListener r)
    exact Prod.ext h (by simp only [perform, withHandles_world, h])
  | group j place =>
    simp only [perform, getElem?_withHandles]
    cases e.playlists[j]? with
    | none => rfl
    | some p =>
      have hroot : (if id = j then { p with handles := n } else p).root = p.root := by
        split <;> rfl
      simp only [Option.map_some, hroot]
      exact Prod.ext (modify_withHandles _ j fun _ => rfl) rfl

theorem runTask_withHandles (w : World) (t : Task) :
    { e.withHandles id n with world := w }.runTask t =
      ({ e with world := w }.runTask t).withHandles id n := by
  let running : Engine := { e with world := { w with running := some t, rewoken := false } }
  have hbegun : Engine.mk { w with running := some t, rewoken := false }
      (e.withHandles id n).playlists = running.withHandles id n := rfl
  simp only [runTask]
  rw [hbegun, perform_withHandles running id n t]
  rfl

theorem compile_withHandles (hid : id < e.playlists.length) (c : Compiler) (d : Descriptor) :
    (c.compile d (e.withHandles id n)).result =
      (c.compile d e).result.map fun r => (r.1.withHandles id n, r.2) := by
  have hlength : (e.playlists.modify id fun p => { p with handles := n }).length =
      e.playlists.length := List.length_modify ..
  have happend (p : Playlist) : (e.playlists.modify id fun p => { p with handles := n }) ++ [p] =
      (e.playlists ++ [p]).modify id fun p => { p with handles := n } := by
    refine List.ext_getElem? fun j => ?_
    rw [List.getElem?_modify, List.getElem?_append, List.getElem?_append, hlength,
      List.getElem?_modify]
    by_cases hj : j < e.playlists.length
    · simp only [hj, if_true]
    · have hne : id ≠ j := fun heq => hj (heq ▸ hid)
      simp [hj, hne]
  simp only [Compiler.compile, withHandles_world]
  generalize (c.compileRoot d).run.run ⟨e.world.instances.length, []⟩ = r
  obtain ⟨_ | root, shop⟩ := r
  · rfl
  · simp only [Except.map, addPlaylist, withHandles, modifyPlaylist, hlength, happend]

theorem pollCompletion_withHandles (id' : PlaylistId) :
    (e.withHandles id n).pollCompletion id' =
      ((e.pollCompletion id').1.withHandles id n, (e.pollCompletion id').2) := by
  simp only [pollCompletion, getElem?_withHandles]
  cases e.playlists[id']? with
  | none => rfl
  | some p =>
    have hroot : (if id = id' then { p with handles := n } else p).root = p.root := by
      split <;> rfl
    simp only [Option.map_some, hroot]
    exact Prod.ext (modify_withHandles _ id' fun _ => rfl) rfl

/-- An event that does not change the number of handles does not look at it either. -/
theorem apply_withHandles (hid : id < e.playlists.length) {event : Event}
    (h : event.counts id = false) :
    (e.withHandles id n).apply event = (e.apply event).withHandles id n := by
  have hne {id' : PlaylistId} (h : (id' == id) = false) : id ≠ id' := fun heq =>
    absurd heq.symm (beq_eq_false_iff_ne.1 h)
  cases event with
  | build | endAction | emit | useBus | releaseBus | moveClock => rfl
  | settle a s => exact withSettled_withHandles e id n _
  | compile c d =>
    have hcompile := compile_withHandles (n := n) hid c d
    simp only [apply, hcompile]
    rcases (c.compile d e).result with error | ⟨compiled, id'⟩
    · rfl
    · have hknows : (e.withHandles id n).Knows d ↔ e.Knows d := Iff.rfl
      simp only [Except.map, hknows]
      split <;> rfl
  | play id' input inRuntime =>
    have hstage : (e.withHandles id n).playlists[id']?.map Playlist.stage =
        e.playlists[id']?.map Playlist.stage := by
      rw [getElem?_withHandles, Option.map_map]
      refine congrArg (Option.map · e.playlists[id']?) (funext fun p => ?_)
      simp only [Function.comp]
      split <;> rfl
    simp only [apply, play, hstage]
    split
    · rfl
    · split
      · exact modify_withHandles _ id' fun p => by
          obtain ⟨_, _ | _, _⟩ := p <;> rfl
      · rfl
  | cloneHandle id' => exact modify_ne_withHandles _ (hne h)
  | dropHandle id' => exact modify_ne_withHandles _ (hne h)
  | pollCompletion id' =>
    simp only [apply, pollCompletion_withHandles]
  | run queue index =>
    simp only [apply, withHandles_world]
    cases (e.world.queue queue)[index]? with
    | none => rfl
    | some t => exact runTask_withHandles _ t

/-- What is known without a look does not depend on the handles. -/
theorem outcome?_withHandles (e : Engine) (id : PlaylistId) (n : Nat) (id' : PlaylistId) :
    (e.withHandles id n).outcome? id' = e.outcome? id' := by
  rw [outcome?, getElem?_withHandles, Option.bind_map]
  refine congrArg (Option.bind e.playlists[id']?) (funext fun p => ?_)
  simp only [Function.comp]
  split <;> rfl

theorem roots_withHandles (e : Engine) (id : PlaylistId) (n : Nat) :
    (e.withHandles id n).playlists.map Playlist.root = e.playlists.map Playlist.root := by
  refine List.ext_getElem? fun j => ?_
  rw [List.getElem?_map, getElem?_withHandles, Option.map_map, List.getElem?_map]
  refine congrArg (Option.map · e.playlists[j]?) (funext fun p => ?_)
  simp only [Function.comp]
  split <;> rfl

end Engine

/-! ## After the play -/

namespace Stage

variable {id : PlaylistId} {handles : Nat} {event : Event} {stage stage' : Stage}

theorem Meets.of_expired (h : Meets id handles event .expired stage') : stage' = .expired := by
  cases h with
  | looked _ _ _ _ h =>
    cases h with
    | same => rfl
    | runs hopen | ends o hopen => cases hopen

theorem Meets.of_play {input : Json} (h : Meets id handles (.play id input true) .created stage')
    (hne : stage' ≠ .created) : stage' = .triggered input := by
  cases h with
  | looked _ _ _ _ h => exact absurd h.of_created hne
  | played => rfl

theorem Meets.of_other (h : Meets id handles event .created stage')
    (hplay : ∀ input, event ≠ .play id input true) (hcounts : event.counts id = false) :
    stage' = .created := by
  cases h with
  | looked _ _ _ _ h => exact h.of_created
  | played input => exact absurd rfl (hplay input)
  | dropped => exact absurd rfl (beq_eq_false_iff_ne.1 hcounts)

theorem Meets.ne_expired (h : Meets id handles event stage stage') (hcreated : stage ≠ .created)
    (hexpired : stage ≠ .expired) : stage' ≠ .expired := by
  cases h with
  | played input | dropped => exact absurd rfl hcreated
  | looked _ _ _ _ h =>
    cases h with
    | same => exact hexpired
    | runs | ends => exact fun h => by cases h

end Stage

namespace Engine

variable {lead : ActionId → Prop} {e : Engine} {id : PlaylistId} {n : Nat} {stage : Stage}

/-- Handing handles round changes nothing else once the playlist has been played or given up. -/
theorem apply_handles (hs : e.stage? id ≠ some .created) {event : Event}
    (h : event.handles id = true) : (e.apply event).withHandles id n = e.withHandles id n := by
  cases event with
  | play id' input inRuntime =>
    obtain rfl := eq_of_beq h
    cases inRuntime with
    | false => rfl
    | true => rw [apply, play_alreadyPlayed hs]
  | cloneHandle id' =>
    obtain rfl := eq_of_beq h
    exact modify_modify_withHandles fun p _ => rfl
  | dropHandle id' =>
    obtain rfl := eq_of_beq h
    refine modify_modify_withHandles fun p hp => ?_
    have hne : p.stage ≠ .created := fun hc => hs (by rw [stage?, hp, Option.map_some, hc])
    dsimp only
    split
    next hc => exact absurd hc hne
    next => rfl
  | _ => cases h

/-- A handle of a playlist is dropped that was not played. -/
theorem dropHandle_created {p p' : Playlist} (hgroup : p.root.isLeaf = false)
    (hp : e.playlists[id]? = some p) (hs : p.stage = .created)
    (hp' : (e.dropHandle id).playlists[id]? = some p') : p'.handles = p.handles - 1 ∧
      (p.handles ≤ 1 → p'.stage = .expired) ∧ (2 ≤ p.handles → p'.stage = .created) := by
  have hs' : ({ p with handles := p.handles - 1 } : Playlist).stage = .created := hs
  rw [dropHandle, modifyPlaylist, List.getElem?_modify_eq, hp] at hp'
  obtain rfl := Option.some.inj hp'
  simp only [hs']
  by_cases hlast : p.handles - 1 = 0
  · rw [if_pos hlast]
    refine ⟨?_, fun _ => ?_, fun h => by omega⟩
    · unfold Playlist.withStage
      split <;> rfl
    · exact Playlist.stage_withStage (p := { p with handles := p.handles - 1 }) hgroup .expired
  · rw [if_neg hlast]
    exact ⟨rfl, fun h => by omega, fun _ => hs'⟩

theorem Sound.after_withHandles (h : Sound lead e) (hs : e.stage? id = some stage)
    (hne : stage ≠ .created) (history : List Event) : (e.after history).withHandles id n =
      (e.withHandles id n).after (history.filter fun event => !event.handles id) := by
  induction history generalizing e stage with
  | nil => rfl
  | cons event history ih =>
    obtain ⟨stage', hs', hleads⟩ := h.after_leads hs [event]
    have hnext := ih (h.apply event).1 hs' (hleads.ne_created hne)
    rw [after_cons, hnext]
    cases hevent : event.handles id with
    | true =>
      rw [apply_handles (by rw [hs]; exact fun heq => hne (Option.some.inj heq)) hevent,
        List.filter_cons_of_neg (by simp [hevent])]
    | false =>
      obtain ⟨p, hp, -⟩ := Option.map_eq_some_iff.1 hs
      rw [List.filter_cons_of_pos (by simp [hevent]), after_cons, apply_withHandles
        (List.getElem?_eq_some_iff.1 hp).1 (Event.counts_of_handles hevent)]

end Engine

end Rundown
