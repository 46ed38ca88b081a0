import Rundown.Proofs.Engine.Seats
import Rundown.Proofs.Playlist.Lasting

/-!
# What lasts through events

Of the events only looks at a playlist change its steps, but for wakes.  So what holds of a step
until a look, and what looks make of it, is carried through every event
(`Engine.Sound.apply_holdsAt`).  In particular a group that has ended stays as it has ended
(`Engine.Sound.after_ended`).
-/

namespace Rundown

namespace Engine

open Step

variable {lead : ActionId → Prop} {e e' : Engine} {id id' : PlaylistId} {place : List Nat}
  {p : Playlist} {Q R : Step → World → Prop}

/-- The property holds of a step of a playlist. -/
def HoldsAt (R : Step → World → Prop) (id : PlaylistId) (place : List Nat) (e : Engine) : Prop :=
  ∃ p, e.playlists[id]? = some p ∧ Step.HoldsAt R place p.root e.world

theorem getElem?_modify_own (hp : e.playlists[id]? = some p) (f : Playlist → Playlist) :
    (e.playlists.modify id f)[id]? = some (f p) := by
  simp [hp]

theorem getElem?_modify_other (hp : e.playlists[id]? = some p) (h : id ≠ id')
    (f : Playlist → Playlist) : (e.playlists.modify id' f)[id]? = some p := by
  simp [Ne.symm h, hp]

/-- A change of one playlist that leaves the property, if it is this playlist. -/
theorem holdsAt_modify {w : World} (hp : e.playlists[id]? = some p)
    (h : Step.HoldsAt Q place p.root w) {f : Playlist → Playlist}
    (hf : id = id' → Step.HoldsAt Q place (f p).root w) :
    ∃ q, (e.playlists.modify id' f)[id]? = some q ∧ Step.HoldsAt Q place q.root w := by
  by_cases hid : id = id'
  · subst hid
    exact ⟨f p, getElem?_modify_own hp f, hf rfl⟩
  · exact ⟨p, getElem?_modify_other hp hid f, h⟩

/-- Every playlist is woken. -/
theorem wakeFrom_getElem? {playlists : List Playlist} {i : Nat} (hi : playlists[i]? = some p)
    (a : ActionId) (first : PlaylistId) (w : World) : ∃ site w',
      (wakeFrom a first playlists w).1[i]? = some { p with root := (p.root.wake a site w').1 } := by
  induction playlists generalizing i first w with
  | nil => cases hi
  | cons q rest ih =>
    cases i with
    | zero =>
      cases hi
      exact ⟨_, _, rfl⟩
    | succ i => exact ih hi (first + 1) _

/-- When something may have settled, a playlist is woken or stays as it is. -/
theorem withSettled_getElem? (hp : e.playlists[id]? = some p)
    (result : World × Option ActionId) : (e.withSettled result).playlists[id]? = some p ∨
      ∃ a site w, (e.withSettled result).playlists[id]? =
        some { p with root := (p.root.wake a site w).1 } := by
  obtain ⟨w', _ | a⟩ := result
  · exact .inl hp
  · exact .inr ⟨a, wakeFrom_getElem? hp a 0 w'⟩

section

variable (hQ : Advances Q R)

include hQ

theorem withSettled_holdsAt {w : World} (hp : e.playlists[id]? = some p)
    (h : Step.HoldsAt Q place p.root w) (result : World × Option ActionId) :
    ∃ q, (e.withSettled result).playlists[id]? = some q ∧
      Step.HoldsAt Q place q.root w := by
  rcases withSettled_getElem? hp result with hq | ⟨a, site, w', hq⟩
  · exact ⟨p, hq, h⟩
  · exact ⟨_, hq, hQ.holdsAt_wake h a site w'⟩

/-- The stage of a group that was played does not change from outside. -/
theorem withStage_holdsAt {w : World} (hs : p.stage = .created) (stage : Stage)
    (h : Step.HoldsAt Q place p.root w) :
    Step.HoldsAt Q place (p.withStage stage).root w := by
  obtain ⟨descriptor, root, handles⟩ := p
  obtain ⟨t, hat, ht⟩ := h
  cases root with
  | leaf => exact ⟨t, hat, ht⟩
  | group slot g steps =>
    cases place with
    | cons i place => exact ⟨t, hat, ht⟩
    | nil =>
      cases hat
      exact absurd hs (hQ.played ht)

/-- The task of a group looks at it, or another task leaves it as it is. -/
theorem perform_holdsAt (hp : e.playlists[id]? = some p) (harrayed : p.root.Arrayed) {w : World}
    (h : Step.HoldsAt Q place p.root w) (hw : w.Spares e.world) (t : Task) :
    (∃ q, (e.perform t).1.playlists[id]? = some q ∧ Step.HoldsAt Q place q.root w) ∨
      (e.perform t).1.HoldsAt R id place := by
  cases t with
  | timer n => exact .inl (withSettled_holdsAt hQ hp h _)
  | listener r => exact .inl (withSettled_holdsAt hQ hp h _)
  | group id' below =>
    simp only [perform]
    cases hp' : e.playlists[id']? with
    | none => exact .inl ⟨p, hp, h⟩
    | some p' =>
      by_cases hid : id = id'
      · subst hid
        obtain rfl := Option.some.inj (hp.symm.trans hp')
        refine .inr ⟨_, getElem?_modify_own hp _, ?_⟩
        exact hQ.lasting.pollPlace below place (rootSite id) e.world harrayed
          (hQ.lasting.holdsAt_spared (h.imp fun _ ht => ⟨ht.1, hQ.imp ht.2⟩) hw)
      · exact .inl ⟨p, getElem?_modify_other hp hid _, h⟩

/-- An event makes of a step what a look makes of it, if anything. -/
theorem Sound.apply_holdsAt (h : Sound lead e) (event : Event)
    (hs : e.HoldsAt Q id place) : (e.apply event).HoldsAt R id place := by
  obtain ⟨p, hp, hs⟩ := hs
  have hturns := (h.apply event).2.toTurns
  have still (hq : ∃ q, (e.apply event).playlists[id]? = some q ∧
      Step.HoldsAt Q place q.root e.world) : (e.apply event).HoldsAt R id place := by
    obtain ⟨q, hq, t, hat, ht⟩ := hq
    exact ⟨q, hq, t, hat, hQ.imp (hQ.mono ht hturns.started hturns.settled)⟩
  have task {w : World} (hi : w.instances = e.world.instances) (t : Task)
      (he : e.apply event = ({ e with world := w } : Engine).runTask t) :
      (e.apply event).HoldsAt R id place := by
    let running : Engine := { e with world := { w with running := some t, rewoken := false } }
    rcases perform_holdsAt hQ (e := running) hp (h.arrayed id p hp) hs (.of_same hi) t with
      hq | ⟨q, hq, hscans⟩
    · exact still (by rw [he]; exact hq)
    · rw [he]
      exact ⟨q, hq, hQ.lasting.holdsAt_spared hscans (.of_same (World.stop_frame _ t _).1)⟩
  cases event with
  | build | endAction | emit | useBus | releaseBus | moveClock => exact still ⟨p, hp, hs⟩
  | settle a s => exact still (withSettled_holdsAt hQ hp hs _)
  | compile c d =>
    refine still ?_
    rcases e.apply_compile c d with heq | ⟨e', id', hr, -, heq⟩ <;> rw [heq]
    · exact ⟨p, hp, hs⟩
    · obtain ⟨root, shop, -, -, rfl, -⟩ := compile_known hr
      exact ⟨p, (List.getElem?_append_left (List.getElem?_eq_some_iff.1 hp).1).trans hp, hs⟩
  | play id' input inRuntime =>
    refine still ?_
    rcases e.apply_play id' input inRuntime with heq | ⟨-, p', hp', hcreated, heq⟩ <;> rw [heq]
    · exact ⟨p, hp, hs⟩
    · refine holdsAt_modify hp hs fun hid => ?_
      subst hid
      obtain rfl := Option.some.inj (hp.symm.trans hp')
      exact withStage_holdsAt hQ hcreated _ hs
  | cloneHandle id' => exact still (holdsAt_modify hp hs fun _ => hs)
  | dropHandle id' =>
    refine still (holdsAt_modify hp hs fun _ => ?_)
    dsimp only
    split
    next hcreated =>
      split
      · exact withStage_holdsAt hQ (p := { p with handles := p.handles - 1 }) hcreated _ hs
      · exact hs
    · exact hs
  | pollCompletion id' =>
    simp only [Engine.apply, Engine.pollCompletion] at still ⊢
    cases hp' : e.playlists[id']? with
    | none =>
      simp only [hp'] at still ⊢
      exact still ⟨p, hp, hs⟩
    | some p' =>
      simp only [hp'] at still ⊢
      by_cases hid : id = id'
      · subst hid
        obtain rfl := Option.some.inj (hp.symm.trans hp')
        refine ⟨_, getElem?_modify_own hp _, ?_⟩
        exact hQ.lasting.pollWithin place (rootSite id) none e.world (h.arrayed id p hp)
          (Nat.le_refl _) (hs.imp fun _ ht => ⟨ht.1, hQ.imp ht.2⟩)
      · exact still ⟨p, getElem?_modify_other hp hid _, hs⟩
  | run queue index =>
    rcases e.apply_run queue index with heq | ⟨t, -, heq⟩
    · exact still (by rw [heq]; exact ⟨p, hp, hs⟩)
    · exact task (w := e.world.dequeue queue index) rfl t heq

end

/-- With what a group has ended stays, whatever happens. -/
theorem Sound.after_ended (h : Sound lead e) {o : Outcome} (hs : e.HoldsAt (Ended o) id place)
    (history : List Event) : (e.after history).HoldsAt (Ended o) id place := by
  induction history generalizing e with
  | nil => exact hs
  | cons event history ih =>
    exact ih (h.apply event).1 (h.apply_holdsAt (ended_advances o) event hs)

end Engine

end Rundown
