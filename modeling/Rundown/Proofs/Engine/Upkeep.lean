import Rundown.Proofs.Engine.Turn
import Rundown.Proofs.Playlist.Counterpart
import Rundown.Proofs.World.Completion
import Rundown.Proofs.World.Tasks

/-!
# What the steps of an engine keep

A look at a playlist changes the world by begins of the actions at its leaves and by making its own
groups ready.  A property of worlds that such changes keep for some playlists and their actions
(`Upkeep`) is kept whenever the engine looks at one of these playlists or wakes one of these actions,
and the other playlists stay as they are (`Upkeep.perform`, `Upkeep.pollCompletion`,
`Upkeep.withSettled`).

`Engine.actions_apply` is the first use: no event but building and compiling changes which actions
there are.
-/

namespace Rundown

namespace Step

variable {s : Step} {actions : ActionId → Prop}

/-- A step is its own twin only if its leaves are. -/
theorem leaves_of_twin (h : Twin (fun a a' => a' = a ∧ actions a) s s) :
    ∀ a ∈ s.leaves, actions a := by
  induction s using induction with
  | leaf slot a =>
    intro b hb
    obtain rfl := List.mem_singleton.1 hb
    exact h.2.2
  | group slot g steps ih =>
    intro a ha
    rw [leaves, leavesList_eq] at ha
    obtain ⟨s, hs, ha⟩ := List.mem_flatMap.1 ha
    obtain ⟨-, -, hsteps⟩ := twin_group.1 h
    exact ih s hs (List.forall₂_same.1 hsteps s hs) a ha

/-- Nobody in the tree awaits an action that no leaf has. -/
theorem wake_of_notMem {a : ActionId} (h : a ∉ s.leaves) (site : Site) (w : World) :
    s.wake a site w = (s, w, false) := by
  induction s using induction generalizing site w with
  | leaf slot b =>
    have hb : awaits slot b a = false :=
      Bool.eq_false_iff.2 fun hawaits => h (List.mem_singleton.2 (awaits_iff.1 hawaits).2.symm)
    simp only [wake, hb, Bool.false_eq_true, if_false]
  | group slot g steps ih =>
    have hrest (sites : Nat → Site) (width i : Nat) (g : Group) (w : World) :
        wakeList a sites width i g steps w = (g, steps, w, false) := by
      rw [leaves] at h
      induction steps generalizing i g w with
      | nil => rfl
      | cons s rest ihrest =>
        rw [leavesList, List.mem_append, not_or] at h
        have hnote (g : Group) : g.noteWake i width false = g := by
          unfold Group.noteWake
          split <;> rfl
        simp only [wakeList, ih s List.mem_cons_self h.1, hnote,
          ihrest (fun t ht => ih t (List.mem_cons_of_mem _ ht)) h.2]
        rfl
    simp only [wake, hrest, Bool.false_and]

end Step

/-- A property of worlds that begins of some actions and wakes of some playlists keep. -/
structure Upkeep where
  actions : ActionId → Prop
  playlists : PlaylistId → Prop
  holds : World → Prop
  begins : ∀ {w a} (v : Json), holds w → actions a → holds (w.beginAction a v).1
  schedule : ∀ {w id} (place : List Nat), holds w → playlists id →
    holds (w.schedule (.group id place))

namespace Upkeep

open Engine Step

/-- The property as a comparison of a world with itself. -/
def comparison (U : Upkeep) : Comparison :=
  .ofInvariant U.actions (fun t => ∃ id place, t = .group id place ∧ U.playlists id) U.holds U.begins
    (by
      rintro w _ hw ⟨id, place, rfl, hid⟩
      exact U.schedule place hw hid)

/-- The actions at the leaves of the playlists in question are those in question. -/
def Sorted (U : Upkeep) (e : Engine) : Prop :=
  ∀ id p, e.playlists[id]? = some p → ∀ a ∈ p.root.leaves, (U.actions a ↔ U.playlists id)

/-- The property holds still, and the other playlists are as they were. -/
structure Keeps (U : Upkeep) (e e' : Engine) : Prop where
  holds : U.holds e'.world
  sorted : U.Sorted e'
  others : ∀ id, ¬U.playlists id → e'.playlists[id]? = e.playlists[id]?
  length : e'.playlists.length = e.playlists.length

variable {U : Upkeep} {e : Engine} {id : PlaylistId} {p : Playlist} {s : Step} {w : World}
  {a : ActionId}

theorem sites (hid : U.playlists id) : U.comparison.Sites (rootSite id) (rootSite id) :=
  ⟨rfl, .nil, fun place => ⟨rfl, id, place, rfl, hid⟩⟩

theorem twin (h : ∀ a ∈ s.leaves, U.actions a) : Twin U.comparison.action s s :=
  .refl fun a ha => ⟨rfl, h a ha⟩

/-- The world has changed as it may, and no playlist has. -/
theorem Keeps.of_world (hs : U.Sorted e) (hw : U.holds w) : U.Keeps e { e with world := w } :=
  ⟨hw, hs, fun _ _ => rfl, rfl⟩

/-- A playlist in question has been looked at. -/
theorem Keeps.of_look (hs : U.Sorted e) (hp : e.playlists[id]? = some p) (hid : U.playlists id)
    {polled : Polled} (h : U.comparison.Polls polled polled) :
    U.Keeps e { (e.modifyPlaylist id fun p => { p with root := polled.step }) with
      world := polled.world } where
  holds := h.world.2
  sorted id' p' hp' a ha := by
    by_cases heq : id = id'
    · subst heq
      change (e.playlists.modify id _)[id]? = some p' at hp'
      rw [List.getElem?_modify_eq, hp] at hp'
      cases hp'
      exact iff_of_true (leaves_of_twin h.step a ha) hid
    · change (e.playlists.modify id _)[id']? = some p' at hp'
      rw [List.getElem?_modify_ne _ _ heq] at hp'
      exact hs id' p' hp' a ha
  others id' hid' := List.getElem?_modify_ne _ _ fun heq : id = id' => hid' (heq ▸ hid)
  length := List.length_modify ..

/-! ## Waking -/

theorem wakeFrom (playlists : List Playlist) (first : PlaylistId)
    (ha : ∀ i p, playlists[i]? = some p → a ∈ p.root.leaves → U.playlists (first + i))
    (hs : ∀ i p, playlists[i]? = some p → ∀ a ∈ p.root.leaves,
      (U.actions a ↔ U.playlists (first + i)))
    (hw : U.holds w) {r : List Playlist × World} (hr : Engine.wakeFrom a first playlists w = r) :
    U.holds r.2 ∧ r.1.length = playlists.length ∧ (∀ i p, r.1[i]? = some p →
      ∀ a ∈ p.root.leaves, (U.actions a ↔ U.playlists (first + i))) ∧
      ∀ i, ¬U.playlists (first + i) → r.1[i]? = playlists[i]? := by
  induction playlists generalizing first w r with
  | nil =>
    subst hr
    exact ⟨hw, rfl, hs, fun _ _ => rfl⟩
  | cons p rest ih =>
    have hfirst := hs 0 p rfl
    have hstep : U.holds (p.root.wake a (rootSite first) w).2.1 ∧
        (∀ b ∈ (p.root.wake a (rootSite first) w).1.leaves,
          (U.actions b ↔ U.playlists first)) ∧
        (¬U.playlists first → (p.root.wake a (rootSite first) w).1 = p.root) := by
      by_cases hid : U.playlists first
      · have hpaired : U.comparison.Paired a a := by
          rintro b _ ⟨rfl, -⟩
          exact Iff.rfl
        obtain ⟨htwin, hworld, -⟩ := U.comparison.wake hpaired (sites hid)
          (twin fun b hb => (hfirst b hb).2 hid) ⟨rfl, hw⟩
        exact ⟨hworld.2, fun b hb => iff_of_true (leaves_of_twin htwin b hb) hid,
          fun hn => absurd hid hn⟩
      · rw [wake_of_notMem fun hm => hid (ha 0 p rfl hm)]
        exact ⟨hw, hfirst, fun _ => rfl⟩
    simp only [Engine.wakeFrom] at hr
    generalize p.root.wake a (rootSite first) w = q at hr hstep
    obtain ⟨hw, hleaves, hsame⟩ := hstep
    obtain ⟨hholds, hlength, hsorted, hothers⟩ := ih (first + 1)
      (fun i p hp => by rw [Nat.add_assoc, Nat.add_comm 1]; exact ha (i + 1) p hp)
      (fun i p hp => by rw [Nat.add_assoc, Nat.add_comm 1]; exact hs (i + 1) p hp) hw rfl
    generalize Engine.wakeFrom a (first + 1) rest q.2.1 = r' at hr hholds hlength hsorted hothers
    subst hr
    refine ⟨hholds, congrArg Nat.succ hlength, fun i p' hp' => ?_, fun i hi => ?_⟩
    · cases i with
      | zero =>
        cases hp'
        exact hleaves
      | succ i =>
        have := hsorted i p' hp'
        rwa [Nat.add_assoc, Nat.add_comm 1] at this
    · cases i with
      | zero => simp [hsame hi]
      | succ i => exact hothers i (by rwa [Nat.add_assoc, Nat.add_comm 1])

/-- A completion may have settled that nobody awaits but the playlists in question. -/
theorem withSettled (hs : U.Sorted e) {result : World × Option ActionId} (hw : U.holds result.1)
    (ha : ∀ a, result.2 = some a → ∀ id p, e.playlists[id]? = some p → a ∈ p.root.leaves →
      U.playlists id) : U.Keeps e (e.withSettled result) := by
  obtain ⟨w, answer⟩ := result
  cases answer with
  | none => exact .of_world hs hw
  | some a =>
    obtain ⟨hholds, hlength, hsorted, hothers⟩ := wakeFrom e.playlists 0
      (fun id p hp => by rw [Nat.zero_add]; exact ha a rfl id p hp)
      (fun id p hp => by rw [Nat.zero_add]; exact hs id p hp) hw rfl
    exact ⟨hholds, fun id p hp => by simpa only [Nat.zero_add] using hsorted id p hp,
      fun id hid => hothers id (by rwa [Nat.zero_add]), hlength⟩

/-! ## Looking -/

theorem pollCompletion (hs : U.Sorted e) (hw : U.holds e.world) (hid : U.playlists id) :
    U.Keeps e (e.pollCompletion id).1 := by
  unfold Engine.pollCompletion
  cases hp : e.playlists[id]? with
  | none => exact .of_world hs hw
  | some p =>
    exact .of_look hs hp hid
      (U.comparison.poll (sites hid) none (twin fun a ha => (hs id p hp a ha).2 hid) ⟨rfl, hw⟩)

/-- Running a task of a playlist in question, or one that settles no action but for such
playlists. -/
theorem perform (hs : U.Sorted e) (hw : U.holds e.world) {t : Task}
    (htimer : ∀ n, t = .timer n → U.holds (e.world.runTimer n).1 ∧
      ∀ a, (e.world.runTimer n).2 = some a → ∀ id p, e.playlists[id]? = some p →
        a ∈ p.root.leaves → U.playlists id)
    (hlistener : ∀ r, t = .listener r → U.holds (e.world.runListener r).1 ∧
      ∀ a, (e.world.runListener r).2 = some a → ∀ id p, e.playlists[id]? = some p →
        a ∈ p.root.leaves → U.playlists id)
    (hgroup : ∀ id place, t = .group id place → U.playlists id) : U.Keeps e (e.perform t).1 := by
  cases t with
  | timer n =>
    obtain ⟨hw, ha⟩ := htimer n rfl
    exact withSettled hs hw ha
  | listener r =>
    obtain ⟨hw, ha⟩ := hlistener r rfl
    exact withSettled hs hw ha
  | group id place =>
    have hid := hgroup id place rfl
    simp only [Engine.perform]
    cases hp : e.playlists[id]? with
    | none => exact .of_world hs hw
    | some p =>
      exact .of_look hs hp hid (U.comparison.pollPlace place (sites hid)
        (twin fun a ha => (hs id p hp a ha).2 hid) ⟨rfl, hw⟩)

end Upkeep

/-! ## The actions of an engine -/

/-- Whether the event adds actions to the engine. -/
def Event.builds : Event → Bool
  | .build _ | .compile _ _ => true
  | _ => false

namespace Engine

open World

variable {e : Engine}

/-- No look begins an action that was not there. -/
def actionsUpkeep (actions : List Action) : Upkeep where
  actions _ := True
  playlists _ := True
  holds w := w.actions = actions
  begins := by
    intro w a v hw _
    by_cases hs : w.started? a = some false
    · exact (beginAction_begins v hs).actions.trans hw
    · rwa [beginAction_refused v hs]
  schedule place hw _ := (Requeued.schedule _ _).actions.trans hw

theorem actionsUpkeep_sorted (actions : List Action) (e : Engine) :
    (actionsUpkeep actions).Sorted e := fun _ _ _ _ _ => Iff.rfl

theorem actions_runTimer (w : World) (n : TimerId) : (w.runTimer n).1.actions = w.actions := by
  unfold runTimer
  split
  · rfl
  · dsimp only
    split
    · exact (actions_release _ _).trans (settle_effected _ _ _).actions
    · split <;> rfl

theorem actions_runListener (w : World) (r : ReceiverId) :
    (w.runListener r).1.actions = w.actions := by
  unfold runListener
  split
  · rfl
  · dsimp only
    split
    · exact actions_release _ _
    · split
      · exact (actions_release _ _).trans (settle_effected _ _ _).actions
      · exact (actions_release _ _).trans (settle_effected _ _ _).actions
      · rfl

theorem actions_runTask (e : Engine) (t : Task) :
    (e.runTask t).world.actions = e.world.actions := by
  let e₁ : Engine := { e with world := { e.world with running := some t, rewoken := false } }
  have hperform : (e₁.perform t).1.world.actions = e.world.actions :=
    (Upkeep.perform (U := actionsUpkeep e.world.actions) (e := e₁) (actionsUpkeep_sorted _ _) rfl
      (fun n _ => ⟨actions_runTimer _ n, fun _ _ _ _ _ _ => trivial⟩)
      (fun r _ => ⟨actions_runListener _ r, fun _ _ _ _ _ _ => trivial⟩) fun _ _ _ => trivial).holds
  have hstop : ((e₁.perform t).1.world.stop t (e₁.perform t).2).actions =
      (e₁.perform t).1.world.actions := by
    rw [World.actions, (stop_frame _ t _).1, World.actions]
  exact hstop.trans hperform

/-- Only building and compiling add actions. -/
theorem actions_apply (e : Engine) {event : Event} (h : event.builds = false) :
    (e.apply event).world.actions = e.world.actions := by
  cases event with
  | build | compile => cases h
  | play id input inRuntime =>
    rcases hr : e.play id input inRuntime with ⟨e', error | ⟨⟩⟩
    · rw [apply, hr, play_error hr]
    · obtain ⟨p, -, -, rfl⟩ := play_ok hr
      rw [apply, hr]
      exact (Requeued.schedule _ _).actions
  | cloneHandle | dropHandle | useBus => rfl
  | pollCompletion id =>
    exact (Upkeep.pollCompletion (U := actionsUpkeep e.world.actions) (actionsUpkeep_sorted _ _) rfl
      trivial).holds
  | settle a s =>
    have hkeeps : (actionsUpkeep e.world.actions).Keeps e (e.withSettled
        ((e.world.settle a s).1, if (e.world.settle a s).2 then some a else none)) :=
      Upkeep.withSettled (actionsUpkeep_sorted _ _) (settle_effected e.world a s).actions
        fun _ _ _ _ _ _ => trivial
    exact hkeeps.holds
  | endAction a => exact (Requeued.scheduleAll _ _).actions
  | emit s => exact (Requeued.scheduleAll _ _).actions
  | releaseBus => rw [World.actions, apply, releaseBus_instances, World.actions]
  | moveClock now => exact (Requeued.enqueueAll _ { e.world with clock := now }).actions
  | run queue index =>
    unfold apply
    dsimp only
    split
    · exact actions_runTask _ _
    · rfl

/-- Compiling adds the actions that it builds. -/
theorem actions_compile {c : Compiler} {d : Descriptor} {e' : Engine} {id : PlaylistId}
    (h : (c.compile d e).result = .ok (e', id)) :
    e'.world.actions = e.world.actions ++ Compiler.built (c.compile d e).calls := by
  obtain ⟨root, shop, hyields, -, rfl⟩ := Compiler.compile_ok h
  have hcalls : (c.compile d e).calls = shop.calls := by
    unfold Compiler.compile
    have hrun : (c.compileRoot d).run.run ⟨e.world.instances.length, []⟩ = (.ok root, shop) := hyields
    rw [hrun]
  rw [hcalls, Compiler.actions_addActions]

/-- Actions are never taken away. -/
theorem actions_prefix_apply (e : Engine) (event : Event) :
    e.world.actions <+: (e.apply event).world.actions := by
  cases event with
  | build action =>
    refine ⟨[action], ?_⟩
    rw [apply, World.actions, World.actions, addAction, List.map_append]
    rfl
  | compile c d =>
    unfold apply
    dsimp only
    rcases hr : (c.compile d e).result with error | ⟨compiled, id⟩
    · exact List.prefix_refl _
    · dsimp only
      split
      · exact ⟨_, (actions_compile hr).symm⟩
      · exact List.prefix_refl _
  | _ =>
    exact ⟨[], (List.append_nil _).trans (actions_apply e (by rfl)).symm⟩

theorem actions_prefix_after (e : Engine) (history : List Event) :
    e.world.actions <+: (e.after history).world.actions := by
  induction history generalizing e with
  | nil => exact List.prefix_refl _
  | cons event rest ih => exact (actions_prefix_apply e event).trans (ih _)

end Engine

end Rundown
