import Rundown.Proofs.Descriptor.Permuted
import Rundown.Proofs.Engine.LifeCycle
import Rundown.Proofs.Engine.Undisturbed
import Rundown.Proofs.Registry

/-!
# A playlist that is played on its own

`Engine.opening` is an engine into which one descriptor has been compiled and played.  As it lives on
it performs this playlist and nothing else (`Engine.Performs`), so what begins and what the playlist
ends with can be read off the plan of the descriptor.
-/

namespace Rundown

namespace Engine

open Step

/-- An engine that has compiled the descriptor and played it at once. -/
def opening (capacity : Nat) (c : Compiler) (d : Descriptor) (input : Json) : Option Engine :=
  match (c.compile d (ofCapacity capacity)).result with
  | .ok (e, id) => some (e.play id input true).1
  | .error _ => none

/-- The engine holds one playlist, with the given root, that was compiled from the descriptor and
played with the input. -/
structure Performs (c : Compiler) (d : Descriptor) (input : Json) (e : Engine) (root : Step) :
    Prop where
  sound : Sound (fun _ => False) e
  alone : ∃ p, e.playlists = [p] ∧ p.root = root
  group : root.isLeaf = false
  entered : root.Entered (e.scene (fun _ => False) 0) [] input
  plan : root.plan = d.rootPlan 0
  under : root.Under c.config.parallelFailure
  leaves : root.leaves = List.range d.references
  actions : List.Forall₂ c.Builds d.refs e.world.actions

variable {c : Compiler} {d : Descriptor} {input : Json} {e e' : Engine} {root : Step}
  {since : ActionId → Nat} {capacity : Nat} {a : ActionId} {v u : Json}

/-! ## What happens to a performance -/

theorem wakeFrom_length (a : ActionId) (id : PlaylistId) (playlists : List Playlist) (w : World) :
    (wakeFrom a id playlists w).1.length = playlists.length := by
  induction playlists generalizing id w with
  | nil => rfl
  | cons p rest ih => exact congrArg (· + 1) (ih _ _)

theorem withSettled_length (e : Engine) (result : World × Option ActionId) :
    (e.withSettled result).playlists.length = e.playlists.length := by
  unfold withSettled
  dsimp only
  split
  · exact wakeFrom_length _ _ _ _
  · rfl

theorem perform_length (e : Engine) (t : Task) :
    (e.perform t).1.playlists.length = e.playlists.length := by
  cases t with
  | timer n => exact withSettled_length e _
  | listener r => exact withSettled_length e _
  | group id place =>
    simp only [perform]
    split
    · rfl
    · exact List.length_modify _ _ _

theorem next_length (h : e.next? = some e') : e'.playlists.length = e.playlists.length := by
  unfold next? at h
  split at h
  · cases h
    exact perform_length _ _
  · cases h
    exact perform_length _ _
  · cases h

theorem Performs.turn (h : Performs c d input e root) (hsound : Sound (fun _ => False) e')
    (hturns : Turns (fun _ => False) e e') (hlength : e'.playlists.length = e.playlists.length)
    (hactions : e'.world.actions = e.world.actions) :
    ∃ root', Performs c d input e' root' ∧ root'.reset = root.reset := by
  obtain ⟨p, hp, rfl⟩ := h.alone
  have hget : e.playlists[0]? = some p := by rw [hp]; rfl
  obtain ⟨p', hp', hbecomes⟩ := hturns.each 0 p hget
  have hp' : e'.playlists = [p'] := by
    rw [hp] at hlength
    obtain ⟨q, hq⟩ := List.length_eq_one_iff.1 hlength
    rw [hq] at hp'
    rw [hq, Option.some.inj hp']
  refine ⟨p'.root, ?_, hbecomes.reset⟩
  exact {
    sound := hsound
    alone := ⟨p', hp', rfl⟩
    group := (isLeaf_congr hbecomes.reset).trans h.group
    entered := hbecomes.entered input h.entered
    plan := (plan_congr hbecomes.reset).trans h.plan
    under := (under_congr hbecomes.reset).2 h.under
    leaves := (leaves_congr hbecomes.reset).trans h.leaves
    actions := hactions ▸ h.actions }

/-- Running a task goes on with the performance. -/
theorem Performs.next (h : Performs c d input e root) (ht : Tended since e)
    (hn : e.next? = some e') : ∃ root', Performs c d input e' root' ∧ root'.reset = root.reset := by
  obtain ⟨event, rfl⟩ := next?_eq_apply hn
  obtain ⟨hsound, hticks⟩ := h.sound.apply event
  exact h.turn hsound hticks.toTurns (next_length hn) (ht.next hn).2.actions

/-- A move of the clock leaves the performance alone. -/
theorem Performs.moveClock (h : Performs c d input e root) (now : Nat) :
    Performs c d input { e with world := e.world.moveClock now } root := by
  obtain ⟨p, hp, hroot⟩ := h.alone
  obtain ⟨hsound, hticks⟩ := h.sound.apply (.moveClock now)
  have hactions : (e.world.moveClock now).actions = e.world.actions :=
    (World.Requeued.enqueueAll _ { e.world with clock := now }).actions
  have hget : e.playlists[0]? = some p := by rw [hp]; rfl
  obtain ⟨p', hp', hbecomes⟩ := hticks.each 0 p hget
  obtain rfl : p = p' := Option.some.inj (hget.symm.trans hp')
  exact { h with
    sound := hsound
    entered := hroot ▸ hbecomes.entered input (hroot ▸ h.entered)
    actions := hactions ▸ h.actions }

/-! ## What is read off the plan -/

section

variable (h : Performs c d input e root)

include h

theorem Performs.leaves_eq : e.leaves = List.range d.references := by
  obtain ⟨p, hp, rfl⟩ := h.alone
  rw [Engine.leaves, hp, ← h.leaves]
  exact List.append_nil _

theorem Performs.sole (a : ActionId) : (e.scene (fun _ => False) 0).sole a := by
  show e.leaves.count a ≤ 1
  rw [h.leaves_eq]
  exact List.nodup_iff_count_le_one.1 List.nodup_range a

theorem Performs.begun_leaf {b : ActionId × Json} (hb : b ∈ e.world.begun) : b.1 ∈ root.leaves := by
  have := h.sound.begun b.1 (h.sound.logged.started b hb)
  rwa [h.leaves_eq, ← h.leaves] at this

/-- At any time the leaves have begun only as the plan says. -/
theorem Performs.planned {b : ActionId × Json} (hb : b ∈ e.world.begun) :
    b ∈ (d.rootPlan 0).begins e.world.settlement? input := by
  rw [← h.plan]
  exact h.entered.planned h.sound.logged (fun a _ => h.sole a) b hb (h.begun_leaf hb)

/-- At rest they have begun exactly as the plan says. -/
theorem Performs.mem_begun_iff (hquiet : e.Quiescent) {b : ActionId × Json} :
    b ∈ e.world.begun ↔ b ∈ (d.rootPlan 0).begins e.world.settlement? input := by
  have hbegins := h.entered.begins (h.sound.atRest hquiet 0) h.sound.logged (fun a _ => h.sole a) b
  rw [← h.plan]
  exact ⟨fun hb => hbegins.1 ⟨hb, h.begun_leaf hb⟩, fun hb => (hbegins.2 hb).1⟩

theorem Performs.outcome?_eq : e.outcome? 0 = root.answer? e.world := by
  obtain ⟨p, hp, rfl⟩ := h.alone
  have hgroup := h.group
  unfold outcome? Playlist.stage
  rw [hp, List.getElem?_cons_zero, Option.bind_some]
  cases hr : p.root with
  | leaf slot a =>
    rw [hr] at hgroup
    cases hgroup
  | group slot g steps => rfl

end

/-! ## The opening -/

theorem opening_isSome_iff : (opening capacity c d input).isSome = true ↔
    ∃ r, (c.compile d (ofCapacity capacity)).result = .ok r := by
  unfold opening
  rcases (c.compile d (ofCapacity capacity)).result with error | ⟨e, id⟩
  · exact iff_of_false (by simp) (by rintro ⟨r, h⟩; cases h)
  · exact iff_of_true rfl ⟨_, rfl⟩

/-- What is known of an engine that has compiled and played a descriptor without ready built
actions. -/
structure Opened (c : Compiler) (d : Descriptor) (input : Json) (e : Engine) : Prop where
  tended : Tended (fun _ => 0) e
  performs : ∃ root, Performs c d input e root
  clock : e.world.clock = 0
  begun : e.world.begun = []

/-- What is known of an engine that has compiled a descriptor and done nothing else. -/
structure Prepared (c : Compiler) (d : Descriptor) (e : Engine) (root : Step) : Prop where
  tended : Tended (fun _ => 0) e
  alone : e.playlists = [⟨d, root, 1⟩]
  created : e.stage? 0 = some .created
  rooted : ∃ shop, c.Rooted d ⟨0, []⟩ root shop
  actions : List.Forall₂ c.Builds d.refs e.world.actions
  clock : e.world.clock = 0
  begun : e.world.begun = []

theorem compile_prepared {id : PlaylistId} (hcapacity : capacity ≠ 0)
    (hregistry : c.registry = .builtins) (hd : d.instances = [])
    (h : (c.compile d (ofCapacity capacity)).result = .ok (e, id)) :
    id = 0 ∧ ∃ root, Prepared c d e root := by
  have hplain : ∀ ref ∈ d.refs, ∀ action, c.Builds ref action → ∀ v, Plain (action.onBegin v) :=
    fun _ _ _ hbuilds v => hbuilds.plain hregistry v
  have hknows : (ofCapacity capacity).Knows d := fun a ha => by
    rw [hd] at ha
    cases ha
  have htended := (tended_ofCapacity hcapacity).compile hplain hknows h
  have hcreated := stage?_of_compile h
  obtain ⟨root, shop, hrooted, rfl, rfl, -⟩ := compile_known h
  obtain ⟨actions, hactions, hbuilds⟩ := hrooted.grown.built
  have hbuilt : Compiler.built shop.calls = actions := hactions
  obtain ⟨holders, hadded⟩ := Compiler.addActions_eq shop.calls (ofCapacity capacity).world
  rw [hbuilt] at hadded
  refine ⟨rfl, root, htended, rfl, hcreated, ⟨shop, hrooted⟩, ?_, ?_, ?_⟩
  · rw [hadded]
    exact (World.actions_withActions (World.ofCapacity capacity) actions holders).symm ▸ hbuilds
  · rw [hadded]
    rfl
  · rw [hadded]
    rfl

/-- Playing the playlist makes its task ready, and that is all. -/
theorem Prepared.play (h : Prepared c d e root) (hd : d.instances = []) :
    Opened c d input (e.play 0 input true).1 := by
  obtain ⟨shop, hrooted⟩ := h.rooted
  have hget : e.playlists[0]? = some ⟨d, root, 1⟩ := by rw [h.alone]; rfl
  rcases hplay : e.play 0 input true with ⟨e', result⟩
  obtain rfl : result = .ok () := by
    rw [← play_ok_iff.2 h.created, hplay]
  have htended := h.tended.play 0 input true
  rw [apply, hplay] at htended
  obtain ⟨p, hp, hstage, he⟩ := play_ok hplay
  obtain ⟨hsound, hticks, p', hp', hentered⟩ := h.tended.sound.play_entered hplay
  obtain ⟨p'', hp'', hbecomes⟩ := hticks.each 0 _ hget
  obtain rfl : p'' = p' := Option.some.inj (hp''.symm.trans hp')
  have hreset : p''.root.reset = root.reset := hbecomes.reset
  have hrequeued : World.Requeued e.world e'.world := by
    rw [he]
    exact .schedule _ _
  have halone : e'.playlists = [p''] := by
    rw [he, h.alone] at hp' ⊢
    exact congrArg (fun p => [p]) (Option.some.inj hp')
  refine ⟨htended, ⟨p''.root, ?_⟩, hrequeued.clock.trans h.clock, hrequeued.begun.trans h.begun⟩
  exact {
    sound := hsound
    alone := ⟨p'', halone, rfl⟩
    group := (isLeaf_congr hreset).trans hrooted.group
    entered := hentered
    plan := (plan_congr hreset).trans hrooted.plan
    under := (under_congr hreset).2 hrooted.under
    leaves := by
      rw [leaves_congr hreset, hrooted.leaves, List.range_eq_range']
      exact Descriptor.plan_leaves_eq hd 0
    actions := hrequeued.actions.symm ▸ h.actions }

theorem opening_opened (hcapacity : capacity ≠ 0) (hregistry : c.registry = .builtins)
    (hd : d.instances = []) (h : opening capacity c d input = some e) : Opened c d input e := by
  unfold opening at h
  rcases hresult : (c.compile d (ofCapacity capacity)).result with error | ⟨compiled, id⟩
  · rw [hresult] at h
    cases h
  · rw [hresult] at h
    obtain rfl : (compiled.play id input true).1 = e := Option.some.inj h
    obtain ⟨rfl, root, hprepared⟩ := compile_prepared hcapacity hregistry hd hresult
    exact hprepared.play hd

end Engine

end Rundown
