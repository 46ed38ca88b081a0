import Rundown.Proofs.Engine.Lasting
import Rundown.Proofs.Engine.Production
import Rundown.Proofs.Playlist.Entrance

/-!
# Begins at the start of a group

An event that enters a group takes a look that does (`Engine.apply_approaches`), and what begins
in this look is known from `Entrance.Sound.onset`.  So the leaves of a parallel group begin at once,
in the order of their branches, and nested branches begin something after them, again in the order
of the branches (`Production.groupStart_spec`).
-/

namespace Rundown

/-- Nobody has entered the group. -/
def Step.Unentered (s : Step) (_ : World) : Prop := s.stage.isStarted = false

namespace Engine

open Step

variable {lead : ActionId → Prop} {e : Engine} {id id' : PlaylistId} {place : List Nat}
  {p : Playlist} {t : Step} {w w' : World}

/-! ## Events that enter nothing -/

theorem unentered_withSettled (hp : e.playlists[id]? = some p)
    (h : Step.HoldsAt Unentered place p.root w) (result : World × Option ActionId) :
    ∃ q, (e.withSettled result).playlists[id]? = some q ∧
      Step.HoldsAt Unentered place q.root w := by
  rcases withSettled_getElem? hp result with hq | ⟨a, site, w', hq⟩
  · exact ⟨p, hq, h⟩
  · obtain ⟨u, hat, hu⟩ := h
    obtain ⟨site', w'', hat'⟩ := wake_at? a hat site w'
    exact ⟨_, hq, _, hat', (congrArg Stage.isStarted (wake_stage a site' u w'')).trans hu⟩

theorem unentered_withStage {stage : Stage} (hs : stage.isStarted = false)
    (h : Step.HoldsAt Unentered place p.root w) :
    Step.HoldsAt Unentered place (p.withStage stage).root w := by
  obtain ⟨descriptor, root, handles⟩ := p
  obtain ⟨u, hat, hu⟩ := h
  cases root with
  | leaf => exact ⟨u, hat, hu⟩
  | group slot g steps =>
    cases place with
    | cons i place => exact ⟨u, hat, hu⟩
    | nil =>
      cases hat
      exact ⟨_, rfl, hs⟩

/-! ## Events that look at the playlist -/

/-- What an event makes of a group that nobody has entered. -/
def Approaches (id : PlaylistId) (place : List Nat) (t : Step) (e e' : Engine) : Prop :=
  e'.HoldsAt Unentered id place ∨ EnteredBetween id place t e.world e'.world

/-- A task looks at the playlist, or enters nothing. -/
theorem perform_approaches (hp : e.playlists[id]? = some p) (h : Expects p.root place t e.world)
    (hk : t.isParallel = true) (task : Task) : Approaches id place t e (e.perform task).1 := by
  obtain ⟨u, hat, -, hu⟩ := h.stands
  have hs {w : World} : Step.HoldsAt Unentered place p.root w := ⟨u, hat, hu⟩
  cases task with
  | timer n => exact .inl (unentered_withSettled hp hs _)
  | listener r => exact .inl (unentered_withSettled hp hs _)
  | group id' below =>
    simp only [perform]
    cases hp' : e.playlists[id']? with
    | none => exact .inl ⟨p, hp, hs⟩
    | some p' =>
      by_cases hid : id = id'
      · subst hid
        obtain rfl := Option.some.inj (hp.symm.trans hp')
        refine (h.pollPlace hk below (rootSite id)).imp (fun hnears => ?_) fun h => h
        exact ⟨_, getElem?_modify_own hp _, hnears.2⟩
      · exact .inl ⟨p, getElem?_modify_other hp hid _, hs⟩

theorem runTask_approaches (hp : e.playlists[id]? = some p) (h : Expects p.root place t e.world)
    (hk : t.isParallel = true) (task : Task) {w : World} (hi : w.instances = e.world.instances)
    (hb : w.begun = e.world.begun) :
    Approaches id place t e (({ e with world := w } : Engine).runTask task) := by
  let running : Engine := { e with world := { w with running := some task, rewoken := false } }
  obtain ⟨hinstances, hbegun, -⟩ := World.stop_frame (running.perform task).1.world task
    (running.perform task).2
  refine (perform_approaches (e := running) hp (h.of_same hi hb) hk task).imp
    (fun ⟨q, hq, hat⟩ => ⟨q, hq, hat⟩) fun hentered => ?_
  exact (hentered.before (.of_same hi hb)).after (hbegun ▸ List.prefix_refl _)

/-- An event looks at the playlist, and so comes to the group or not, or it enters nothing. -/
theorem apply_approaches (hp : e.playlists[id]? = some p)
    (hexpects : Expects p.root place t e.world) (hk : t.isParallel = true) (event : Event) :
    Approaches id place t e (e.apply event) := by
  obtain ⟨u, hat, -, hu⟩ := hexpects.stands
  have hs {w : World} : Step.HoldsAt Unentered place p.root w := ⟨u, hat, hu⟩
  cases event with
  | build | endAction | emit | useBus | releaseBus | moveClock => exact .inl ⟨p, hp, hs⟩
  | settle a s => exact .inl (unentered_withSettled hp hs _)
  | compile c d =>
    left
    rcases e.apply_compile c d with heq | ⟨e', id', hr, -, heq⟩ <;> rw [heq]
    · exact ⟨p, hp, hs⟩
    · obtain ⟨root, shop, -, -, rfl, -⟩ := compile_known hr
      exact ⟨p, (List.getElem?_append_left (List.getElem?_eq_some_iff.1 hp).1).trans hp, hs⟩
  | play id' input inRuntime =>
    left
    rcases e.apply_play id' input inRuntime with heq | ⟨-, p', hp', -, heq⟩ <;> rw [heq]
    · exact ⟨p, hp, hs⟩
    · refine holdsAt_modify hp hs fun hid => ?_
      subst hid
      exact unentered_withStage rfl hs
  | cloneHandle id' => exact .inl (holdsAt_modify hp hs fun _ => hs)
  | dropHandle id' =>
    refine .inl (holdsAt_modify hp hs fun _ => ?_)
    dsimp only
    split
    · split
      · exact unentered_withStage rfl hs
      · exact hs
    · exact hs
  | pollCompletion id' =>
    simp only [Engine.apply, Engine.pollCompletion]
    cases hp' : e.playlists[id']? with
    | none => exact .inl ⟨p, hp, hs⟩
    | some p' =>
      by_cases hid : id = id'
      · subst hid
        obtain rfl := Option.some.inj (hp.symm.trans hp')
        refine (hexpects.pollWithin hk (rootSite id) none (Nat.le_refl _)).imp (fun hnears => ?_)
          fun hentered => hentered
        exact ⟨_, getElem?_modify_own hp _, hnears.2⟩
      · exact .inl ⟨p, getElem?_modify_other hp hid _, hs⟩
  | run queue index =>
    rcases e.apply_run queue index with heq | ⟨task, -, heq⟩ <;> rw [heq]
    · exact .inl ⟨p, hp, hs⟩
    · exact runTask_approaches hp hexpects hk task rfl rfl

end Engine

namespace Production

open Engine Step

variable {P : Production} {place : List Nat} {event : Event} {slot : Slot} {g : Group}
  {steps : List Step} {t : Step}

/-- A parallel group that nobody has entered, and whose leaves are its own. -/
theorem expects (hat : P.at? place = some (.group slot g steps))
    (hsole : ∀ a ∈ leavesList steps, P.engine.leaves.count a = 1)
    (hs : g.stage.isStarted = false) : ∃ p, P.engine.playlists[P.id]? = some p ∧
      Expects p.root place (.group slot g steps) P.engine.world := by
  obtain ⟨p, hp, hplace⟩ := Option.bind_eq_some_iff.1 hat
  refine ⟨p, hp, ⟨P.sound.arrayed _ p hp, fun a ha => ?_, P.sound.logged, fun a ha => ?_, _,
    hplace, rfl, hs⟩⟩
  · exact Nat.le_trans ((leaves_sublist (mem_roots hp)).count_le a) (Nat.le_of_eq (hsole a ha))
  · have huntouched : ∀ s ∈ steps, s.Untouched (P.engine.scene (fun _ => False) P.id) := by
      rcases (known_at? P.sound hat).1 with ⟨v, hent⟩ | hu | hd
      · have hr : g.Runs _ place v steps _ _ := hent
        cases hstage : g.stage with
        | created => exact absurd hstage hr.created
        | expired => exact absurd hstage hr.expired
        | triggered v => exact (hr.triggered v hstage).2.2
        | running | finished =>
          rw [hstage] at hs
          cases hs
      · exact hu.child
      · exact hd.2.2.2.2
    have ha : a ∈ leavesList steps := ha
    obtain ⟨s, hm, ha'⟩ := List.mem_flatMap.1 (leavesList_eq steps ▸ ha)
    exact ((huntouched s hm).2 a ha' (Nat.le_of_eq (hsole a ha))).1

/-- The event with which a parallel group is entered takes one look that enters it.  Its leaves
begin first, in the order of the branches; then the look comes to nested branches, in their order,
which begin with their first leaf; and a branch that it does not come to is left to its own task.
A look goes on until everything that it comes to has to wait: the runtime's budget for one run of a
task, of which every branch that starts takes a unit, is not modelled. -/
theorem groupStart_spec (P : Production) (event : Event)
    (hat : P.at? place = some (.group slot g steps)) (hk : g.kind ≠ .sequence)
    (hsole : ∀ a ∈ leavesList steps, P.engine.leaves.count a = 1)
    (hs : g.stage.isStarted = false)
    (hat' : (P.next event).at? place = some t) (hs' : t.stage.isStarted = true) :
    ∃ E : Entrance, E.site.playlist = P.id ∧ E.site.place = place ∧ E.group.kind = g.kind ∧
      resetList E.steps = resetList steps ∧
      World.Avoids (leavesList steps) P.engine.world E.world ∧
      E.polled.world.begun <+: (P.next event).engine.world.begun ∧ E.Onset := by
  obtain ⟨p, hp, hexpects⟩ := expects hat hsole hs
  rw [P.next_engine]
  rcases apply_approaches hp hexpects (decide_eq_true hk) event with hstill | hentered
  · obtain ⟨q, hq, u, hu, hfalse⟩ := hstill
    have hfalse : u.stage.isStarted = false := hfalse
    rw [at?, P.next_engine, show (P.next event).id = P.id from rfl, hq, Option.bind_some,
      hu] at hat'
    cases hat'
    rw [hs'] at hfalse
    cases hfalse
  · obtain ⟨E, hE, hid, hplace, hreset, hbefore, hafter⟩ := hentered
    obtain ⟨-, hfresh, hsteps⟩ := Step.group.inj hreset
    exact ⟨E, hid, hplace, (Group.mk.inj hfresh).1, hsteps, hbefore, hafter, hE.onset⟩

/-- A parallel group in an engine of its own, which has been played and not yet been entered. -/
def ofBranches (actions : List Action) (policy : FailurePolicy)
    (branches : List (String × Descriptor))
    (knows : ((Engine.ofCapacity 1).after (actions.map .build)).Knows (.parallel branches))
    (compiles : (((⟨.empty, { Config.default with parallelFailure := policy }⟩ : Compiler).compile
      (.parallel branches) ((Engine.ofCapacity 1).after
        (actions.map .build))).result.toOption.map Prod.snd) = some 0) : Production :=
  ofCompile 1 (actions.map .build) ⟨.empty, { Config.default with parallelFailure := policy }⟩
    (.parallel branches) 0 [.play 0 .null true] knows compiles

/-- A leaf stands behind a nested branch. -/
def leafBehind : Production :=
  ofBranches [.inert, .inert] .failFast [("a", .sequence [.instance 0]), ("b", .instance 1)]
    (by decide +kernel) (by decide +kernel)

/-- Whether the step is a parallel group of branches with these leaves, each of which opens with a
leaf.  It has been entered or not as `started` says. -/
def isParallelOf (started : Bool) (leaves : List (List ActionId)) : Step → Bool
  | .leaf _ _ => false
  | .group _ g steps => decide (g.kind ≠ .sequence ∧ g.stage.isStarted = started ∧
      steps.map Step.leaves = leaves ∧ steps.all opensWithLeaf = true)

/-- With the event the outermost group is entered, a parallel group whose branches have these leaves
and open with leaves. -/
def EntersWith (P : Production) (event : Event) (leaves : List (List ActionId)) : Prop :=
  (∃ s ∈ P.at? [], isParallelOf false leaves s = true) ∧
    ∃ s ∈ (P.next event).at? [], isParallelOf true leaves s = true

instance (P : Production) (event : Event) (leaves : List (List ActionId)) :
    Decidable (P.EntersWith event leaves) :=
  inferInstanceAs (Decidable (_ ∧ _))

/-- The leaf behind the nested branch begins first, and the first leaf of that branch second. -/
theorem groupStart_spec_leafBehind :
    (leafBehind.next (.run .arrivals 0)).engine.world.begun.map Prod.fst = [1, 0] ∧
      ∃ slot g steps t, leafBehind.at? [] = some (.group slot g steps) ∧ g.kind ≠ .sequence ∧
        (∀ a ∈ leavesList steps, leafBehind.engine.leaves.count a = 1) ∧
        g.stage.isStarted = false ∧ (leafBehind.next (.run .arrivals 0)).at? [] = some t ∧
        t.stage.isStarted = true ∧
        ∃ E : Entrance, E.site.playlist = 0 ∧ E.site.place = [] ∧ E.group.kind = g.kind ∧
          resetList E.steps = resetList steps ∧
          World.Avoids (leavesList steps) leafBehind.engine.world E.world ∧
          E.polled.world.begun <+: (leafBehind.next (.run .arrivals 0)).engine.world.begun ∧
          E.Onset := by
  refine ⟨by decide +kernel, ?_⟩
  obtain ⟨⟨s, hat, hs⟩, t, hat', ht⟩ :
      leafBehind.EntersWith (.run .arrivals 0) [[0], [1]] := by decide +kernel
  cases s with
  | leaf => cases hs
  | group slot g steps =>
    cases t with
    | leaf => cases ht
    | group slot' g' steps' =>
      obtain ⟨hk, hstage, hleaves, -⟩ := of_decide_eq_true hs
      obtain ⟨-, hstage', -⟩ := of_decide_eq_true ht
      have hsole : ∀ a ∈ leavesList steps, leafBehind.engine.leaves.count a = 1 := by
        rw [leavesList_eq, List.flatMap_def, hleaves]
        decide +kernel
      exact ⟨slot, g, steps, _, hat, hk, hsole, hstage, hat', hstage',
        groupStart_spec leafBehind (.run .arrivals 0) hat hk hsole hstage hat' hstage'⟩

/-- The first branch fails at once. -/
def failsBefore : Production :=
  ofBranches [.stop "no", .inert] .failFast [("a", .instance 0), ("b", .sequence [.instance 1])]
    (by decide +kernel) (by decide +kernel)

/-- The first two branches wake the group while it looks at them. -/
def wakesTwice : Production :=
  ofBranches [.emitSignal ⟨"go", .complete .null⟩, .inert, .emitSignal ⟨"go", .complete .null⟩,
      .inert, .inert] .settleAll
    [("a", .sequence [.sequence [.instance 0], .instance 1]),
      ("b", .sequence [.sequence [.instance 2], .instance 3]), ("c", .sequence [.instance 4])]
    (by decide +kernel) (by decide +kernel)

/-- Branches do not begin in their order when a leaf stands behind a nested branch; and not all of
them begin when the group is entered, if a branch fails at once, or if two of them wake the
group. -/
theorem branches_begin_out_of_order :
    (leafBehind.EntersWith (.run .arrivals 0) [[0], [1]] ∧
      ¬World.Precedes [0] [1] (leafBehind.next (.run .arrivals 0)).engine.world.begun) ∧
    (failsBefore.EntersWith (.run .arrivals 0) [[0], [1]] ∧
      ∀ b ∈ (failsBefore.next (.run .arrivals 0)).engine.world.begun, b.1 ≠ 1) ∧
    wakesTwice.EntersWith (.run .arrivals 0) [[0, 1], [2, 3], [4]] ∧
      ∀ b ∈ (wakesTwice.next (.run .arrivals 0)).engine.world.begun, b.1 ≠ 4 := by
  decide +kernel

end Production

end Rundown
