import Rundown.Proofs.Engine.Live

/-!
# Engines that nobody disturbs

`Engine.Undisturbed` describes the engines in which everything goes by itself: actions that do plain
things are built, playlists are compiled and played, tasks run in their order and the clock moves
when no task waits; but nobody settles a completion or sends a signal from outside.  In such an
engine every begin is looked after (`Engine.Undisturbed.tended`).
-/

namespace Rundown

namespace World

variable {w : World} {since : ActionId → Nat} {due : Task → Prop} {actions : List Action}
  {busHolders : Nat} {a : ActionId} {b : ActionId × Json} {s : Signal}

/-! ## Further actions -/

theorem getElem?_withActions : (w.withActions actions busHolders).instances[a]? =
    w.instances[a]?.or (actions[a - w.instances.length]?.map fun action =>
      ⟨action, false, none, 1⟩) := by
  rw [withActions, List.getElem?_append]
  split
  next hlt => rw [List.getElem?_eq_getElem hlt, Option.some_or]
  next hge => rw [List.getElem?_eq_none (Nat.not_lt.1 hge), Option.none_or, List.getElem?_map]

theorem settlement?_withActions :
    (w.withActions actions busHolders).settlement? a = w.settlement? a := by
  rw [settlement?, settlement?, getElem?_withActions]
  cases w.instances[a]? with
  | some i => rfl
  | none => cases actions[a - w.instances.length]? <;> rfl

theorem started?_withActions : (w.withActions actions busHolders).started? a = some true ↔
    w.started? a = some true := by
  rw [started?, started?, getElem?_withActions]
  cases w.instances[a]? with
  | some i => rfl
  | none => cases actions[a - w.instances.length]? <;> simp

theorem effects_withActions (hb : b.1 < w.actions.length) :
    (w.withActions actions busHolders).effects b = w.effects b := by
  rw [effects, effects, actions_withActions, List.getElem?_append_left hb]

/-- What was sent does not change by actions that have not begun. -/
theorem sent_withActions (h : w.Logged) :
    (w.withActions actions busHolders).Sent a s ↔ w.Sent a s := by
  constructor
  · rintro ⟨c, hc, he⟩
    have hc : w.After a c := hc
    exact ⟨c, hc, effects_withActions (h.lt hc.mem_right) ▸ he⟩
  · rintro ⟨c, hc, he⟩
    exact ⟨c, hc, (effects_withActions (h.lt hc.mem_right)).symm ▸ he⟩

theorem unaffected_withActions (h : w.Logged) :
    Unaffected w (w.withActions actions busHolders) a where
  begun _ hu := hu
  effects _ hu := effects_withActions (h.lt hu)
  settlement := settlement?_withActions

/-- Actions that do plain things are added. -/
theorem Tended.withActions (h : w.Tended since due)
    (hplain : ∀ action ∈ actions, ∀ v, Plain (action.onBegin v)) (busHolders : Nat) :
    (w.withActions actions busHolders).Tended since due where
  tidy := h.tidy
  capacity := h.capacity
  logged := ⟨h.logged.once, fun b hb => started?_withActions.2 (h.logged.started b hb)⟩
  listed a ha := h.listed a (started?_withActions.1 ha)
  unsettled a ha := by
    rw [settlement?_withActions]
    exact h.unsettled a fun hs => ha (started?_withActions.2 hs)
  newcomers a ha := h.newcomers a fun hs => ha (started?_withActions.2 hs)
  plain b hb := by
    rcases Nat.lt_or_ge b.1 w.actions.length with hlt | hge
    · rw [effects_withActions hlt]
      exact h.plain b hlt
    · rw [actions_withActions, List.length_append] at hb
      have hnew : b.1 - w.actions.length < actions.length := Nat.sub_lt_left_of_lt_add hge hb
      rw [effects, actions_withActions, List.getElem?_append_right hge,
        List.getElem?_eq_getElem hnew]
      exact hplain _ (List.getElem_mem hnew) b.2
  nextTimer := h.nextTimer
  timerIds := h.timerIds
  timerActions := h.timerActions
  timers t ht := (h.timers t ht).of_unaffected (unaffected_withActions h.logged) rfl id
  receivers := h.receivers
  listenerActions := h.listenerActions
  listeners l hl := (h.listeners l hl).of_unaffected (unaffected_withActions h.logged)
    (fun _ => sent_withActions h.logged) (fun _ => .rfl) rfl id
  honours b hb := (h.honours b hb).of_unaffected hb (unaffected_withActions h.logged) rfl
    (fun _ => (sent_withActions h.logged).2) (fun t ht ha => ⟨t, ht, ha⟩) fun l hl ha => ⟨l, hl, ha⟩

/-- In the world as it is made, there is nothing to look after. -/
theorem tended_ofCapacity {capacity : Nat} (hcapacity : capacity ≠ 0) :
    (ofCapacity capacity).Tended (fun _ => 0) due where
  tidy := Bus.tidy_ofCapacity capacity
  capacity := hcapacity
  logged := ⟨List.nodup_nil, fun b hb => by cases hb⟩
  listed a ha := by cases ha
  unsettled a _ := rfl
  newcomers a _ := rfl
  plain b hb := absurd hb (Nat.not_lt_zero b.1)
  nextTimer t ht := by cases ht
  timerIds t ht := by cases ht
  timerActions t ht := by cases ht
  timers t ht := by cases ht
  receivers l hl := by cases hl
  listenerActions l hl := by cases hl
  listeners l hl := by cases hl
  honours b hb := by cases hb

end World

namespace Engine

variable {e e' : Engine} {since : ActionId → Nat} {c : Compiler} {d : Descriptor}
  {id : PlaylistId} {input : Json} {action : Action}

/-- An engine in which actions do plain things, and nobody acts on completions or signals from
outside. -/
inductive Undisturbed : Engine → Prop where
  | start {capacity : Nat} (hcapacity : capacity ≠ 0) : Undisturbed (ofCapacity capacity)
  | build {e : Engine} {action : Action} (h : Undisturbed e)
    (hplain : ∀ v, Plain (action.onBegin v)) : Undisturbed (e.apply (.build action))
  | compile {e e' : Engine} {c : Compiler} {d : Descriptor} {id : PlaylistId} (h : Undisturbed e)
    (hplain : ∀ ref ∈ d.refs, ∀ action, c.Builds ref action → ∀ v, Plain (action.onBegin v))
    (hknows : e.Knows d) (hresult : (c.compile d e).result = .ok (e', id)) : Undisturbed e'
  | play {e : Engine} (h : Undisturbed e) (id : PlaylistId) (input : Json) (inRuntime : Bool) :
    Undisturbed (e.apply (.play id input inRuntime))
  | tick {e : Engine} (h : Undisturbed e) : Undisturbed e.tick
  | rest {e : Engine} (h : Undisturbed e) (hquiet : e.Quiescent) {now : Nat}
    (hnow : e.world.clock ≤ now) : Undisturbed (e.apply (.moveClock now))

theorem tended_ofCapacity {capacity : Nat} (hcapacity : capacity ≠ 0) :
    Tended (fun _ => 0) (ofCapacity capacity) where
  sound := .ofCapacity capacity
  world := World.tended_ofCapacity hcapacity

theorem Tended.build (h : Tended since e) (hplain : ∀ v, Plain (action.onBegin v)) :
    Tended since (e.apply (.build action)) where
  sound := (h.sound.apply (.build action)).1
  world :=
    have hall : ∀ action' ∈ [action], ∀ v, Plain (action'.onBegin v) :=
      fun _ hm => List.mem_singleton.1 hm ▸ hplain
    h.world.withActions hall _

theorem Tended.compile (h : Tended since e)
    (hplain : ∀ ref ∈ d.refs, ∀ action, c.Builds ref action → ∀ v, Plain (action.onBegin v))
    (hknows : e.Knows d) (hresult : (c.compile d e).result = .ok (e', id)) : Tended since e' := by
  refine ⟨(h.sound.compile hknows hresult).1, ?_⟩
  obtain ⟨root, shop, hrooted, -, rfl, -⟩ := compile_known hresult
  obtain ⟨actions, hactions, hbuilds⟩ := hrooted.grown.built
  have hactions : Compiler.built shop.calls = actions := hactions
  obtain ⟨holders, hadded⟩ := Compiler.addActions_eq shop.calls e.world
  rw [hadded, hactions]
  refine h.world.withActions (fun action haction v => ?_) holders
  obtain ⟨i, hi, rfl⟩ := List.mem_iff_getElem.1 haction
  have hlt : i < d.refs.length := hbuilds.length_eq ▸ hi
  exact hplain _ (List.get_mem d.refs ⟨i, hlt⟩) _ ((List.forall₂_iff_get.1 hbuilds).2 i hlt hi) v

/-- Playing makes a task ready and is else no concern of the world. -/
theorem play_world (e : Engine) (id : PlaylistId) (input : Json) (inRuntime : Bool) :
    (e.play id input inRuntime).1.world = e.world ∨
      (e.play id input inRuntime).1.world = e.world.schedule (rootSite id).task := by
  unfold play
  split
  · exact .inl rfl
  · split
    · exact .inr rfl
    · exact .inl rfl

theorem Tended.play (h : Tended since e) (id : PlaylistId) (input : Json) (inRuntime : Bool) :
    Tended since (e.apply (.play id input inRuntime)) := by
  refine ⟨(h.sound.apply (.play id input inRuntime)).1, ?_⟩
  rw [apply]
  rcases play_world e id input inRuntime with heq | heq
  · rw [heq]
    exact h.world
  · rw [heq]
    refine (h.world.requeue (.schedule _ _)).mono ?_
    exact (World.schedule_keeps e.world _ fun _ => False).due

theorem Tended.tick (h : Tended since e) : ∃ since, Tended since e.tick := by
  rw [Engine.tick]
  cases hn : e.next? with
  | some e' => exact ⟨since, (h.next hn).1⟩
  | none =>
    have hquiet := next?_eq_none_iff.1 hn
    cases hnow : e.world.nextDeadline with
    | none => exact ⟨since, h⟩
    | some now =>
      exact ⟨_, h.moveClock hquiet (Nat.le_of_lt (h.clock_lt_nextDeadline hquiet hnow))⟩

/-- In an engine that nobody disturbs every begin is looked after. -/
theorem Undisturbed.tended (h : Undisturbed e) : ∃ since, Tended since e := by
  induction h with
  | start hcapacity => exact ⟨_, tended_ofCapacity hcapacity⟩
  | build _ hplain ih =>
    obtain ⟨since, h⟩ := ih
    exact ⟨since, h.build hplain⟩
  | compile _ hplain hknows hresult ih =>
    obtain ⟨since, h⟩ := ih
    exact ⟨since, h.compile hplain hknows hresult⟩
  | play _ id input inRuntime ih =>
    obtain ⟨since, h⟩ := ih
    exact ⟨since, h.play id input inRuntime⟩
  | tick _ ih =>
    obtain ⟨since, h⟩ := ih
    exact h.tick
  | rest _ hquiet hnow ih =>
    obtain ⟨since, h⟩ := ih
    exact ⟨_, h.moveClock hquiet hnow⟩

end Engine

end Rundown
