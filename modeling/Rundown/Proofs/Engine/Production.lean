import Rundown.Proofs.Engine.Turn
import Rundown.Proofs.Playlist.Lead

/-!
# Productions

A production is a playlist with all that happened to it and around it: the history of the engine
before its descriptor was compiled, and the history since.  `Production.stands` and
`Production.entered` are what every production satisfies.
-/

namespace Rundown

instance (settled : Option Settlement) (err : ActionError) :
    Decidable (settled = some (.error err)) :=
  match settled with
  | some (.error err') => decidable_of_iff (err' = err) (by simp)
  | some (.ok _) => isFalse fun h => by cases h
  | none => isFalse fun h => by cases h

/-- A playlist that was compiled into an engine, and the histories before and since. -/
structure Production where
  capacity : Nat
  before : List Event
  compiler : Compiler
  descriptor : Descriptor
  compiled : Engine
  id : PlaylistId
  knows : ((Engine.ofCapacity capacity).after before).Knows descriptor
  compiles : (compiler.compile descriptor ((Engine.ofCapacity capacity).after before)).result =
    .ok (compiled, id)
  history : List Event

namespace Production

open Engine Step

/-- The production of a descriptor that compiles, whose playlist gets the given number. -/
def ofCompile (capacity : Nat) (before : List Event) (compiler : Compiler)
    (descriptor : Descriptor) (id : PlaylistId) (history : List Event)
    (knows : ((Engine.ofCapacity capacity).after before).Knows descriptor)
    (compiles : ((compiler.compile descriptor
      ((Engine.ofCapacity capacity).after before)).result.toOption.map Prod.snd) = some id) :
    Production where
  capacity := capacity
  before := before
  compiler := compiler
  descriptor := descriptor
  compiled := ((compiler.compile descriptor
    ((Engine.ofCapacity capacity).after before)).result.toOption.map Prod.fst).getD
      (Engine.ofCapacity capacity)
  id := id
  knows := knows
  compiles := by
    rcases hr : (compiler.compile descriptor
      ((Engine.ofCapacity capacity).after before)).result with error | ⟨compiled, id'⟩
    · rw [hr] at compiles
      cases compiles
    · rw [hr] at compiles
      cases compiles
      rfl
  history := history

/-- The engine before the descriptor was compiled. -/
def vacant (P : Production) : Engine := (Engine.ofCapacity P.capacity).after P.before

/-- The engine as the history leaves it. -/
def engine (P : Production) : Engine := P.compiled.after P.history

/-- What the playlist is to do. -/
def plan (P : Production) : Plan := P.descriptor.plan P.vacant.world.instances.length

/-- What the completions have settled with. -/
def settled (P : Production) : Settlements := P.engine.world.settlement?

/-- The step of the playlist that is reached by the given indices. -/
def at? (P : Production) (place : List Nat) : Option Step :=
  P.engine.playlists[P.id]?.bind fun p => p.root.at? place

/-- The same production after another history. -/
def upTo (P : Production) (history : List Event) : Production := { P with history := history }

/-- The same production after one more event. -/
def next (P : Production) (event : Event) : Production := P.upTo (P.history ++ [event])

/-- No action of the playlist belongs to two leaves. -/
def Distinct (P : Production) : Prop := ∀ a ∈ P.plan.leaves, P.engine.leaves.count a = 1

instance (P : Production) : Decidable P.Distinct :=
  inferInstanceAs (Decidable (∀ a ∈ P.plan.leaves, P.engine.leaves.count a = 1))

/-- The playlist was successfully played with this input in the course of the history. -/
def Played (P : Production) (input : Json) : Prop :=
  ∃ earlier later, P.history = earlier ++ .play P.id input true :: later ∧
    ((P.compiled.after earlier).play P.id input true).2 = .ok ()

/-- A sequence around a group of branches `0`, `1` and so on. -/
def sideBySide (width : Nat) : Descriptor :=
  .sequence [.parallel ((List.range width).map fun i => (toString i, .instance i))]

theorem instancesBranches_instance (key : ActionId → String) (actions : List ActionId) :
    Descriptor.instancesBranches (actions.map fun a => (key a, .instance a)) = actions := by
  induction actions with
  | nil => rfl
  | cons a rest ih =>
    rw [List.map_cons, Descriptor.instancesBranches, ih]
    rfl

theorem length_instances_build (action : Action) (width : Nat) (e : Engine) :
    (e.after (List.replicate width (.build action))).world.instances.length =
      e.world.instances.length + width := by
  induction width generalizing e with
  | zero => rfl
  | succ width ih =>
    rw [List.replicate_succ, after_cons, ih]
    simp [apply, World.addAction]
    omega

theorem knows_sideBySide (capacity width : Nat) (action : Action) :
    ((Engine.ofCapacity capacity).after (List.replicate width (.build action))).Knows
      (sideBySide width) := by
  intro a ha
  simp only [sideBySide, Descriptor.instances, Descriptor.instancesNodes,
    instancesBranches_instance, List.append_nil, List.mem_range] at ha
  rw [length_instances_build]
  exact Nat.lt_add_left _ ha

/-- The production of inert actions side by side. -/
def ofWidth (width : Nat) (compiler : Compiler) (history : List Event)
    (compiles : ((compiler.compile (sideBySide width) ((Engine.ofCapacity 1).after
      (List.replicate width (.build .inert)))).result.toOption.map Prod.snd) = some 0) :
    Production :=
  ofCompile 1 (List.replicate width (.build .inert)) compiler (sideBySide width) 0 history
    (knows_sideBySide 1 width .inert) compiles

/-- What is known of the playlist's outermost step, whatever has happened. -/
structure Stands (P : Production) (lead : ActionId → Prop) (root : Step) : Prop where
  group : root.isLeaf = false
  known : root.Known (P.engine.scene lead P.id) []
  plan : root.plan = P.plan ∨ root.plan = .sequence [P.plan]
  under : root.Under P.compiler.config.parallelFailure
  leaves : root.leaves = P.plan.leaves

variable {P : Production} {lead : ActionId → Prop} {input : Json}

theorem upTo_after (P : Production) {earlier later : List Event}
    (h : P.history = earlier ++ later) : (P.upTo earlier).engine.after later = P.engine := by
  unfold engine
  rw [h, after_append]
  rfl

theorem next_engine (P : Production) (event : Event) :
    (P.next event).engine = P.engine.apply event := by
  show P.compiled.after (P.history ++ [event]) = _
  rw [after_append, after_cons]
  rfl

theorem compiled_sound (P : Production) : Sound (fun _ => False) P.compiled :=
  (((Sound.ofCapacity P.capacity).after P.before).1.compile P.knows P.compiles).1

theorem sound (P : Production) : Sound (fun _ => False) P.engine :=
  (P.compiled_sound.after P.history).1

/-- The playlist is still there, and it consists of what it was compiled to. -/
theorem exists_playlist (P : Production) :
    ∃ p root shop, P.engine.playlists[P.id]? = some p ∧ p.root.reset = root.reset ∧
      P.compiler.Rooted P.descriptor ⟨P.vacant.world.instances.length, []⟩ root shop := by
  obtain ⟨root, shop, hrooted, hid, hcompiled, -⟩ := compile_known P.compiles
  have hp : P.compiled.playlists[P.id]? = some ⟨P.descriptor, root, 1⟩ := by
    rw [hcompiled, hid, List.getElem?_append_right (Nat.le_refl _), Nat.sub_self]
    rfl
  obtain ⟨p, hp', hb⟩ := (P.compiled_sound.after P.history).2.each P.id _ hp
  exact ⟨p, root, shop, hp', hb.reset, hrooted⟩

theorem stands (h : Sound lead P.engine) {p : Playlist} (hp : P.engine.playlists[P.id]? = some p) :
    P.Stands lead p.root := by
  obtain ⟨p', root, shop, hp', hreset, hrooted⟩ := P.exists_playlist
  obtain rfl := Option.some.inj (hp'.symm.trans hp)
  obtain ⟨hgroup, hknown⟩ := h.known P.id _ hp
  refine ⟨hgroup, hknown, ?_, (under_congr hreset).2 hrooted.under,
    (leaves_congr hreset).trans hrooted.leaves⟩
  rw [plan_congr hreset, hrooted.plan]
  exact P.descriptor.rootPlan_eq_or _

/-- A playlist that was played is entered with its input. -/
theorem entered (h : P.Played input) : ∃ p, P.engine.playlists[P.id]? = some p ∧
    p.root.Entered (P.engine.scene (fun _ => False) P.id) [] input := by
  obtain ⟨earlier, later, hhistory, hok⟩ := h
  have hearlier := (P.compiled_sound.after earlier).1
  rcases hplay : (P.compiled.after earlier).play P.id input true with ⟨played, _ | ⟨⟩⟩
  · rw [hplay] at hok
    cases hok
  · obtain ⟨hsound, -, p, hp, hent⟩ := hearlier.play_entered hplay
    have hengine : P.engine = played.after later := by
      rw [engine, hhistory, after_append, after_cons, apply, hplay]
    obtain ⟨p', hp', hb⟩ := (hsound.after later).2.each P.id p hp
    rw [hengine]
    exact ⟨p', hp', hb.entered input hent⟩

/-- A step of the playlist, with what is known of it. -/
theorem known_at? (h : Sound (fun _ => False) P.engine) {place : List Nat} {s : Step}
    (hat : P.at? place = some s) :
    s.Known (P.engine.scene (fun _ => False) P.id) place ∧
      s.Under P.compiler.config.parallelFailure := by
  obtain ⟨p, hp, hat⟩ := Option.bind_eq_some_iff.1 hat
  have hstands := stands h hp
  exact ⟨hstands.known.at? hat, at?_under hat hstands.under⟩

/-- A step inside a step stands in a group. -/
theorem at?_above {place : List Nat} {i : Nat} {s : Step} (h : P.at? (place ++ [i]) = some s) :
    ∃ slot g steps, P.at? place = some (.group slot g steps) ∧ s ∈ steps := by
  obtain ⟨p, hp, hat⟩ := Option.bind_eq_some_iff.1 h
  rw [at?_append] at hat
  obtain ⟨t, ht, hat⟩ := Option.bind_eq_some_iff.1 hat
  cases t with
  | leaf => cases hat
  | group slot g steps =>
    obtain ⟨u, hi, hu⟩ := Option.bind_eq_some_iff.1 hat
    cases hu
    refine ⟨slot, g, steps, ?_, List.mem_of_getElem? hi⟩
    rw [at?, hp]
    exact ht

theorem Stands.sole {root : Step} (h : P.Stands lead root) (hdistinct : P.Distinct) :
    ∀ a ∈ root.leaves, (P.engine.scene lead P.id).sole a := fun a ha =>
  Nat.le_of_eq (hdistinct a (h.leaves ▸ ha))

end Production

/-- When no task waits, none is due. -/
theorem Engine.Sound.atRest {lead : ActionId → Prop} {e : Engine} (h : Engine.Sound lead e)
    (hquiet : e.Quiescent) (id : PlaylistId) : (e.scene lead id).AtRest := by
  rintro t (ht | ht | ⟨ht, -⟩)
  · rw [hquiet.1] at ht
    cases ht
  · rw [hquiet.2] at ht
    cases ht
  · rw [h.idle] at ht
    cases ht

end Rundown
