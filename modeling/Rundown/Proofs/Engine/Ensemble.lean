import Rundown.Proofs.Compiler.Renumbered
import Rundown.Proofs.Engine.ExcerptEvents

/-!
# Ensembles

An ensemble consists of playlists that are compiled one after another into one engine, with one bus,
in which some actions have been built before.  Each member could be compiled into such an engine
alone (`Ensemble.only`): it would get the same tree, with other numbers for the actions that
compiling builds (`Ensemble.renumber`).  If a member shares no actions and no signal names with the
others, then the engine of the ensemble shows of it what the engine has in which it is alone
(`Ensemble.mirrors`).
-/

namespace Rundown

/-! ## Worlds in which nothing has happened -/

namespace World

/-- Actions have been built, and nothing else has happened. -/
def Fresh (capacity : Nat) (w : World) : Prop := ∃ (actions : List Action) (holders : Nat),
  w = { ofCapacity capacity with
    instances := actions.map fun action => ⟨action, false, none, 1⟩
    busHolders := holders }

variable {capacity : Nat} {w : World}

theorem Fresh.ofCapacity (capacity : Nat) : Fresh capacity (ofCapacity capacity) := ⟨[], 1, rfl⟩

theorem Fresh.addAction (h : Fresh capacity w) (action : Action) :
    Fresh capacity (w.addAction action).1 := by
  obtain ⟨actions, holders, rfl⟩ := h
  refine ⟨actions ++ [action], if action.holdsBus then holders + 1 else holders, ?_⟩
  simp only [World.addAction, List.map_append, List.map_cons, List.map_nil]

theorem Fresh.addActions (h : Fresh capacity w) (calls : List Construction) :
    Fresh capacity (Compiler.addActions calls w) := by
  obtain ⟨holders', hadded⟩ := Compiler.addActions_eq calls w
  obtain ⟨actions, holders, rfl⟩ := h
  exact ⟨_, holders', hadded.trans (withActions_withActions _ actions _ _ _)⟩

theorem Fresh.instance_eq (h : Fresh capacity w) (a : ActionId) :
    w.instances[a]? = w.actions[a]?.map fun action => ⟨action, false, none, 1⟩ := by
  obtain ⟨actions, holders, rfl⟩ := h
  simp [World.actions, Function.comp_def]

end World

/-! ## Assembling -/

/-- What the members of an ensemble are compiled from. -/
abbrev Member := Compiler × Descriptor

/-- Playlists that are compiled in their order, after the actions of `stock` have been built. -/
structure Ensemble where
  capacity : Nat
  stock : List Action
  members : List Member

namespace Ensemble

open Engine Step

variable (E : Ensemble)

/-- The engine before anything is compiled. -/
def start : Engine := (Engine.ofCapacity E.capacity).after (E.stock.map .build)

/-- The engine with all members. -/
def engine : Engine := E.start.after (E.members.map fun m => .compile m.1 m.2)

/-- The ensemble of one member alone. -/
def only (m : Member) : Ensemble := { E with members := [m] }

/-- Every member can be compiled, and the actions that it holds have been built. -/
structure Compiles : Prop where
  knows : ∀ m ∈ E.members, E.start.Knows m.2
  compiles : ∀ m ∈ E.members, ∃ result, (m.1.compile m.2 E.start).result = .ok result

/-- The number of actions that are built for the first `k` members. -/
def builtBefore (k : Nat) : Nat := ((E.members.take k).flatMap fun m => m.2.refs).length

/-- What has become of the members that have been compiled. -/
structure Assembled (e : Engine) : Prop where
  fresh : e.world.Fresh E.capacity
  length : e.playlists.length = E.members.length
  stock : E.stock <+: e.world.actions
  count : e.world.actions.length = E.stock.length + E.builtBefore E.members.length
  each : ∀ k m, E.members[k]? = some m → ∃ root shop,
    (Compiler.Yields (m.1.compileRoot m.2) ⟨E.stock.length + E.builtBefore k, []⟩ root shop) ∧
    e.playlists[k]? = some ⟨m.2, root, 1⟩ ∧
    ∀ i action, (Compiler.built shop.calls)[i]? = some action →
      e.world.actions[E.stock.length + E.builtBefore k + i]? = some action

variable {E} {e : Engine} {m : Member} {id : PlaylistId} {a a' : ActionId}

theorem start_eq (E : Ensemble) :
    E.start.playlists = [] ∧ E.start.world.Fresh E.capacity ∧ E.start.world.actions = E.stock := by
  have build (stock : List Action) (e : Engine) (hfresh : e.world.Fresh E.capacity) :
      (e.after (stock.map .build)).playlists = e.playlists ∧
        (e.after (stock.map .build)).world.Fresh E.capacity ∧
        (e.after (stock.map .build)).world.actions = e.world.actions ++ stock := by
    induction stock generalizing e with
    | nil => exact ⟨rfl, hfresh, (List.append_nil _).symm⟩
    | cons action rest ih =>
      obtain ⟨hplaylists, hfresh', hactions⟩ :=
        ih (e.apply (.build action)) (hfresh.addAction action)
      refine ⟨hplaylists, hfresh', hactions.trans ?_⟩
      simp [apply, World.addAction, World.actions]
  exact build E.stock _ (World.Fresh.ofCapacity E.capacity)

theorem assembled_nil (capacity : Nat) (stock : List Action) :
    Assembled ⟨capacity, stock, []⟩ (Ensemble.start ⟨capacity, stock, []⟩) := by
  obtain ⟨hplaylists, hfresh, hactions⟩ := start_eq ⟨capacity, stock, []⟩
  exact {
    fresh := hfresh
    length := congrArg List.length hplaylists
    stock := hactions ▸ List.prefix_refl _
    count := congrArg List.length hactions
    each := fun k m hm => by cases hm }

/-- The number of actions built before a member does not depend on the members after it. -/
theorem builtBefore_append {capacity : Nat} {stock : List Action} {members more : List Member}
    {k : Nat} (hk : k ≤ members.length) :
    builtBefore ⟨capacity, stock, members ++ more⟩ k =
      builtBefore ⟨capacity, stock, members⟩ k := by
  rw [builtBefore, builtBefore, List.take_append_of_le_length hk]

theorem builtBefore_concat (capacity : Nat) (stock : List Action) (members : List Member)
    (m : Member) : builtBefore ⟨capacity, stock, members ++ [m]⟩ (members ++ [m]).length =
      builtBefore ⟨capacity, stock, members⟩ members.length + m.2.references := by
  rw [builtBefore, builtBefore, List.take_length, List.take_length, List.flatMap_append,
    List.length_append, List.flatMap_singleton, Descriptor.length_refs]

/-- One more member is compiled. -/
theorem Assembled.compile {capacity : Nat} {stock : List Action} {members : List Member}
    (h : Assembled ⟨capacity, stock, members⟩ e) (hknows : ∀ a ∈ m.2.instances, a < stock.length)
    (hcompiles : ∃ result, (m.1.compile m.2 e).result = .ok result) :
    Assembled ⟨capacity, stock, members ++ [m]⟩ (e.apply (.compile m.1 m.2)) := by
  obtain ⟨⟨e', id⟩, hresult⟩ := hcompiles
  have hstock := h.stock.length_le
  have hcount := h.count
  have hknows : e.Knows m.2 := fun a ha =>
    World.length_actions e.world ▸ Nat.lt_of_lt_of_le (hknows a ha) hstock
  have happly : e.apply (.compile m.1 m.2) = e' := by simp only [apply, hresult, if_pos hknows]
  obtain ⟨root, shop, hyields, -, rfl⟩ := Compiler.compile_ok hresult
  have hlast : builtBefore ⟨capacity, stock, members ++ [m]⟩ members.length =
      builtBefore ⟨capacity, stock, members⟩ members.length := builtBefore_append (Nat.le_refl _)
  rw [happly]
  rw [← World.length_actions, hcount] at hyields
  have hbuilt : (Compiler.built shop.calls).length = m.2.references := by
    rw [(Compiler.compileRoot_yields hyields).grown.length_built, Descriptor.length_refs]
    exact Nat.zero_add _
  refine ⟨h.fresh.addActions _, ?_, ?_, ?_, fun k m' hm' => ?_⟩
  · simp [h.length]
  · rw [Compiler.actions_addActions]
    exact h.stock.trans (List.prefix_append _ _)
  · rw [Compiler.actions_addActions, List.length_append, hcount, hbuilt, Nat.add_assoc]
    exact congrArg _ (builtBefore_concat capacity stock members m).symm
  · rw [Compiler.actions_addActions]
    by_cases hk : k < members.length
    · rw [List.getElem?_append_left hk] at hm'
      obtain ⟨root', shop', hyields', hp, hactions⟩ := h.each k m' hm'
      rw [builtBefore_append (Nat.le_of_lt hk)]
      refine ⟨root', shop', hyields', ?_, fun i action hi => ?_⟩
      · rw [List.getElem?_append_left (h.length.symm ▸ hk), hp]
      · have := hactions i action hi
        rw [List.getElem?_append_left (List.getElem?_eq_some_iff.1 this).1, this]
    · obtain rfl : k = members.length := by
        have := (List.getElem?_eq_some_iff.1 hm').1
        rw [List.length_append, List.length_singleton] at this
        omega
      rw [List.getElem?_append_right (Nat.le_refl _), Nat.sub_self] at hm'
      cases hm'
      rw [hlast]
      refine ⟨root, shop, hyields, ?_, fun i action hi => ?_⟩
      · rw [List.getElem?_append_right (Nat.le_of_eq h.length), h.length, Nat.sub_self]
        rfl
      · rw [← hcount, List.getElem?_append_right (Nat.le_add_right _ _),
          Nat.add_sub_cancel_left, hi]

theorem Compiles.assembled (h : E.Compiles) : E.Assembled E.engine := by
  obtain ⟨capacity, stock, members⟩ := E
  have hstock := congrArg List.length (start_eq ⟨capacity, stock, members⟩).2.2
  rw [World.length_actions] at hstock
  obtain ⟨hknows, hcompiles⟩ := h
  -- Members are compiled one after another, so the induction takes the last one away.
  induction members using List.reverseRecOn with
  | nil => exact assembled_nil capacity stock
  | append_singleton members m ih =>
    have hrest := ih hstock (fun m hm => hknows m (List.mem_append_left _ hm))
      fun m hm => hcompiles m (List.mem_append_left _ hm)
    have hlast : m ∈ members ++ [m] := List.mem_append_right _ (List.mem_singleton_self m)
    have hstep := hrest.compile (fun a ha => hstock ▸ hknows m hlast a ha)
      (Compiler.compile_succeeds_iff.2 (Compiler.compile_succeeds_iff.1 (hcompiles m hlast)))
    rw [engine, List.map_append, after_append]
    exact hstep

/-- Each member compiles alone. -/
theorem Compiles.only (h : E.Compiles) (hm : m ∈ E.members) : (E.only m).Compiles where
  knows m' hm' := by
    obtain rfl := List.mem_singleton.1 hm'
    exact h.knows m' hm
  compiles m' hm' := by
    obtain rfl := List.mem_singleton.1 hm'
    exact h.compiles m' hm

/-! ## Members alone -/

variable (E) in
/-- The actions at the leaves of a member. -/
def leaves (id : PlaylistId) : List ActionId :=
  (E.engine.playlists[id]?.map fun p => p.root.leaves).getD []

variable (E) in
/-- An action of the member sends signals of this name, or awaits them. -/
def Speaks (id : PlaylistId) (name : String) : Prop :=
  ∃ a ∈ E.leaves id, ∃ action, E.engine.world.actions[a]? = some action ∧ action.Speaks name

variable (E) in
/-- The member shares no actions and no names of signals with the others. -/
structure Apart (id : PlaylistId) : Prop where
  leaves : ∀ other, other ≠ id → ∀ a ∈ E.leaves id, a ∉ E.leaves other
  names : ∀ other, other ≠ id → ∀ name, E.Speaks id name → ¬E.Speaks other name

variable (E) in
/-- The number that an action of the member has when the member is compiled alone. -/
def renumber (id : PlaylistId) (a : ActionId) : ActionId :=
  if a < E.stock.length then a else a - E.builtBefore id

theorem renumber_stock (id : PlaylistId) (ha : a < E.stock.length) : E.renumber id a = a :=
  if_pos ha

theorem renumber_built (E : Ensemble) (id : PlaylistId) (i : Nat) :
    E.renumber id (E.stock.length + E.builtBefore id + i) = E.stock.length + i := by
  have hle : ¬E.stock.length + E.builtBefore id + i < E.stock.length := by omega
  have hsub : E.stock.length + E.builtBefore id + i - E.builtBefore id = E.stock.length + i := by
    omega
  exact (if_neg hle).trans hsub

variable (E) in
/-- What belongs to a member. -/
def excerpt (id : PlaylistId) : Excerpt where
  action? a := if a ∈ E.leaves id then some (E.renumber id a) else none
  playlist := id
  actions := E.engine.world.actions
  names := E.Speaks id

theorem action?_eq_some : (E.excerpt id).action? a = some a' ↔
    a ∈ E.leaves id ∧ a' = E.renumber id a := by
  unfold excerpt
  dsimp only
  split <;> simp_all [eq_comm]

theorem discreet (E : Ensemble) (id : PlaylistId) : (E.excerpt id).Discreet := by
  intro a action ha hi name hs
  obtain ⟨a', ha⟩ := Option.isSome_iff_exists.1 ha
  exact ⟨a, (action?_eq_some.1 ha).1, action, hi, hs⟩

theorem Apart.foreign (h : E.Apart id) {other : PlaylistId} (hother : other ≠ id)
    (ha : a ∈ E.leaves other) : (E.excerpt id).Foreign a := by
  refine ⟨if_neg fun hown => h.leaves other hother a hown ha, fun action hi name hs hown => ?_⟩
  exact h.names other hother name hown ⟨a, ha, action, hi, hs⟩

/-- A member as it has been compiled with the others, and alone. -/
structure Placed (E : Ensemble) (id : PlaylistId) (m : Member) (root root' : Step)
    (built : List Action) : Prop where
  playlist : E.engine.playlists[id]? = some ⟨m.2, root, 1⟩
  alone : (E.only m).engine.playlists = [⟨m.2, root', 1⟩]
  twin : Twin (fun a a' => a' = E.renumber id a) root root'
  leaves : ∀ a ∈ root.leaves, a < E.stock.length ∨
    ∃ i < built.length, a = E.stock.length + E.builtBefore id + i
  built : ∀ i action, built[i]? = some action →
    E.engine.world.actions[E.stock.length + E.builtBefore id + i]? = some action ∧
    (E.only m).engine.world.actions[E.stock.length + i]? = some action

theorem Compiles.placed (h : E.Compiles) (hm : E.members[id]? = some m) :
    ∃ root root' built, E.Placed id m root root' built := by
  have hmem := List.mem_of_getElem? hm
  have halone := (h.only hmem).assembled
  obtain ⟨root, shop, hyields, hp, hactions⟩ := h.assembled.each id m hm
  obtain ⟨root', shop', hyields', hp', hactions'⟩ := halone.each 0 m rfl
  have hrooted := Compiler.compileRoot_yields hyields
  have hcalls : shop'.calls = shop.calls :=
    (Compiler.calls_of_yields hyields').trans (Compiler.calls_of_yields hyields).symm
  have hknows : ∀ a ∈ m.2.instances, a < E.stock.length := fun a ha => by
    have hlt := h.knows m hmem a ha
    rwa [← World.length_actions, (start_eq E).2.2] at hlt
  have hbuilt : (Compiler.built shop.calls).length = m.2.references := by
    rw [hrooted.grown.length_built, Descriptor.length_refs]
    exact Nat.zero_add _
  refine ⟨root, root', Compiler.built shop.calls, hp, ?_, ?_, fun a ha => ?_,
    fun i action hi => ⟨?_, ?_⟩⟩
  · refine List.ext_getElem? fun k => ?_
    cases k with
    | zero => exact hp'
    | succ k => exact List.getElem?_eq_none (halone.length ▸ Nat.le_add_left 1 k)
  · exact Compiler.compileRoot_twins (fun i => (E.renumber_built id i).symm)
      (fun a ha => (renumber_stock id (hknows a ha)).symm) hyields hyields'
  · rw [hrooted.leaves] at ha
    rcases Descriptor.plan_leaves ha with ha | ⟨hle, hlt⟩
    · exact .inl (hknows a ha)
    · dsimp only at hle hlt
      obtain ⟨i, rfl⟩ := Nat.exists_eq_add_of_le hle
      exact .inr ⟨i, hbuilt ▸ Nat.lt_of_add_lt_add_left hlt, rfl⟩
  · exact hactions i action hi
  · exact hactions' i action (hcalls ▸ hi)

namespace Placed

variable {root root' : Step} {built : List Action}

theorem leaves_eq (h : E.Placed id m root root' built) : E.leaves id = root.leaves := by
  rw [Ensemble.leaves, h.playlist]
  rfl

theorem renumber_inj (h : E.Placed id m root root' built) {b : ActionId} (ha : a ∈ root.leaves)
    (hb : b ∈ root.leaves) (heq : E.renumber id a = E.renumber id b) : a = b := by
  rcases h.leaves a ha with hlt | ⟨i, -, rfl⟩ <;> rcases h.leaves b hb with hlt' | ⟨j, -, rfl⟩
  · rwa [renumber_stock id hlt, renumber_stock id hlt'] at heq
  · rw [renumber_stock id hlt, renumber_built] at heq
    exact absurd (heq ▸ hlt) (Nat.not_lt.2 (Nat.le_add_right _ _))
  · rw [renumber_built, renumber_stock id hlt'] at heq
    exact absurd (heq ▸ hlt') (Nat.not_lt.2 (Nat.le_add_right _ _))
  · rw [renumber_built, renumber_built] at heq
    rw [Nat.add_left_cancel heq]

/-- The action has been built in both engines. -/
theorem action_eq (h : E.Placed id m root root' built) (hcompiles : E.Compiles)
    (hm : m ∈ E.members) (ha : a ∈ root.leaves) :
    (E.only m).engine.world.actions[E.renumber id a]? = E.engine.world.actions[a]? := by
  have hstock := hcompiles.assembled.stock
  have hstock' : E.stock <+: (E.only m).engine.world.actions := (hcompiles.only hm).assembled.stock
  rcases h.leaves a ha with hlt | ⟨i, hi, rfl⟩
  · rw [renumber_stock id hlt, List.prefix_iff_getElem?.1 hstock a hlt,
      List.prefix_iff_getElem?.1 hstock' a hlt]
  · obtain ⟨hactions, hactions'⟩ := h.built i _ (List.getElem?_eq_getElem hi)
    rw [renumber_built, hactions, hactions']

/-- Both engines rest, and what they have of the member is alike. -/
theorem shows (h : E.Placed id m root root' built) (hcompiles : E.Compiles) (hm : m ∈ E.members) :
    (E.excerpt id).Shows ⟨fun _ => none, fun _ => none⟩ E.engine.world (E.only m).engine.world := by
  have hfresh := hcompiles.assembled.fresh
  have hfresh' : (E.only m).engine.world.Fresh E.capacity := (hcompiles.only hm).assembled.fresh
  have hinstances : ∀ {a a'}, (E.excerpt id).action? a = some a' →
      (E.only m).engine.world.instances[a']? = E.engine.world.instances[a]? := by
    intro a a' ha
    obtain ⟨hmem, rfl⟩ := action?_eq_some.1 ha
    rw [hfresh.instance_eq, hfresh'.instance_eq, h.action_eq hcompiles hm (h.leaves_eq ▸ hmem)]
  have hinjective : ∀ {a b c}, (E.excerpt id).action? a = some c →
      (E.excerpt id).action? b = some c → a = b := by
    intro a b c ha hb
    obtain ⟨hmem, heq⟩ := action?_eq_some.1 ha
    obtain ⟨hmem', heq'⟩ := action?_eq_some.1 hb
    exact h.renumber_inj (h.leaves_eq ▸ hmem) (h.leaves_eq ▸ hmem') (heq.symm.trans heq')
  have hactions : E.engine.world.actions = (E.excerpt id).actions := rfl
  generalize (E.only m).engine.world = w' at *
  generalize E.engine.world = w at *
  generalize E.excerpt id = x at *
  obtain ⟨actions, holders, rfl⟩ := hfresh
  obtain ⟨actions', holders', rfl⟩ := hfresh'
  exact {
    ready := rfl
    arrivals := rfl
    running := rfl
    rewoken := rfl
    below := by
      rintro t (ht | ht | ht) <;> cases ht
    timers := rfl
    timerNumbers := .nowhere 0 0
    timerIds := fun t ht => by cases ht
    timerOwners := fun t ht => by cases ht
    listeners := rfl
    receivers := fun l hl => by cases hl
    listenerOwners := fun l hl => by cases hl
    actions := hactions
    injective := hinjective
    instances := hinstances
    begun := rfl
    clock := rfl
    bus := {
      numbers := .nowhere 0 0
      tidy := Bus.tidy_ofCapacity E.capacity
      tidy' := Bus.tidy_ofCapacity E.capacity
      capacity := rfl
      mailbox := fun h => by cases h
      joined := fun _ h => by cases h
      named := fun h => by cases h } }

end Placed

/-- The engine of the ensemble mirrors the one in which a member is alone. -/
theorem mirrors (h : E.Compiles) (hapart : E.Apart id) (hm : E.members[id]? = some m) :
    (E.excerpt id).Mirrors ⟨fun _ => none, fun _ => none⟩ E.engine (E.only m).engine := by
  obtain ⟨root, root', built, hplaced⟩ := h.placed hm
  refine ⟨hplaced.shows h (List.mem_of_getElem? hm),
    ⟨_, _, hplaced.playlist, hplaced.alone, rfl, ?_⟩, ?_⟩
  · exact hplaced.twin.mono fun a ha a' heq =>
      action?_eq_some.2 ⟨hplaced.leaves_eq ▸ ha, heq⟩
  · intro other p hp hother a ha
    refine hapart.foreign hother ?_
    rw [leaves, hp]
    exact ha

end Ensemble

end Rundown
