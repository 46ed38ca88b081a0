import Mathlib.Data.Set.Card
import Mathlib.Logic.Function.Basic
import Rundown.Proofs.Engine.Performance
import Rundown.Proofs.Engine.Upkeep
import Rundown.Proofs.Members
import Rundown.Proofs.Registry
import Rundown.Proofs.Text.Bytes

/-!
# Histories of a registry

Constructors are registered and unregistered, names are looked up, snapshots are taken, and
descriptors are compiled, in any order.  A `Ledger` says what there is to know of such a history:
for every name the constructor that was registered last, unless it was unregistered since, and for
every snapshot what was registered when it was taken.  `Workbench.registry_spec` says that all
answers can be worked out from it, that a compiled playlist keeps the actions that were built for it
(`Commission.stays`), and that those begin when it is played (`Commission.begins`).
-/

namespace Rundown

namespace Registry

variable {r : Registry} {name n : String} {c : Constructor} {entries : List (String × Constructor)}

theorem resolve_unregister (r : Registry) (name n : String) :
    (r.unregister name).resolve n = if n = name then none else r.resolve n := by
  unfold unregister resolve
  induction r.entries with
  | nil => simp
  | cons entry rest ih =>
    obtain ⟨m, old⟩ := entry
    by_cases hm : m = name
    · subst hm
      rw [List.filter_cons_of_neg (by simp), ih, List.lookup_cons]
      by_cases hn : n = m
      · simp [hn]
      · simp [hn, beq_eq_false_iff_ne.2 hn]
    · rw [List.filter_cons_of_pos (by simpa using hm), List.lookup_cons, List.lookup_cons, ih]
      by_cases hn : n = m
      · subst hn
        simp [hm]
      · simp [beq_eq_false_iff_ne.2 hn]

theorem mem_keys_iff : n ∈ entries.map Prod.fst ↔ (entries.lookup n).isSome = true := by
  rw [← not_iff_not, ← lookup_eq_none_iff, Bool.not_eq_true, Option.isSome_eq_false_iff,
    Option.isNone_iff_eq_none]

/-- The names ascend. -/
def Ascends (r : Registry) : Prop := r.names.Pairwise (· < ·)

theorem Ascends.nodup (h : r.Ascends) : r.names.Nodup := h.imp fun hlt => ne_of_lt hlt

theorem pairwise_insert (h : (entries.map Prod.fst).Pairwise (· < ·)) :
    ((insert name c entries).map Prod.fst).Pairwise (· < ·) := by
  induction entries with
  | nil => exact List.pairwise_singleton _ _
  | cons entry rest ih =>
    obtain ⟨m, old⟩ := entry
    have htail : ∀ n ∈ rest.map Prod.fst, m < n := (List.pairwise_cons.1 h).1
    unfold insert
    split
    next hlt =>
      refine List.pairwise_cons.2 ⟨fun n hn => ?_, h⟩
      rcases List.mem_cons.1 hn with rfl | hn
      · exact hlt
      · exact lt_trans hlt (htail n hn)
    next hle =>
      split
      next heq =>
        subst heq
        exact h
      next hne =>
        refine List.pairwise_cons.2 ⟨fun n hn => ?_, ih (List.pairwise_cons.1 h).2⟩
        have hn : n ∈ (insert name c rest).map Prod.fst := hn
        rw [mem_keys_iff, lookup_insert] at hn
        split at hn
        next heq =>
          subst heq
          exact lt_of_le_of_ne (not_lt.1 hle) (Ne.symm hne)
        · exact htail n (mem_keys_iff.2 hn)

theorem Ascends.register (h : r.Ascends) (name : String) (c : Constructor) :
    (r.register name c).Ascends := pairwise_insert h

theorem Ascends.unregister (h : r.Ascends) (name : String) : (r.unregister name).Ascends :=
  h.sublist (List.filter_sublist.map Prod.fst)

theorem mem_names_iff : n ∈ r.names ↔ (r.resolve n).isSome = true := mem_keys_iff

/-- A registry is as large as the set of its names. -/
theorem size_eq (h : r.Ascends) : r.size = {n | (r.resolve n).isSome = true}.ncard := by
  have hset : {n | (r.resolve n).isSome = true} = (r.names.toFinset : Set String) := by
    ext n
    simp [← mem_names_iff]
  rw [hset, Set.ncard_coe_finset, List.toFinset_card_of_nodup h.nodup, names, List.length_map, size]

theorem isEmpty_iff : r.isEmpty = true ↔ ∀ n, r.resolve n = none := by
  rw [isEmpty, List.isEmpty_iff]
  refine ⟨fun h n => by rw [resolve, h, List.lookup_nil], fun h => ?_⟩
  cases he : r.entries with
  | nil => rfl
  | cons entry rest =>
    have hmem : entry.1 ∈ r.names := by
      rw [names, he]
      exact List.mem_cons_self
    rw [mem_names_iff, h] at hmem
    cases hmem

theorem remove_snd : (r.remove name).2 = (r.resolve name).isSome := by
  rw [Bool.eq_iff_iff, ← mem_names_iff, names, remove, List.any_eq_true]
  simp [and_comm]

end Registry

namespace Production

/-- A compiled playlist stays what it was compiled to, and the actions that were built for it stay
at its leaves. -/
theorem built_stay (P : Production) : ∃ actions p,
    List.Forall₂ P.compiler.Builds P.descriptor.refs actions ∧
      P.engine.playlists[P.id]? = some p ∧
      p.root.plan = P.descriptor.rootPlan P.vacant.world.instances.length ∧
      ∀ k action, actions[k]? = some action →
        P.engine.world.actions[P.vacant.world.instances.length + k]? = some action := by
  obtain ⟨root, shop, hrooted, hid, hcompiled, -⟩ := Engine.compile_known P.compiles
  have hp : P.compiled.playlists[P.id]? = some ⟨P.descriptor, root, 1⟩ := by
    rw [hcompiled, hid, List.getElem?_append_right (Nat.le_refl _), Nat.sub_self]
    rfl
  obtain ⟨p, hp', hbecomes⟩ := (P.compiled_sound.after P.history).2.each P.id _ hp
  obtain ⟨actions, hactions, hbuilds⟩ := hrooted.grown.built
  have hprefix : P.vacant.world.actions ++ actions <+: P.engine.world.actions := by
    have hbuilt : P.compiled.world.actions = P.vacant.world.actions ++ actions := by
      rw [hcompiled, Compiler.actions_addActions, hactions]
      rfl
    rw [← hbuilt]
    exact Engine.actions_prefix_after P.compiled P.history
  refine ⟨actions, p, hbuilds, hp', (Step.plan_congr hbecomes.reset).trans hrooted.plan,
    fun k action hk => ?_⟩
  have hmem : (P.vacant.world.actions ++ actions)[P.vacant.world.actions.length + k]? =
      some action := by
    rw [List.getElem?_append_right (Nat.le_add_right _ _), Nat.add_sub_cancel_left, hk]
  obtain ⟨more, hmore⟩ := hprefix
  rw [← P.vacant.world.length_actions, ← hmore,
    List.getElem?_append_left (List.getElem?_eq_some_iff.1 hmem).1, hmem]

end Production

/-- A registry, the engine into which descriptors are compiled, and the snapshots taken of it. -/
structure Workbench where
  registry : Registry
  engine : Engine
  snapshots : List (List (String × Constructor))

namespace Workbench

/-- Something that somebody does with a registry or with what was made of it. -/
inductive Op where
  | register (name : String) (c : Constructor)
  | unregister (name : String)
  | resolve (name : String)
  | construct (name : String) (options : Json)
  | snapshot
  /-- Builds an action with the constructor that a snapshot holds under a name. -/
  | buildFrom (snapshot : Nat) (name : String) (options : Json)
  | names
  | contains (name : String)
  | size
  | isEmpty
  | compile (config : Config) (d : Descriptor)
  /-- Anything else happens to the engine. -/
  | happen (event : Event)

/-- Whether the op registers or unregisters the name. -/
def Op.Touches (name : String) : Op → Prop
  | .register n _ | .unregister n => n = name
  | _ => False

/-- What is answered. -/
inductive Answer where
  | done
  | flag (b : Bool)
  | found (c : Option Constructor)
  | action (result : Except RegistryError Action)
  | entries (entries : List (String × Constructor))
  | built (result : Option (Except ActionError Action))
  | names (names : List String)
  | count (n : Nat)
  | playlist (result : Except DescriptorError PlaylistId)

/-- A workbench on which nothing has happened. -/
def blank (capacity : Nat) : Workbench := ⟨.empty, .ofCapacity capacity, []⟩

/-- What an op makes of the workbench, and what it answers. -/
def step (b : Workbench) : Op → Workbench × Answer
  | .register name c => ({ b with registry := b.registry.register name c }, .done)
  | .unregister name =>
    let (registry, removed) := b.registry.remove name
    ({ b with registry := registry }, .flag removed)
  | .resolve name => (b, .found (b.registry.resolve name))
  | .construct name options => (b, .action (b.registry.construct name options))
  | .snapshot =>
    ({ b with snapshots := b.snapshots ++ [b.registry.snapshot] }, .entries b.registry.snapshot)
  | .buildFrom i name options =>
    (b, .built ((b.snapshots[i]?.bind fun entries => entries.lookup name).map (· options)))
  | .names => (b, .names b.registry.names)
  | .contains name => (b, .flag (b.registry.contains name))
  | .size => (b, .count b.registry.size)
  | .isEmpty => (b, .flag b.registry.isEmpty)
  | .compile config d =>
    ({ b with engine := b.engine.apply (.compile ⟨b.registry, config⟩ d) },
      .playlist ((Compiler.compile ⟨b.registry, config⟩ d b.engine).result.map Prod.snd))
  | .happen event => ({ b with engine := b.engine.apply event }, .done)

def run (b : Workbench) (ops : List Op) : Workbench := ops.foldl (fun b op => (b.step op).1) b

/-- What happens to the engine when somebody does the op. -/
def Op.event? (b : Workbench) : Op → Option Event
  | .compile config d => some (.compile ⟨b.registry, config⟩ d)
  | .happen event => some event
  | _ => none

/-- What happens to the engine in the course of the ops. -/
def events (b : Workbench) : List Op → List Event
  | [] => []
  | op :: rest => (op.event? b).toList ++ (b.step op).1.events rest

/-- The playlist is successfully played with this input in the course of the ops. -/
def Plays (b : Workbench) (id : PlaylistId) (input : Json) (ops : List Op) : Prop :=
  ∃ earlier later, ops = earlier ++ .happen (.play id input true) :: later ∧
    ((b.run earlier).engine.play id input true).2 = .ok ()

/-- The answers to all ops, in order. -/
def answers (b : Workbench) : List Op → List Answer
  | [] => []
  | op :: rest => (b.step op).2 :: (b.step op).1.answers rest

end Workbench

/-! ## What there is to know -/

/-- The constructors that names stand for, now and in every snapshot. -/
structure Ledger where
  registered : String → Option Constructor
  snapshots : List (String → Option Constructor)

namespace Ledger

open Workbench

def blank : Ledger := ⟨fun _ => none, []⟩

def note (l : Ledger) : Op → Ledger
  | .register name c => { l with registered := Function.update l.registered name (some c) }
  | .unregister name => { l with registered := Function.update l.registered name none }
  | .snapshot => { l with snapshots := l.snapshots ++ [l.registered] }
  | _ => l

/-- What there is to know after a history. -/
def after (ops : List Op) : Ledger := ops.foldl note blank

/-- The constructor that stands for the name of the reference builds this action. -/
def Builds (l : Ledger) (ref : ActionRef) (action : Action) : Prop :=
  ∃ c, l.registered ref.name = some c ∧ c ref.options = .ok action

/-- The answer to the op is the one that the ledger gives. -/
def Tells (l : Ledger) : Op → Answer → Prop
  | .register _ _, .done | .happen _, .done => True
  | .unregister name, .flag removed => removed = (l.registered name).isSome
  | .resolve name, .found c => c = l.registered name
  | .construct name options, .action result => result =
    match l.registered name with
    | none => .error (.notFound name)
    | some c => (c options).mapError (.construction name)
  | .snapshot, .entries entries =>
    (entries.map Prod.fst).Nodup ∧ ∀ name, entries.lookup name = l.registered name
  | .buildFrom i name options, .built result =>
    result = (l.snapshots[i]?.bind fun registered => registered name).map (· options)
  | .names, .names names => (names.map Text.bytes).Pairwise (· < ·) ∧
    ∀ name, name ∈ names ↔ (l.registered name).isSome = true
  | .contains name, .flag b => b = (l.registered name).isSome
  | .size, .count n => n = {name | (l.registered name).isSome = true}.ncard
  | .isEmpty, .flag b => b = true ↔ ∀ name, l.registered name = none
  | .compile config d, .playlist result => (∃ id, result = .ok id) ↔
    1 ≤ config.maxDepth ∧ d.depth ≤ config.maxDepth ∧ ∀ ref ∈ d.refs, ∃ action, l.Builds ref action
  | _, _ => False

theorem after_concat (ops : List Op) (op : Op) : after (ops ++ [op]) = (after ops).note op := by
  rw [after, List.foldl_append]
  rfl

theorem after_append (ops ops' : List Op) : after (ops ++ ops') = ops'.foldl note (after ops) :=
  List.foldl_append

variable {l : Ledger} {op : Op} {ops later : List Op} {name : String} {c : Constructor}

theorem registered_note (h : ¬op.Touches name) :
    (l.note op).registered name = l.registered name := by
  cases op with
  | register n c => exact Function.update_of_ne (Ne.symm h) _ _
  | unregister n => exact Function.update_of_ne (Ne.symm h) _ _
  | _ => rfl

theorem registered_notes (h : ∀ op ∈ later, ¬op.Touches name) :
    (later.foldl note l).registered name = l.registered name := by
  induction later generalizing l with
  | nil => rfl
  | cons op rest ih =>
    rw [List.foldl_cons, ih fun op hop => h op (List.mem_cons_of_mem _ hop),
      registered_note (h op List.mem_cons_self)]

/-- A name stands for the constructor that was registered last under it, if it has not been
unregistered since. -/
theorem registered_iff : (after ops).registered name = some c ↔
    ∃ before later, ops = before ++ .register name c :: later ∧ ∀ op ∈ later, ¬op.Touches name := by
  constructor
  · intro h
    induction ops using List.reverseRecOn with
    | nil => cases h
    | append_singleton ops op ih =>
      rw [after_concat] at h
      by_cases hop : op.Touches name
      · cases op with
        | register n c' =>
          obtain rfl : n = name := hop
          simp only [note, Function.update_self, Option.some.injEq] at h
          subst h
          exact ⟨ops, [], rfl, fun op hop => by cases hop⟩
        | unregister n =>
          obtain rfl : n = name := hop
          simp [note] at h
        | _ => exact hop.elim
      · rw [registered_note hop] at h
        obtain ⟨before, later, rfl, hlater⟩ := ih h
        refine ⟨before, later ++ [op], by simp, fun op' hop' => ?_⟩
        rcases List.mem_append.1 hop' with hop' | hop'
        · exact hlater op' hop'
        · obtain rfl := List.mem_singleton.1 hop'
          exact hop
  · rintro ⟨before, later, rfl, hlater⟩
    rw [after_append, List.foldl_cons, registered_notes hlater, note]
    exact Function.update_self ..

/-- A snapshot keeps its constructors. -/
theorem snapshots_prefix (l : Ledger) (ops : List Op) :
    l.snapshots <+: (ops.foldl note l).snapshots := by
  induction ops generalizing l with
  | nil => exact List.prefix_refl _
  | cons op rest ih =>
    refine List.IsPrefix.trans ?_ (ih (l.note op))
    cases op with
    | snapshot => exact List.prefix_append _ _
    | _ => exact List.prefix_refl _

end Ledger

namespace Workbench

variable {b : Workbench} {l : Ledger} {op : Op} {ops : List Op} {capacity : Nat}

/-- The entries are those of the map. -/
def Lists (registered : String → Option Constructor) (entries : List (String × Constructor)) :
    Prop :=
  (entries.map Prod.fst).Nodup ∧ ∀ name, entries.lookup name = registered name

/-- The ledger is right about the workbench. -/
structure Recorded (b : Workbench) (l : Ledger) : Prop where
  ascends : b.registry.Ascends
  registered : ∀ name, b.registry.resolve name = l.registered name
  snapshots : List.Forall₂ Lists l.snapshots b.snapshots

theorem Recorded.lists (h : b.Recorded l) : Lists l.registered b.registry.snapshot :=
  ⟨h.ascends.nodup, h.registered⟩

theorem Recorded.blank (capacity : Nat) : (blank capacity).Recorded .blank :=
  ⟨.nil, fun _ => rfl, .nil⟩

/-- Every op keeps the ledger right. -/
theorem Recorded.step (h : b.Recorded l) (op : Op) : (b.step op).1.Recorded (l.note op) := by
  cases op with
  | register name c =>
    refine ⟨h.ascends.register name c, fun n => ?_, h.snapshots⟩
    show (b.registry.register name c).resolve n = _
    rw [Registry.resolve_register, h.registered]
    exact (Function.update_apply ..).symm
  | unregister name =>
    refine ⟨h.ascends.unregister name, fun n => ?_, h.snapshots⟩
    show (b.registry.unregister name).resolve n = _
    rw [Registry.resolve_unregister, h.registered]
    exact (Function.update_apply ..).symm
  | snapshot => exact ⟨h.ascends, h.registered, List.rel_append h.snapshots (.cons h.lists .nil)⟩
  | _ => exact ⟨h.ascends, h.registered, h.snapshots⟩

/-- What a snapshot holds under a name. -/
theorem Recorded.lookup (h : b.Recorded l) (i : Nat) (name : String) :
    (b.snapshots[i]?.bind fun entries => entries.lookup name) =
      l.snapshots[i]?.bind fun registered => registered name := by
  cases hi : l.snapshots[i]? with
  | none =>
    have hlt := List.getElem?_eq_none_iff.1 hi
    rw [List.getElem?_eq_none (h.snapshots.length_eq ▸ hlt)]
    rfl
  | some registered =>
    obtain ⟨entries, he, hlists⟩ := Step.forall₂_getElem? h.snapshots hi
    rw [he]
    exact hlists.2 name

/-- Every answer is the one that the ledger gives. -/
theorem Recorded.tells (h : b.Recorded l) (op : Op) : l.Tells op (b.step op).2 := by
  cases op with
  | register | happen => trivial
  | unregister name => exact Registry.remove_snd.trans (congrArg _ (h.registered name))
  | resolve name => exact h.registered name
  | construct name options =>
    have hresolve : b.registry.resolve name = l.registered name := h.registered name
    exact congrArg (fun c : Option Constructor => (match c with
      | none => .error (.notFound name)
      | some c => (c options).mapError (.construction name) : Except RegistryError Action)) hresolve
  | snapshot => exact h.lists
  | buildFrom i name options => exact congrArg _ (h.lookup i name)
  | names =>
    refine ⟨?_, fun name => ?_⟩
    · exact List.pairwise_map.2 (h.ascends.imp fun hlt => Text.bytes_lt_iff.2 hlt)
    · rw [← h.registered]
      exact Registry.mem_names_iff
  | contains name => exact congrArg _ (h.registered name)
  | size =>
    show b.registry.size = _
    rw [Registry.size_eq h.ascends]
    simp only [h.registered]
  | isEmpty =>
    show b.registry.isEmpty = true ↔ _
    rw [Registry.isEmpty_iff]
    simp only [h.registered]
  | compile config d =>
    have hresult : (∃ id, (Compiler.compile ⟨b.registry, config⟩ d b.engine).result.map Prod.snd =
        .ok id) ↔ ∃ r, (Compiler.compile ⟨b.registry, config⟩ d b.engine).result = .ok r := by
      rcases (Compiler.compile ⟨b.registry, config⟩ d b.engine).result with error | r
      · exact iff_of_false (by rintro ⟨_, h⟩; cases h) (by rintro ⟨_, h⟩; cases h)
      · exact iff_of_true ⟨_, rfl⟩ ⟨_, rfl⟩
    show (∃ id, (Compiler.compile ⟨b.registry, config⟩ d b.engine).result.map Prod.snd =
      .ok id) ↔ _
    rw [hresult, Compiler.compile_succeeds_iff]
    simp only [Compiler.Buildable, Compiler.Builds, h.registered]
    rfl

theorem run_append (b : Workbench) (ops ops' : List Op) :
    b.run (ops ++ ops') = (b.run ops).run ops' :=
  List.foldl_append

theorem run_cons (b : Workbench) (op : Op) (ops : List Op) :
    b.run (op :: ops) = (b.step op).1.run ops := rfl

/-- The ledger is right after every history. -/
theorem Recorded.run (h : b.Recorded l) (ops : List Op) :
    (b.run ops).Recorded (ops.foldl Ledger.note l) := by
  induction ops generalizing b l with
  | nil => exact h
  | cons op rest ih => exact ih (h.step op)

theorem recorded (capacity : Nat) (ops : List Op) :
    ((blank capacity).run ops).Recorded (Ledger.after ops) := (Recorded.blank capacity).run ops

/-- The answer to an op depends on the ops before it only. -/
theorem answers_getElem? (b : Workbench) {k : Nat} (hk : ops[k]? = some op) :
    (b.answers ops)[k]? = some ((b.run (ops.take k)).step op).2 := by
  induction ops generalizing b k with
  | nil => cases hk
  | cons op' rest ih =>
    cases k with
    | zero =>
      cases hk
      rfl
    | succ k => exact ih (b.step op').1 hk

theorem step_engine (b : Workbench) (op : Op) :
    (b.step op).1.engine = b.engine.after (op.event? b).toList := by
  cases op <;> rfl

theorem run_engine (b : Workbench) (ops : List Op) :
    (b.run ops).engine = b.engine.after (b.events ops) := by
  induction ops generalizing b with
  | nil => rfl
  | cons op rest ih => rw [run_cons, ih, step_engine, events, Engine.after_append]

theorem events_append (b : Workbench) (ops ops' : List Op) :
    b.events (ops ++ ops') = b.events ops ++ (b.run ops).events ops' := by
  induction ops generalizing b with
  | nil => rfl
  | cons op rest ih => rw [List.cons_append, events, events, ih, run_cons, List.append_assoc]

/-- What was resolved under a name and registered under another is built alike under both, as long
as neither is touched. -/
theorem construct_alias (ops later : List Op) {source other : String} {c : Constructor}
    (h : ((blank capacity).run ops).registry.resolve source = some c)
    (hlater : ∀ op ∈ later, ¬op.Touches source ∧ ¬op.Touches other) (options : Json) :
    let registry := ((blank capacity).run
      (ops ++ .resolve source :: .register other c :: later)).registry
    registry.construct source options = (c options).mapError (.construction source) ∧
      registry.construct other options = (c options).mapError (.construction other) := by
  have hrun := recorded capacity (ops ++ .resolve source :: .register other c :: later)
  have hsource : (Ledger.after (ops ++ .resolve source :: .register other c :: later)).registered
      source = some c := by
    rw [Ledger.after_append, List.foldl_cons, List.foldl_cons,
      Ledger.registered_notes fun op hop => (hlater op hop).1]
    show Function.update (Ledger.after ops).registered other (some c) source = some c
    by_cases heq : source = other
    · rw [heq, Function.update_self]
    · rw [Function.update_of_ne heq, ← (recorded capacity ops).registered, h]
  have hother : (Ledger.after (ops ++ .resolve source :: .register other c :: later)).registered
      other = some c := by
    rw [Ledger.after_append, List.foldl_cons, List.foldl_cons,
      Ledger.registered_notes fun op hop => (hlater op hop).2]
    exact Function.update_self ..
  simp only [Registry.construct, hrun.registered, hsource, hother, and_self]

end Workbench

/-- A descriptor that compiles after some ops, with what is done later. -/
structure Commission where
  capacity : Nat
  before : List Workbench.Op
  config : Config
  descriptor : Descriptor
  compiled : Engine
  id : PlaylistId
  knows : ((Workbench.blank capacity).run before).engine.Knows descriptor
  compiles : (Compiler.compile ⟨((Workbench.blank capacity).run before).registry, config⟩ descriptor
    ((Workbench.blank capacity).run before).engine).result = .ok (compiled, id)
  later : List Workbench.Op

namespace Commission

open Workbench

variable (C : Commission)

/-- The workbench before the descriptor is compiled. -/
def bench : Workbench := (blank C.capacity).run C.before

/-- The number of the first action that is built. -/
def first : ActionId := C.bench.engine.world.instances.length

/-- The workbench when the descriptor has just been compiled. -/
def stocked : Workbench := (C.bench.step (.compile C.config C.descriptor)).1

/-- The engine as the later ops leave it. -/
def engine : Engine :=
  ((blank C.capacity).run (C.before ++ .compile C.config C.descriptor :: C.later)).engine

def production : Production where
  capacity := C.capacity
  before := (blank C.capacity).events C.before
  compiler := ⟨C.bench.registry, C.config⟩
  descriptor := C.descriptor
  compiled := C.compiled
  id := C.id
  knows := (blank C.capacity).run_engine C.before ▸ C.knows
  compiles := (blank C.capacity).run_engine C.before ▸ C.compiles
  history := C.stocked.events C.later

theorem stocked_engine : C.stocked.engine = C.compiled := by
  have hcompile : (Compiler.compile ⟨C.bench.registry, C.config⟩ C.descriptor
    C.bench.engine).result = .ok (C.compiled, C.id) := C.compiles
  have hknows : C.bench.engine.Knows C.descriptor := C.knows
  show C.bench.engine.apply (.compile _ C.descriptor) = C.compiled
  simp only [Engine.apply, hcompile, if_pos hknows]

theorem production_vacant : C.production.vacant = C.bench.engine :=
  ((blank C.capacity).run_engine C.before).symm

theorem production_engine : C.production.engine = C.engine := by
  rw [engine, run_append, run_cons, run_engine]
  exact congrArg (Engine.after · (C.stocked.events C.later)) C.stocked_engine.symm

theorem production_plan : C.production.plan = C.descriptor.plan C.first :=
  congrArg (fun e : Engine => C.descriptor.plan e.world.instances.length) C.production_vacant

/-- A play among the later ops is one in the history of the playlist. -/
theorem played {input : Json} (h : C.stocked.Plays C.id input C.later) :
    C.production.Played input := by
  obtain ⟨earlier, later, hlater, hplay⟩ := h
  rw [run_engine, C.stocked_engine] at hplay
  have hhistory := C.stocked.events_append earlier (.happen (.play C.id input true) :: later)
  rw [← hlater] at hhistory
  exact ⟨_, _, hhistory, hplay⟩

/-- The playlist stays what it was compiled to, and the actions that were built for it by the
constructors that were registered then stay at its leaves. -/
theorem stays : ∃ actions p,
    List.Forall₂ (Ledger.after C.before).Builds C.descriptor.refs actions ∧
      C.engine.playlists[C.id]? = some p ∧ p.root.plan = C.descriptor.rootPlan C.first ∧
      ∀ k action, actions[k]? = some action → C.engine.world.actions[C.first + k]? = some action ∧
        ∀ v, C.engine.world.effects (C.first + k, v) = action.onBegin v := by
  obtain ⟨actions, p, hbuilds, hp, hplan, hactions⟩ := C.production.built_stay
  rw [production_engine] at hp hactions
  rw [production_vacant] at hplan hactions
  refine ⟨actions, p, hbuilds.imp fun ref action hbuild => ?_, hp, hplan, fun k action hk => ?_⟩
  · obtain ⟨c, hc, ha⟩ := hbuild
    exact ⟨c, (recorded C.capacity C.before).registered ref.name ▸ hc, ha⟩
  · have haction : C.engine.world.actions[C.first + k]? = some action := hactions k action hk
    exact ⟨haction, fun v => by rw [World.effects, haction]; rfl⟩

/-- When the playlist has been played and no task waits, those leaves have begun that the plan of
the descriptor says. -/
theorem begins {input : Json} (hplays : C.stocked.Plays C.id input C.later)
    (hdistinct : ∀ a ∈ (C.descriptor.plan C.first).leaves, C.engine.leaves.count a = 1)
    (hquiet : C.engine.Quiescent) (c : ActionId × Json) :
    (c ∈ C.engine.world.begun ∧ c.1 ∈ (C.descriptor.plan C.first).leaves) ↔
      c ∈ (C.descriptor.plan C.first).begins C.engine.world.settlement? input := by
  obtain ⟨p, hp, hent⟩ := Production.entered (C.played hplays)
  have hbegun := (Production.stands C.production.sound hp).mem_begun_iff hent
  rw [Production.Distinct, Production.settled, production_plan, production_engine] at hbegun
  exact hbegun hdistinct hquiet c

end Commission

namespace Workbench

variable {capacity : Nat}

/-- Whatever is done with a registry, every answer is the one that the ledger gives.  A name stands
for the constructor that was registered last under it, if it has not been unregistered since, and a
snapshot holds what was registered when it was taken.  Building an action changes nothing, whether
or not it succeeds.  A constructor that was resolved under one name and registered under another
builds alike under both, as long as neither is touched.  And a compiled playlist stays what it was
compiled to, with the actions at its leaves that were built when it was compiled: when it has been
played, and no task waits, exactly those leaves have begun that its plan says, and what begins under
the number of such an action is that action. -/
theorem registry_spec (capacity : Nat) (ops : List Op) :
    (∀ (k : Nat) (op : Op), ops[k]? = some op →
      ∃ answer, ((blank capacity).answers ops)[k]? = some answer ∧
        (Ledger.after (ops.take k)).Tells op answer) ∧
    (∀ name c, (Ledger.after ops).registered name = some c ↔ ∃ before later,
      ops = before ++ .register name c :: later ∧ ∀ op ∈ later, ¬op.Touches name) ∧
    (∀ before later, ops = before ++ .snapshot :: later →
      (Ledger.after ops).snapshots[(Ledger.after before).snapshots.length]? =
        some (Ledger.after before).registered) ∧
    (∀ name options,
      (blank capacity).run (ops ++ [.construct name options]) = (blank capacity).run ops) ∧
    (∀ (source other : String) (c : Constructor) (later : List Op),
      ((blank capacity).run ops).registry.resolve source = some c →
      (∀ op ∈ later, ¬op.Touches source ∧ ¬op.Touches other) → ∀ (options : Json) (r : Registry),
      ((blank capacity).run (ops ++ .resolve source :: .register other c :: later)).registry = r →
        r.construct source options = (c options).mapError (.construction source) ∧
          r.construct other options = (c options).mapError (.construction other)) ∧
    ∀ (before later : List Op) (config : Config) (d : Descriptor) (b : Workbench)
      (compiled e : Engine) (id : PlaylistId) (n : Nat),
      ops = before ++ .compile config d :: later → (blank capacity).run before = b →
      b.engine.Knows d → (Compiler.compile ⟨b.registry, config⟩ d b.engine).result = .ok (compiled, id) →
      b.engine.world.instances.length = n → ((blank capacity).run ops).engine = e →
      ∃ actions p, List.Forall₂ (Ledger.after before).Builds d.refs actions ∧
        e.playlists[id]? = some p ∧ p.root.plan = d.rootPlan n ∧
        (∀ k action, actions[k]? = some action → e.world.actions[n + k]? = some action ∧
          ∀ v, e.world.effects (n + k, v) = action.onBegin v) ∧
        ∀ input, (b.step (.compile config d)).1.Plays id input later →
          (∀ a ∈ (d.plan n).leaves, e.leaves.count a = 1) → e.Quiescent → ∀ c,
            (c ∈ e.world.begun ∧ c.1 ∈ (d.plan n).leaves) ↔
              c ∈ (d.plan n).begins e.world.settlement? input := by
  refine ⟨fun k op hk => ⟨_, answers_getElem? _ hk, (recorded capacity _).tells op⟩,
    fun name c => Ledger.registered_iff, ?_, fun name options => ?_, ?_, ?_⟩
  · rintro before later rfl
    rw [Ledger.after_append, List.foldl_cons]
    obtain ⟨more, hmore⟩ := Ledger.snapshots_prefix ((Ledger.after before).note .snapshot) later
    rw [← hmore, Ledger.note, List.append_assoc, List.getElem?_append_right (Nat.le_refl _),
      Nat.sub_self]
    rfl
  · rw [run_append]
    rfl
  · rintro source other c later hsource hlater options r rfl
    exact construct_alias ops later hsource hlater options
  · rintro before later config d _ compiled _ id _ rfl rfl hknows hcompile rfl rfl
    let C : Commission := ⟨capacity, before, config, d, compiled, id, hknows, hcompile, later⟩
    obtain ⟨actions, p, hbuilds, hp, hplan, hactions⟩ := C.stays
    exact ⟨actions, p, hbuilds, hp, hplan, hactions, fun input hplays hdistinct hquiet c =>
      C.begins hplays hdistinct hquiet c⟩

/-- A constructor that builds nothing. -/
def refuse : Constructor := fun _ => .error (.failed "refused")

/-- One playlist is compiled with the constructor of `stop`.  Then the name stands for another one,
and then for none; and then the playlist is played. -/
def overwritten : List Op :=
  [.register "stop" Action.stopOf, .snapshot,
    .compile .default (.action ⟨"stop", .object [("reason", .string "over")]⟩),
    .register "stop" refuse, .unregister "stop", .buildFrom 0 "stop" .null, .unregister "stop",
    .happen (.play 0 .null true), .happen (.run .arrivals 0)]

/-- The playlist begins what was built when it was compiled, the snapshot still builds what it built,
and the second time there is nothing to unregister. -/
theorem registry_spec_overwritten :
    (∃ p, ((blank 1).run overwritten).engine.playlists[0]? = some p ∧
      p.root.plan = .sequence [.leaf 0]) ∧
    ((blank 1).run overwritten).engine.world.actions[0]? = some (Action.stop "over") ∧
    (0, .null) ∈ ((blank 1).run overwritten).engine.world.begun ∧
    ((blank 1).run overwritten).engine.world.effects (0, .null) =
      [.settle (.error (.failed "over"))] ∧
    ((blank 1).answers overwritten)[5]? = some (.built (some (Action.stopOf .null))) ∧
    ((blank 1).answers overwritten)[6]? = some (.flag false) := by
  obtain ⟨hanswers, -, -, -, -, hcompiled⟩ := registry_spec 1 overwritten
  have hstop : Action.stopOf (.object [("reason", .string "over")]) = .ok (Action.stop "over") :=
    rfl
  obtain ⟨actions, p, hbuilds, hp, hplan, hactions, hbegins⟩ := hcompiled
    [.register "stop" Action.stopOf, .snapshot] _ _ _ _ _ _ 0 0 rfl rfl (by decide) rfl rfl rfl
  have hbegun := hbegins .null ⟨(overwritten.take 7).drop 3, _, rfl, rfl⟩ (by decide +kernel)
    (by decide +kernel) (0, .null)
  cases hbuilds with
  | cons hbuild hrest =>
    cases hrest
    obtain ⟨c, hc, haction⟩ := hbuild
    obtain rfl : Action.stopOf = c := Option.some.inj hc
    rw [hstop] at haction
    cases haction
    obtain ⟨hbuilt, heffects⟩ := hactions 0 _ rfl
    refine ⟨⟨p, hp, hplan⟩, hbuilt, (hbegun.2 List.mem_cons_self).1, heffects .null, ?_, ?_⟩
    · obtain ⟨answer, hanswer, htells⟩ := hanswers 5 _ rfl
      cases answer with
      | built result =>
        rw [hanswer, show result = some (Action.stopOf .null) from htells]
      | _ => exact htells.elim
    · obtain ⟨answer, hanswer, htells⟩ := hanswers 6 _ rfl
      cases answer with
      | flag removed => rw [hanswer, show removed = false from htells]
      | _ => exact htells.elim

end Workbench

end Rundown
