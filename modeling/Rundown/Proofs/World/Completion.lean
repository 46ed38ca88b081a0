import Rundown.Playlist.Poll
import Rundown.Proofs.Signal.Queue
import Rundown.Proofs.World.Tended

/-!
# The completion of an action

Whatever is done with an action and with the clones of its completion, in whatever order, the
completion settles with the first of all settlements that are tried: by somebody who completes or
fails it, by the action's own begin, or by the last holder who goes and leaves it abandoned.  There
are as many holders as the deeds come to: one for the action, and one for every clone that somebody
made, or a begin kept for a timer, for a listener or for somebody outside, less those that were
dropped.  `Instance.Takes` says what one deed does to an instance, `World.doAll_takes` what a
sequence of deeds does, and `Tenure.completion_spec` what the callers see.
-/

namespace Rundown

namespace Effect

/-- The settlement that carrying out an effect tries. -/
def settlement? : Effect → Option Settlement
  | settle s => some s
  | completeAfter _ _ | listen _ | emit _ | park _ => none

/-- Whether carrying out an effect keeps a clone of the completion.  A bus of capacity zero has no
listeners. -/
def keeps (capacity : Nat) : Effect → Bool
  | completeAfter _ _ | park _ => true
  | listen _ => capacity != 0
  | settle _ | emit _ => false

end Effect

/-- How many clones of its completion the action keeps when it begins. -/
def Action.clones (action : Action) (capacity : Nat) (input : Json) : Nat :=
  (action.onBegin input).countP (Effect.keeps capacity)

/-- What can be done with an action or a clone of its completion: to complete or fail it, to begin
the action, to clone the completion, to drop a clone, whoever holds it, and to give up the action.
Somebody outside who keeps only the last of the completions that are left under a name drops the one
before. -/
inductive Deed where
  | settle (s : Settlement)
  | begin (input : Json)
  | clone
  | drop
  | discard

namespace Deed

/-- The input with which the deed begins its action. -/
def input? : Deed → Option Json
  | begin input => some input
  | settle _ | clone | drop | discard => none

/-- How many clones the deed itself makes. -/
def clones : Deed → Nat
  | clone => 1
  | settle _ | begin _ | drop | discard => 0

/-- How many holders the deed takes away. -/
def drops : Deed → Nat
  | drop | discard => 1
  | settle _ | begin _ | clone => 0

end Deed

namespace Instance

/-- The settlements that a deed tries. -/
def tries (i : Instance) : Deed → List Settlement
  | .settle s => [s]
  | .begin input =>
    if i.started then [] else (i.action.onBegin input).filterMap Effect.settlement?
  | .clone => []
  | .drop | .discard => if i.holders ≤ 1 then [.error .abandoned] else []

/-- How many holders it gains when so many clones are made and somebody tries to begin it with these
inputs.  Only the first begin keeps clones. -/
def gains (i : Instance) (capacity clones : Nat) (inputs : List Json) : Nat :=
  clones + if i.started then 0 else (inputs.head?.map (i.action.clones capacity)).getD 0

/-- `i` has become `i'`, while the given settlements were tried, the action was begun or not, and
holders came and went. -/
structure Takes (i i' : Instance) (tried : List Settlement) (begun : Bool) (gained lost : Nat) :
    Prop where
  action : i'.action = i.action
  started : i'.started = (i.started || begun)
  settlement : i'.settlement = i.settlement.or tried.head?
  count : i'.settlement = none → i'.holders + lost = i.holders + gained
  held : (i.settlement = none → 1 ≤ i.holders) → i'.settlement = none → 1 ≤ i'.holders

variable {i i' i'' : Instance} {tried tried' : List Settlement} {begun begun' : Bool}
  {gained gained' lost lost' : Nat}

theorem Takes.refl (i : Instance) : i.Takes i [] false 0 0 :=
  ⟨rfl, (Bool.or_false _).symm, (Option.or_none).symm, fun _ => rfl, id⟩

theorem Takes.trans (h : i.Takes i' tried begun gained lost)
    (h' : i'.Takes i'' tried' begun' gained' lost') :
    i.Takes i'' (tried ++ tried') (begun || begun') (gained + gained') (lost + lost') where
  action := h'.action.trans h.action
  started := by rw [h'.started, h.started, Bool.or_assoc]
  settlement := by rw [h'.settlement, h.settlement, List.head?_append, Option.or_assoc]
  count hnone := by
    have hcount' := h'.count hnone
    have hcount := h.count (Option.or_eq_none_iff.1 (h'.settlement ▸ hnone)).1
    omega
  held hheld := h'.held (h.held hheld)

/-- One more holder. -/
theorem Takes.retain (i : Instance) : i.Takes { i with holders := i.holders + 1 } [] false 1 0 :=
  ⟨rfl, (Bool.or_false _).symm, (Option.or_none).symm, fun _ => rfl, fun _ _ => Nat.succ_pos _⟩

/-- If nobody tries to begin it, only the clones that are made are gained. -/
theorem gains_nil {capacity clones : Nat} : i.gains capacity clones [] = clones := by
  rw [gains, List.head?_nil]
  cases i.started <;> rfl

/-- What is gained by one deed and then by others. -/
theorem Takes.gains (h : i.Takes i' tried begun gained lost) {input? : Option Json}
    (hbegun : begun = input?.isSome) (capacity clones clones' : Nat) (inputs : List Json) :
    i.gains capacity clones input?.toList + i'.gains capacity clones' inputs =
      i.gains capacity (clones + clones') (input?.toList ++ inputs) := by
  simp only [Instance.gains, h.started, h.action, hbegun]
  cases i.started <;> cases input? <;> simp <;> omega

end Instance

namespace World

variable {w : World} {a b : ActionId} {i : Instance}

/-- What a deed makes of the world. -/
def does (w : World) (a : ActionId) : Deed → World
  | .settle s => (w.settle a s).1
  | .begin input => (w.beginAction a input).1
  | .clone => w.retain a
  | .drop => w.release a
  | .discard => w.dropAction a

/-- What deeds make of the world, one after another. -/
def doAll (w : World) : List (ActionId × Deed) → World
  | [] => w
  | (a, d) :: rest => (w.does a d).doAll rest

/-- The settlements of `a` that a deed with `b` tries. -/
def tries (w : World) (a b : ActionId) (d : Deed) : List Settlement :=
  if b = a then (w.instances[a]?.map fun i => i.tries d).getD [] else []

/-- The settlements of `a` that deeds try, in order. -/
def tried (w : World) (a : ActionId) : List (ActionId × Deed) → List Settlement
  | [] => []
  | (b, d) :: rest => w.tries a b d ++ (w.does b d).tried a rest

/-- The inputs with which deeds try to begin `a`, in order. -/
def inputs (a : ActionId) : List (ActionId × Deed) → List Json
  | [] => []
  | (b, d) :: rest => (if b = a then d.input?.toList else []) ++ inputs a rest

/-- What the deeds with `a` come to. -/
def total (a : ActionId) (f : Deed → Nat) : List (ActionId × Deed) → Nat
  | [] => 0
  | (b, d) :: rest => (if b = a then f d else 0) + total a f rest

/-! ## One deed -/

theorem instances_modifyInstance_self (f : Instance → Instance) (hi : w.instances[a]? = some i) :
    (w.modifyInstance a f).instances[a]? = some (f i) := by
  simp [modifyInstance, hi]

theorem instances_modifyInstance_ne (f : Instance → Instance) (h : b ≠ a) :
    (w.modifyInstance b f).instances[a]? = w.instances[a]? := by
  simp [modifyInstance, h]

theorem settle_takes (hi : w.instances[a]? = some i) (s : Settlement) :
    ∃ i', (w.settle a s).1.instances[a]? = some i' ∧ i.Takes i' [s] false 0 0 := by
  have hsettlement : w.settlement? a = i.settlement := by rw [settlement?, hi, Option.bind_some]
  unfold settle isSettled
  rw [hsettlement]
  cases hs : i.settlement with
  | some s' =>
    refine ⟨i, hi, rfl, (Bool.or_false _).symm, ?_, fun _ => rfl, id⟩
    rw [hs]
    rfl
  | none =>
    refine ⟨_, instances_modifyInstance_self _ hi, rfl, (Bool.or_false _).symm, ?_, ?_, ?_⟩
    · rw [hs]
      rfl
    · intro hnone
      cases hnone
    · intro _ hnone
      cases hnone

theorem schedule_instance (w : World) (t : Task) :
    (w.schedule t).instances[a]? = w.instances[a]? := by
  rw [schedule_instances]

/-- Effects of another action. -/
theorem Effected.instance_ne {w' : World} (h : Effected b w w') (hne : b ≠ a) :
    w'.instances[a]? = w.instances[a]? := by
  obtain ⟨f, -, hi⟩ := h.instances
  rw [hi]
  exact instances_modifyInstance_ne f hne

/-- Carrying out an effect of the action itself. -/
theorem perform_takes (hi : w.instances[a]? = some i) (e : Effect) :
    ∃ i', (perform a w e).instances[a]? = some i' ∧
      i.Takes i' e.settlement?.toList false (if e.keeps w.bus.capacity then 1 else 0) 0 := by
  cases e with
  | settle s => exact settle_takes hi s
  | completeAfter delay value =>
    exact ⟨_, (schedule_instance _ _).trans (instances_modifyInstance_self _ hi), .retain i⟩
  | listen name =>
    cases hb : w.bus.subscribe name with
    | none =>
      have hkeeps : Effect.keeps w.bus.capacity (.listen name) = false :=
        bne_eq_false_iff_eq.2 (Bus.subscribe_eq_none.1 hb)
      rw [hkeeps]
      simp only [perform, hb]
      exact ⟨i, hi, .refl i⟩
    | some result =>
      have hkeeps : Effect.keeps w.bus.capacity (.listen name) = true :=
        bne_iff_ne.2 (Bus.capacity_of_subscribe hb)
      rw [hkeeps, perform_listen hb]
      exact ⟨_, (schedule_instance _ _).trans (instances_modifyInstance_self _ hi), .retain i⟩
  | emit s => exact ⟨i, by simp only [perform, emit_instances, hi], .refl i⟩
  | park name => exact ⟨_, instances_modifyInstance_self _ hi, .retain i⟩

theorem performAll_takes (es : List Effect) (hi : w.instances[a]? = some i) :
    ∃ i', (es.foldl (perform a) w).instances[a]? = some i' ∧
      i.Takes i' (es.filterMap Effect.settlement?) false
        (es.countP (Effect.keeps w.bus.capacity)) 0 := by
  induction es generalizing w i with
  | nil => exact ⟨i, hi, .refl i⟩
  | cons e es ih =>
    obtain ⟨i', hi', htakes⟩ := perform_takes hi e
    obtain ⟨i'', hi'', htakes'⟩ := ih hi'
    refine ⟨i'', hi'', ?_⟩
    rw [(perform_effected a w e).capacity] at htakes'
    have htakes := htakes.trans htakes'
    rw [List.filterMap_cons, List.countP_cons, Nat.add_comm]
    cases hs : e.settlement? with
    | none => rwa [hs] at htakes
    | some s => rwa [hs] at htakes

/-- An action that has not begun is marked and carries out its effects at once. -/
theorem beginAction_unstarted (hi : w.instances[a]? = some i) (hs : i.started = false) (v : Json) :
    w.beginAction a v = ((i.action.onBegin v).foldl (perform a) (w.mark a v), true) := by
  simp only [beginAction, hi, hs]
  rfl

theorem beginAction_ne (h : b ≠ a) (v : Json) :
    (w.beginAction b v).1.instances[a]? = w.instances[a]? := by
  by_cases hs : w.started? b = some false
  · obtain ⟨es, he⟩ := beginAction_eq v hs
    rw [he]
    exact ((performAll_effected b es _).instance_ne h).trans (instances_modifyInstance_ne _ h)
  · rw [beginAction_refused v hs]

theorem beginAction_takes (hi : w.instances[a]? = some i) (v : Json) :
    ∃ i', (w.beginAction a v).1.instances[a]? = some i' ∧
      i.Takes i' (i.tries (.begin v)) true (i.gains w.bus.capacity 0 [v]) 0 := by
  cases hs : i.started with
  | true =>
    have hstarted : w.started? a ≠ some false := by
      rw [started?, hi, Option.map_some, hs]
      exact fun h => by cases h
    rw [beginAction_refused v hstarted, Instance.tries, Instance.gains, hs]
    exact ⟨i, hi, rfl, by rw [hs]; rfl, (Option.or_none).symm, fun _ => rfl, id⟩
  | false =>
    have hmark : (w.mark a v).instances[a]? = some { i with started := true } :=
      instances_modifyInstance_self _ hi
    obtain ⟨i', hi', htakes⟩ := performAll_takes (i.action.onBegin v) hmark
    rw [beginAction_unstarted hi hs, Instance.tries, Instance.gains, hs]
    refine ⟨i', hi', htakes.action, ?_, htakes.settlement, fun hnone => ?_, htakes.held⟩
    · rw [htakes.started, hs]
      rfl
    · exact (htakes.count hnone).trans (congrArg (i.holders + ·) (Nat.zero_add _).symm)

theorem release_takes (hi : w.instances[a]? = some i) :
    ∃ i', (w.release a).instances[a]? = some i' ∧ i.Takes i' (i.tries .drop) false 0 1 := by
  refine ⟨_, instances_modifyInstance_self _ hi, ?_⟩
  by_cases hlast : i.holders ≤ 1
  · have settled {P : Prop} (hnone : i.settlement.or (some (.error .abandoned)) = none) : P := by
      rw [Option.or_eq_none_iff] at hnone
      cases hnone.2
    simp only [Instance.tries, if_pos hlast]
    exact ⟨rfl, (Bool.or_false _).symm, rfl, settled, fun _ => settled⟩
  · have hleft : 1 < i.holders := Nat.lt_of_not_le hlast
    simp only [Instance.tries, if_neg hlast]
    exact ⟨rfl, (Bool.or_false _).symm, Option.or_none.symm,
      fun _ => Nat.sub_add_cancel hleft.le, fun _ _ => Nat.le_sub_one_of_lt hleft⟩

theorem releaseBus_instances (w : World) : w.releaseBus.instances = w.instances := by
  unfold releaseBus
  split
  · exact scheduleAll_instances _ _
  · rfl

theorem releaseBus_begun (w : World) : w.releaseBus.begun = w.begun := by
  unfold releaseBus
  split
  · exact scheduleAll_begun _ _
  · rfl

/-- What a deed makes of the instance that it is done with. -/
theorem does_takes (hi : w.instances[a]? = some i) (d : Deed) :
    ∃ i', (w.does a d).instances[a]? = some i' ∧ i.Takes i' (i.tries d) d.input?.isSome
      (i.gains w.bus.capacity d.clones d.input?.toList) d.drops := by
  have hgains (n : Nat) : i.gains w.bus.capacity n [] = n := Instance.gains_nil
  cases d with
  | settle s => exact (hgains 0).symm ▸ settle_takes hi s
  | begin v => exact beginAction_takes hi v
  | clone => exact (hgains 1).symm ▸ ⟨_, instances_modifyInstance_self _ hi, .retain i⟩
  | drop => exact (hgains 0).symm ▸ release_takes hi
  | discard =>
    rw [Deed.input?, Deed.clones, Option.toList_none, hgains]
    simp only [does, dropAction]
    split
    · exact release_takes (by rw [releaseBus_instances, hi])
    · exact release_takes hi

/-- Deeds with other actions do not matter. -/
theorem does_ne (h : b ≠ a) (d : Deed) : (w.does b d).instances[a]? = w.instances[a]? := by
  cases d with
  | settle s => exact (settle_effected w b s).instance_ne h
  | begin v => exact beginAction_ne h v
  | clone | drop => exact instances_modifyInstance_ne _ h
  | discard =>
    refine (instances_modifyInstance_ne _ h).trans ?_
    split
    · rw [releaseBus_instances]
    · rfl

theorem capacity_does (w : World) (a : ActionId) (d : Deed) :
    (w.does a d).bus.capacity = w.bus.capacity := by
  cases d with
  | settle s => exact (settle_effected w a s).capacity
  | begin v =>
    by_cases hs : w.started? a = some false
    · obtain ⟨es, he⟩ := beginAction_eq v hs
      rw [does, he]
      exact (performAll_effected a es _).capacity
    · rw [does, beginAction_refused v hs]
  | clone | drop => rfl
  | discard =>
    simp only [does, dropAction]
    split
    · show w.releaseBus.bus.capacity = w.bus.capacity
      unfold releaseBus
      split
      · rw [(Requeued.scheduleAll _ _).listeners.2, Bus.close]
      · rfl
    · rfl

/-! ## Deeds in sequence -/

/-- What deeds make of an instance. -/
theorem doAll_takes (deeds : List (ActionId × Deed)) (hi : w.instances[a]? = some i) :
    ∃ i', (w.doAll deeds).instances[a]? = some i' ∧
      i.Takes i' (w.tried a deeds) (!(inputs a deeds).isEmpty)
        (i.gains w.bus.capacity (total a Deed.clones deeds) (inputs a deeds))
        (total a Deed.drops deeds) := by
  induction deeds generalizing w i with
  | nil =>
    refine ⟨i, hi, ?_⟩
    rw [total, inputs, Instance.gains_nil]
    exact .refl i
  | cons deed deeds ih =>
    obtain ⟨b, d⟩ := deed
    by_cases h : b = a
    · subst h
      obtain ⟨i', hi', htakes⟩ := does_takes hi d
      obtain ⟨i'', hi'', htakes'⟩ := ih hi'
      refine ⟨i'', hi'', ?_⟩
      have hgains := htakes.gains rfl w.bus.capacity d.clones (total b Deed.clones deeds)
        (inputs b deeds)
      have htakes := htakes.trans htakes'
      rw [capacity_does, hgains] at htakes
      simp only [tried, tries, inputs, total, hi, if_true, Option.map_some, Option.getD_some]
      cases hd : d.input? with
      | none => simpa [hd] using htakes
      | some v => simpa [hd] using htakes
    · obtain ⟨i', hi', htakes⟩ := ih ((does_ne h d).trans hi)
      refine ⟨i', hi', ?_⟩
      rw [capacity_does] at htakes
      simpa only [tried, tries, inputs, total, if_neg h, List.nil_append, Nat.zero_add] using htakes

/-- Begins are all that is logged. -/
theorem does_begun (w : World) (b : ActionId) (d : Deed) :
    (w.does b d).begun = w.begun ++
      if w.started? b = some false then d.input?.toList.map (b, ·) else [] := by
  have unlogged (hd : d.input? = none) (h : (w.does b d).begun = w.begun) :
      (w.does b d).begun = w.begun ++
        if w.started? b = some false then d.input?.toList.map (b, ·) else [] := by
    rw [h, hd]
    simp
  cases d with
  | settle s => exact unlogged rfl (settle_begun w b s)
  | clone | drop => exact unlogged rfl rfl
  | discard =>
    refine unlogged rfl ?_
    simp only [does, dropAction]
    split
    · exact w.releaseBus_begun
    · rfl
  | begin v =>
    by_cases hs : w.started? b = some false
    · rw [if_pos hs]
      exact (beginAction_began v hs).2.2
    · rw [if_neg hs, List.append_nil]
      exact congrArg (fun r => r.1.begun) (beginAction_refused v hs)

/-- Of all begins of an action only the first is logged, unless it had begun before. -/
theorem doAll_begun (deeds : List (ActionId × Deed)) (hi : w.instances[a]? = some i) :
    (w.doAll deeds).begun.filter (·.1 == a) = w.begun.filter (·.1 == a) ++
      if i.started then [] else (inputs a deeds).head?.toList.map (a, ·) := by
  induction deeds generalizing w i with
  | nil => simp [doAll, inputs]
  | cons deed deeds ih =>
    obtain ⟨b, d⟩ := deed
    by_cases h : b = a
    · subst h
      obtain ⟨i', hi', htakes⟩ := does_takes hi d
      have hstarted : w.started? b = some i.started := by rw [started?, hi, Option.map_some]
      rw [doAll, ih hi', does_begun, hstarted, htakes.started, inputs, List.filter_append]
      cases hs : i.started with
      | true => simp
      | false => cases hd : d.input? <;> simp
    · have hother : ((if w.started? b = some false then d.input?.toList.map (b, ·) else []).filter
          (·.1 == a)) = [] := by
        split <;> cases d.input? <;> simp [h]
      rw [doAll, ih ((does_ne h d).trans hi), does_begun, List.filter_append, hother, inputs,
        if_neg h, List.append_nil, List.nil_append]

/-- An unsettled completion is abandoned when as many holders have gone as there were. -/
theorem settlement?_drops (hi : w.instances[a]? = some i) (hnone : i.settlement = none)
    (hheld : 1 ≤ i.holders) (k : Nat) :
    (w.doAll (List.replicate k (a, .drop))).settlement? a =
      if k < i.holders then none else some (.error .abandoned) := by
  induction k generalizing w i with
  | zero =>
    rw [if_pos (Nat.succ_le_iff.1 hheld)]
    show w.settlement? a = none
    rw [settlement?, hi, Option.bind_some, hnone]
  | succ k ih =>
    have hrelease : (w.release a).instances[a]? = some _ := instances_modifyInstance_self _ hi
    show ((w.release a).doAll (List.replicate k (a, .drop))).settlement? a = _
    by_cases hlast : i.holders ≤ 1
    · obtain ⟨i', hi', htakes⟩ := doAll_takes (List.replicate k (a, .drop)) hrelease
      have hsettled := htakes.settlement
      rw [if_pos hlast, hnone, Option.none_or, Option.some_or] at hsettled
      rw [settlement?, hi', Option.bind_some, hsettled, if_neg (by omega)]
    · rw [ih hrelease (by simp only [if_neg hlast, hnone]) (by show 1 ≤ i.holders - 1; omega)]
      show (if k < i.holders - 1 then none else _) = _
      exact if_congr (by omega) rfl rfl

end World

/-! ## What the callers see -/

/-- An action that was added to a world, and what has been done with it and with others since. -/
structure Tenure where
  before : World
  action : Action
  deeds : List (ActionId × Deed)

namespace Tenure

open World

def id (T : Tenure) : ActionId := T.before.instances.length

/-- The world in which the action has just been added. -/
def start (T : Tenure) : World := (T.before.addAction T.action).1

/-- The world as the deeds have left it. -/
def world (T : Tenure) : World := T.start.doAll T.deeds

/-- The settlements that were tried, in order. -/
def tried (T : Tenure) : List Settlement := T.start.tried T.id T.deeds

/-- The inputs with which somebody has tried to begin the action, in order. -/
def inputs (T : Tenure) : List Json := World.inputs T.id T.deeds

/-- How many clones of the completion were made. -/
def clones (T : Tenure) : Nat := total T.id Deed.clones T.deeds

/-- How many holders have gone. -/
def drops (T : Tenure) : Nat := total T.id Deed.drops T.deeds

/-- How many clones the action kept when it began. -/
def kept (T : Tenure) : Nat :=
  (T.inputs.head?.map (T.action.clones T.before.bus.capacity)).getD 0

theorem instances_start (T : Tenure) :
    T.start.instances[T.id]? = some ⟨T.action, false, none, 1⟩ := by
  simp [start, addAction, id]

/-- How the action stands. -/
theorem exists_instance (T : Tenure) : ∃ i, T.world.instances[T.id]? = some i ∧
    i.action = T.action ∧ i.started = !T.inputs.isEmpty ∧ i.settlement = T.tried.head? ∧
      (i.settlement = none →
        1 ≤ i.holders ∧ i.holders + T.drops = 1 + (T.clones + T.kept)) := by
  obtain ⟨i, hi', htakes⟩ := doAll_takes T.deeds T.instances_start
  exact ⟨i, hi', htakes.action, htakes.started.trans (Bool.false_or _),
    htakes.settlement.trans Option.none_or, fun hnone =>
      ⟨htakes.held (fun _ => Nat.le_refl 1) hnone, htakes.count hnone⟩⟩

/-- The completion of an action, whatever was done with it.  Completing or failing it succeeds
exactly if nobody has tried to settle it before, and else changes nothing.  It has settled exactly
if somebody has.  The first attempt to begin the action calls it at once, with all its effects, and
no later one does; those are refused and change nothing.  The future of the first is pending until a
settlement is tried, and ends with the first that was.  An unsettled completion has at least one
holder: the action itself, every clone that was made, and every one that the first begin kept for a
timer, a listener or somebody outside hold it, less those that have gone.  When all of them go, it
ends as abandoned. -/
theorem completion_spec (T : Tenure) :
    (∀ s, (T.world.settle T.id s).2 = true ↔ T.tried = []) ∧
    (∀ s, T.tried ≠ [] → T.world.settle T.id s = (T.world, false)) ∧
    (T.world.isSettled T.id = true ↔ T.tried ≠ []) ∧
    T.world.begun.filter (·.1 == T.id) =
      T.before.begun.filter (·.1 == T.id) ++ T.inputs.head?.toList.map (T.id, ·) ∧
    (∀ site v, T.inputs = [] → (Step.leaf .idle T.id).launch site v T.world =
      (.leaf .waiting T.id, (T.action.onBegin v).foldl (perform T.id) (T.world.mark T.id v))) ∧
    (∀ site v, T.inputs ≠ [] → (Step.leaf .idle T.id).launch site v T.world =
      (.leaf (.refused (.action .alreadyStarted)) T.id, T.world)) ∧
    Step.leafOutcome (.refused (.action .alreadyStarted)) T.id T.world =
      some (.error (.action .alreadyStarted)) ∧
    Step.leafOutcome .waiting T.id T.world = T.tried.head?.map (Except.mapError .action) ∧
    (T.tried = [] → ∃ i, T.world.instances[T.id]? = some i ∧ 1 ≤ i.holders ∧
      i.holders + T.drops = 1 + (T.clones + T.kept) ∧
      ∀ k, Step.leafOutcome .waiting T.id (T.world.doAll (List.replicate k (T.id, .drop))) =
        if k < i.holders then none else some (.error (.action .abandoned))) := by
  obtain ⟨i, hi, haction, hstarted, hsettlement, hheld⟩ := T.exists_instance
  have hsettled : T.world.settlement? T.id = T.tried.head? := by
    rw [settlement?, hi, Option.bind_some, hsettlement]
  have hisSettled : T.world.isSettled T.id = true ↔ T.tried ≠ [] := by
    rw [isSettled, hsettled, List.isSome_head?]
  refine ⟨?_, ?_, hisSettled, ?_, ?_, ?_, rfl, ?_, ?_⟩
  · intro s
    by_cases h : T.world.isSettled T.id = true
    · have hs : T.world.settle T.id s = (T.world, false) := if_pos h
      rw [hs]
      exact iff_of_false (fun h => by cases h) (hisSettled.1 h)
    · have hs : (T.world.settle T.id s).2 = true := by rw [settle, if_neg h]
      exact iff_of_true hs (not_not.1 fun hne => h (hisSettled.2 hne))
  · exact fun s hne => if_pos (hisSettled.2 hne)
  · exact doAll_begun T.deeds T.instances_start
  · intro site v hnone
    have hs : i.started = false := by rw [hstarted, hnone]; rfl
    rw [Step.launch, beginAction_unstarted hi hs, haction]
    rfl
  · intro site v hne
    have hs : T.world.started? T.id ≠ some false := by
      rw [started?, hi, Option.map_some, hstarted, List.isEmpty_eq_false_iff.2 hne]
      exact fun h => by cases h
    rw [Step.launch, beginAction_refused v hs]
    rfl
  · exact congrArg (Option.map (Except.mapError PlaylistError.action)) hsettled
  · intro hnone
    have hunsettled : i.settlement = none := by rw [hsettlement, hnone]; rfl
    obtain ⟨hone, hcount⟩ := hheld hunsettled
    refine ⟨i, hi, hone, hcount, ?_⟩
    intro k
    have hdrops := settlement?_drops hi hunsettled hone k
    refine (congrArg (Option.map (Except.mapError PlaylistError.action)) hdrops).trans ?_
    split <;> rfl

/-- The completion that an action has left outside outlives the action. -/
example : (Tenure.mk (ofCapacity 1) (.ofEffects fun _ => [.park "p"])
    [(0, .begin .null), (0, .discard)]).world.settlement? 0 = none := rfl

end Tenure

end Rundown
