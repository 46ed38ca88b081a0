import Rundown.Proofs.Signal.Queue
import Rundown.Proofs.World.Tasks

/-!
# Histories of a world

An incident is anything that happens to a world while its bus is open: actions are built, begun,
settled and told to end, signals are sent, others come to the bus and leave it, and the tasks of
timers and listeners run at any time.  Whatever has happened, timers and listeners belong to actions
that have begun, and the bus has given every listener its receiver (`World.orderly`).
-/

namespace Rundown

/-- The signal that carrying out an effect emits. -/
def Effect.signal? : Effect → Option Signal
  | .emit s => some s
  | .settle _ | .completeAfter _ _ | .listen _ | .park _ => none

/-- Something that happens to a world. -/
inductive Incident where
  | build (action : Action)
  | begin (a : ActionId) (input : Json)
  | settle (a : ActionId) (s : Settlement)
  | endAction (a : ActionId)
  | emit (s : Signal)
  /-- Somebody who is not an action subscribes. -/
  | subscribe (name : String)
  /-- Somebody reads from the bus. -/
  | receive (r : ReceiverId)
  /-- A receiver is dropped. -/
  | drop (r : ReceiverId)
  /-- The task of a listener runs, queued or not. -/
  | poll (r : ReceiverId)
  /-- The task of a timer runs, queued or not. -/
  | expire (id : TimerId)
  | moveClock (now : Nat)
  /-- Tasks are taken from their queues, started, stopped and queued again. -/
  | requeue (ready arrivals : List Task) (running : Option Task) (rewoken : Bool)

namespace World

/-- The world after an incident. -/
def incur (w : World) : Incident → World
  | .build action => (w.addAction action).1
  | .begin a input => (w.beginAction a input).1
  | .settle a s => (w.settle a s).1
  | .endAction a => w.endAction a
  | .emit s => (w.emit s).1
  | .subscribe name => (w.subscribe name).1
  | .receive r => { w with bus := (w.bus.receive r).1 }
  | .drop r => { w with bus := w.bus.dropReceiver r }
  | .poll r => (w.runListener r).1
  | .expire id => (w.runTimer id).1
  | .moveClock now => w.moveClock now
  | .requeue ready arrivals running rewoken =>
    { w with ready := ready, arrivals := arrivals, running := running, rewoken := rewoken }

/-- The world after these incidents. -/
def incurAll (w : World) (incidents : List Incident) : World := incidents.foldl incur w

/-- The signals that an incident emits, in order. -/
def emits (w : World) : Incident → List Signal
  | .emit s => [s]
  | .begin a input =>
    if w.started? a = some false then (w.effects (a, input)).filterMap Effect.signal? else []
  | _ => []

/-- The signals of a name among some. -/
def named (name : String) (signals : List Signal) : List Signal :=
  signals.filter fun s => s.name = name

/-- The signals of a name that incidents send, in order. -/
def emitsAll (name : String) (w : World) : List Incident → List Signal
  | [] => []
  | i :: rest => named name (w.emits i) ++ (w.incur i).emitsAll name rest

variable {w w' : World} {c : Nat} {a b : ActionId} {r : ReceiverId} {i : Incident}
  {before later : List Incident} {name : String}

theorem incurAll_append : w.incurAll (before ++ later) = (w.incurAll before).incurAll later :=
  List.foldl_append

theorem emitsAll_append : w.emitsAll name (before ++ later) =
    w.emitsAll name before ++ (w.incurAll before).emitsAll name later := by
  induction before generalizing w with
  | nil => rfl
  | cons i rest ih => rw [List.cons_append, emitsAll, ih, emitsAll, List.append_assoc]; rfl

/-! ## What single functions leave alone -/

theorem settle_eq (w : World) (a : ActionId) (s : Settlement) :
    ∃ instances, (w.settle a s).1 = { w with instances := instances } := by
  unfold settle
  split <;> exact ⟨_, rfl⟩

/-- What the task of a listener leaves of the world: at most this listener and its receiver have
gone. -/
structure Listened (r : ReceiverId) (w w' : World) : Prop where
  bus : ∃ b, w.bus.Read b r ∧ (w'.bus = b ∨ w'.bus = b.dropReceiver r)
  timers : w'.timers = w.timers
  listeners : w'.listeners = w.listeners ∨
    w'.listeners = w.listeners.filter (fun l => l.receiver != r) ∨
    ∃ l ∈ w.listeners, l.receiver = r ∧
      w'.listeners = w.listeners.filter (fun l => l.receiver != r) ++ [l]

theorem runListener_listened (w : World) (r : ReceiverId) :
    Listened r w (w.runListener r).1 := by
  unfold runListener
  split
  · exact ⟨⟨w.bus, .refl w.bus r, .inl rfl⟩, rfl, .inl rfl⟩
  next l hl =>
    obtain rfl : l.receiver = r := by simpa using List.find?_some hl
    -- whatever it settles, a listener that finishes goes away
    have finish (bus : Bus) (hread : w.bus.Read bus l.receiver) (s : Settlement) :
        Listened l.receiver w
          (((({ w with bus := bus } : World).settle l.action s).1.dropListener l).release
            l.action) := by
      obtain ⟨instances, heq⟩ := settle_eq { w with bus := bus } l.action s
      rw [heq]
      exact ⟨⟨bus, hread, .inr rfl⟩, rfl, .inr (.inl rfl)⟩
    have hread := Bus.receiveKept_read w.bus l.receiver
    dsimp only
    split
    · exact ⟨⟨w.bus, .refl w.bus _, .inr rfl⟩, rfl, .inr (.inl rfl)⟩
    · split
      · exact finish _ hread _
      · exact finish _ hread _
      · exact ⟨⟨_, hread, .inl rfl⟩, rfl, .inr (.inr ⟨l, List.mem_of_find?_eq_some hl, rfl, rfl⟩)⟩

/-- The task of a timer gives a deadline to timers or removes them. -/
theorem runTimer_timers (w : World) (id : TimerId) :
    (w.runTimer id).1.bus = w.bus ∧ (w.runTimer id).1.listeners = w.listeners ∧
      ∀ t' ∈ (w.runTimer id).1.timers, ∃ t ∈ w.timers, t.action = t'.action := by
  unfold runTimer
  split
  · exact ⟨rfl, rfl, fun t' ht' => ⟨t', ht', rfl⟩⟩
  next t ht =>
    have hothers {t' : Timer} (ht' : t' ∈ w.timers.filter fun t => t.id != id) :
        ∃ t ∈ w.timers, t.action = t'.action := ⟨t', List.mem_of_mem_filter ht', rfl⟩
    dsimp only
    split
    · obtain ⟨instances, heq⟩ :=
        settle_eq { w with timers := w.timers.filter fun t => t.id != id } t.action (.ok t.value)
      rw [heq]
      exact ⟨rfl, rfl, fun _ => hothers⟩
    · split
      · exact ⟨rfl, rfl, fun t' ht' => ⟨t', ht', rfl⟩⟩
      · refine ⟨rfl, rfl, fun t' ht' => ?_⟩
        rcases List.mem_append.1 ht' with ht' | ht'
        · exact hothers ht'
        · rw [List.mem_singleton.1 ht']
          exact ⟨t, List.mem_of_find?_eq_some ht, rfl⟩

/-- What the task of a listener settles is the action of this listener. -/
theorem runListener_answer (h : (w.runListener r).2 = some a) :
    ∃ l ∈ w.listeners, l.receiver = r ∧ l.action = a := by
  unfold runListener at h
  split at h
  · cases h
  next l hl =>
    have hr : l.receiver = r := by simpa using List.find?_some hl
    refine ⟨l, List.mem_of_find?_eq_some hl, hr, ?_⟩
    have hanswer {p : Prop} [Decidable p] (h : (if p then some l.action else none) = some a) :
        l.action = a := by
      split at h
      · exact Option.some.inj h
      · cases h
    dsimp only at h
    split at h
    · exact hanswer h
    · split at h
      · exact hanswer h
      · exact hanswer h
      · cases h

/-- What the task of a timer settles is the action of this timer. -/
theorem runTimer_answer {id : TimerId} (h : (w.runTimer id).2 = some a) :
    ∃ t ∈ w.timers, t.action = a := by
  unfold runTimer at h
  split at h
  · cases h
  next t ht =>
    refine ⟨t, List.mem_of_find?_eq_some ht, ?_⟩
    dsimp only at h
    split at h
    · dsimp only at h
      split at h
      · exact Option.some.inj h
      · cases h
    · split at h <;> cases h

/-! ## Orderly worlds -/

/-- The bus has the capacity and has given every listener its receiver, and the actions of timers
and listeners have begun. -/
structure Orderly (c : Nat) (w : World) : Prop where
  tidy : w.bus.Tidy
  capacity : w.bus.capacity = c
  receivers : ∀ l ∈ w.listeners, l.receiver < w.bus.nextReceiver
  listening : ∀ l ∈ w.listeners, w.started? l.action = some true
  waiting : ∀ t ∈ w.timers, w.started? t.action = some true

theorem orderly_ofCapacity (c : Nat) : (ofCapacity c).Orderly c where
  tidy := Bus.tidy_ofCapacity c
  capacity := rfl
  receivers _ hl := by cases hl
  listening _ hl := by cases hl
  waiting _ ht := by cases ht

/-- `w'` has no timers and listeners but those of `w`. -/
structure Inherits (w w' : World) : Prop where
  bus : w.bus.Grows w'.bus
  listeners : ∀ l' ∈ w'.listeners, ∃ l ∈ w.listeners,
    l.receiver = l'.receiver ∧ l.action = l'.action
  timers : ∀ t' ∈ w'.timers, ∃ t ∈ w.timers, t.action = t'.action
  started : ∀ b, w.started? b = some true → w'.started? b = some true

namespace Inherits

theorem of_bus {bus : Bus} (h : w.bus.Grows bus) : Inherits w { w with bus := bus } :=
  ⟨h, fun l' hl' => ⟨l', hl', rfl, rfl⟩, fun t' ht' => ⟨t', ht', rfl⟩, fun _ hb => hb⟩

theorem of_instances {instances : List Instance}
    (h : ∀ b, w.started? b = some true →
      ({ w with instances := instances } : World).started? b = some true) :
    Inherits w { w with instances := instances } :=
  ⟨.refl w.bus, fun l' hl' => ⟨l', hl', rfl, rfl⟩, fun t' ht' => ⟨t', ht', rfl⟩, h⟩

theorem requeue (h : Inherits w w') {w'' : World} (hq : Requeued w' w'') : Inherits w w'' := by
  obtain ⟨_, _, _, _, rfl⟩ := hq
  exact ⟨h.bus, h.listeners, h.timers, h.started⟩

theorem refl (w : World) : Inherits w w := of_bus (.refl w.bus)

end Inherits

theorem Orderly.inherits (h : w.Orderly c) (hw : Inherits w w') : w'.Orderly c where
  tidy := hw.bus.tidy h.tidy
  capacity := hw.bus.capacity.trans h.capacity
  receivers l' hl' := by
    obtain ⟨l, hl, hr, -⟩ := hw.listeners l' hl'
    exact hr ▸ Nat.lt_of_lt_of_le (h.receivers l hl) hw.bus.next
  listening l' hl' := by
    obtain ⟨l, hl, -, ha⟩ := hw.listeners l' hl'
    exact ha ▸ hw.started _ (h.listening l hl)
  waiting t' ht' := by
    obtain ⟨t, ht, ha⟩ := hw.timers t' ht'
    exact ha ▸ hw.started _ (h.waiting t ht)

/-- Nothing but a begin brings timers and listeners along. -/
theorem incur_inherits (w : World) (hi : ∀ a v, i ≠ .begin a v) : Inherits w (w.incur i) := by
  cases i with
  | build action =>
    have hkeeps : Keeps _ w (w.addAction action).1 := .of_added rfl rfl rfl fun _ ht => ht
    exact ⟨.refl w.bus, fun l hl => ⟨l, hl, rfl, rfl⟩, fun t ht => ⟨t, ht, rfl⟩, hkeeps.started⟩
  | begin a v => exact absurd rfl (hi a v)
  | settle a s =>
    have hkeeps := settle_keeps w a s
    obtain ⟨instances, heq⟩ := settle_eq w a s
    change Inherits w (w.settle a s).1
    rw [heq] at hkeeps ⊢
    exact .of_instances hkeeps.started
  | endAction a =>
    have told : Inherits w { w with
        listeners := w.listeners.map fun l =>
          if l.action == a then { l with ended := true } else l } := by
      refine ⟨.refl w.bus, fun l' hl' => ?_, fun t ht => ⟨t, ht, rfl⟩, fun _ hb => hb⟩
      obtain ⟨l, hl, rfl⟩ := List.mem_map.1 hl'
      refine ⟨l, hl, ?_⟩
      split <;> exact ⟨rfl, rfl⟩
    exact told.requeue (.scheduleAll _ _)
  | emit s => exact (Inherits.of_bus (.emit w.bus s)).requeue (.scheduleAll _ _)
  | subscribe name =>
    change Inherits w (w.subscribe name).1
    unfold World.subscribe
    split
    next bus r hb => exact .of_bus (Bus.grows_of_subscribe hb)
    next => exact ⟨.refl w.bus, fun l hl => ⟨l, hl, rfl, rfl⟩, fun t ht => ⟨t, ht, rfl⟩,
      fun _ hb => hb⟩
  | receive r => exact .of_bus (Bus.receive_read w.bus r).grows
  | drop r => exact .of_bus (.dropReceiver w.bus r)
  | poll r =>
    obtain ⟨⟨bus, hread, hbus⟩, htimers, hlisteners⟩ := runListener_listened w r
    refine ⟨?_, fun l' hl' => ?_, ?_, (runListener_settles w r).keeps.started⟩
    · rcases hbus with hbus | hbus
      · exact hbus ▸ hread.grows
      · exact hbus ▸ hread.grows.trans (.dropReceiver bus r)
    · rcases hlisteners with heq | heq | ⟨l, hl, -, heq⟩ <;> rw [incur, heq] at hl'
      · exact ⟨l', hl', rfl, rfl⟩
      · exact ⟨l', List.mem_of_mem_filter hl', rfl, rfl⟩
      · rcases List.mem_append.1 hl' with hl' | hl'
        · exact ⟨l', List.mem_of_mem_filter hl', rfl, rfl⟩
        · rw [List.mem_singleton.1 hl']
          exact ⟨l, hl, rfl, rfl⟩
    · rw [incur, htimers]
      exact fun t ht => ⟨t, ht, rfl⟩
  | expire id =>
    obtain ⟨hbus, hlisteners, htimers⟩ := runTimer_timers w id
    refine ⟨?_, ?_, htimers, (runTimer_settles w id).keeps.started⟩
    · rw [incur, hbus]
      exact .refl w.bus
    · rw [incur, hlisteners]
      exact fun l hl => ⟨l, hl, rfl, rfl⟩
  | moveClock now =>
    have moved : Inherits w { w with clock := now } :=
      ⟨.refl w.bus, fun l hl => ⟨l, hl, rfl, rfl⟩, fun t ht => ⟨t, ht, rfl⟩, fun _ hb => hb⟩
    exact moved.requeue (.enqueueAll _ _)
  | requeue ready arrivals running rewoken =>
    exact (Inherits.refl w).requeue ⟨_, _, _, _, rfl⟩

/-- An action that has begun brings timers and listeners along. -/
theorem Orderly.grown (h : w.Orderly c) (ha : w.started? a = some true)
    (hkeeps : Keeps (· = a) w w') (hbus : w.bus.Grows w'.bus)
    (hlisteners : ∀ l ∈ w'.listeners, l ∈ w.listeners ∨
      l.action = a ∧ l.receiver < w'.bus.nextReceiver)
    (htimers : ∀ t ∈ w'.timers, t ∈ w.timers ∨ t.action = a) : w'.Orderly c where
  tidy := hbus.tidy h.tidy
  capacity := hbus.capacity.trans h.capacity
  receivers l hl := by
    rcases hlisteners l hl with hl | ⟨-, hr⟩
    · exact Nat.lt_of_lt_of_le (h.receivers l hl) hbus.next
    · exact hr
  listening l hl := by
    rcases hlisteners l hl with hl | ⟨rfl, -⟩
    · exact hkeeps.started _ (h.listening l hl)
    · exact hkeeps.started _ ha
  waiting t ht := by
    rcases htimers t ht with ht | rfl
    · exact hkeeps.started _ (h.waiting t ht)
    · exact hkeeps.started _ ha

/-- An effect of beginning an action keeps the world orderly. -/
theorem Orderly.perform (h : w.Orderly c) (ha : w.started? a = some true) (e : Effect) :
    (perform a w e).Orderly c := by
  have hkeeps := perform_keeps a w e
  cases e with
  | settle s => exact h.inherits (incur_inherits w (i := .settle a s) fun _ _ hi => by cases hi)
  | completeAfter delay value =>
    have hq := Requeued.schedule { w.retain a with
      timers := w.timers ++ [⟨w.nextTimer, a, delay, value, none⟩]
      nextTimer := w.nextTimer + 1 } (.timer w.nextTimer)
    refine h.grown ha hkeeps ?_ (fun l hl => ?_) fun t ht => ?_
    · rw [World.perform, hq.listeners.2]
      exact .refl w.bus
    · rw [World.perform, hq.listeners.1] at hl
      exact .inl hl
    · rw [World.perform, hq.timers.1] at ht
      exact (List.mem_append.1 ht).imp_right fun ht => by rw [List.mem_singleton.1 ht]
  | listen name =>
    cases hb : w.bus.subscribe name with
    | none =>
      have heq : World.perform a w (.listen name) = { w with fault := true } := by
        simp only [World.perform, hb]
      rw [heq] at hkeeps ⊢
      exact h.grown ha hkeeps (.refl w.bus) (fun _ hl => .inl hl) fun _ ht => .inl ht
    | some result =>
      obtain ⟨bus, r⟩ := result
      have hq := Requeued.schedule { w.retain a with
        bus := bus
        listeners := w.listeners ++ [⟨r, a, name, false⟩] } (.listener r)
      rw [perform_listen hb] at hkeeps ⊢
      refine h.grown ha hkeeps ?_ (fun l hl => ?_) fun t ht => ?_
      · rw [hq.listeners.2]
        exact Bus.grows_of_subscribe hb
      · rw [hq.listeners.1] at hl
        rw [hq.listeners.2]
        refine (List.mem_append.1 hl).imp_right fun hl => ?_
        rw [List.mem_singleton.1 hl]
        exact ⟨rfl, (Bus.next_of_subscribe hb).1⟩
      · rw [hq.timers.1] at ht
        exact .inl ht
  | emit s => exact h.inherits (incur_inherits w (i := .emit s) fun _ _ hi => by cases hi)
  | park name => exact h.grown ha hkeeps (.refl w.bus) (fun _ hl => .inl hl) fun _ ht => .inl ht

theorem Orderly.performAll (h : w.Orderly c) (ha : w.started? a = some true) (es : List Effect) :
    (es.foldl (World.perform a) w).Orderly c := by
  induction es generalizing w with
  | nil => exact h
  | cons e es ih => exact ih (h.perform ha e) (((perform_effected a w e).started? a).trans ha)

theorem Orderly.mark (h : w.Orderly c) (ha : w.started? a = some false) (v : Json) :
    (w.mark a v).Orderly c :=
  h.inherits ⟨.refl w.bus, fun l hl => ⟨l, hl, rfl, rfl⟩, fun t ht => ⟨t, ht, rfl⟩,
    (mark_keeps v ha).started⟩

theorem Orderly.incur (h : w.Orderly c) (i : Incident) : (w.incur i).Orderly c := by
  by_cases hi : ∀ a v, i ≠ .begin a v
  · exact h.inherits (incur_inherits w hi)
  · push Not at hi
    obtain ⟨a, v, rfl⟩ := hi
    change (w.beginAction a v).1.Orderly c
    by_cases ha : w.started? a = some false
    · rw [beginAction_eq_effects v ha]
      refine (h.mark ha v).performAll ?_ _
      rw [started?_mark, if_pos rfl, ha]
      rfl
    · rw [beginAction_refused v ha]
      exact h

theorem Orderly.incurAll (h : w.Orderly c) (incidents : List Incident) :
    (w.incurAll incidents).Orderly c := by
  induction incidents generalizing w with
  | nil => exact h
  | cons i rest ih => exact ih (h.incur i)

/-- Whatever has happened, the world is orderly. -/
theorem orderly (c : Nat) (incidents : List Incident) :
    ((ofCapacity c).incurAll incidents).Orderly c :=
  (orderly_ofCapacity c).incurAll incidents

/-- What has settled stays settled. -/
theorem settlement?_incur {o : Settlement} (h : w.settlement? a = some o) (i : Incident) :
    (w.incur i).settlement? a = some o := by
  cases i with
  | build action =>
    have hkeeps : Keeps _ w (w.addAction action).1 := .of_added rfl rfl rfl fun _ ht => ht
    exact hkeeps.settled a o h
  | begin b v => exact (beginAction_keeps w b v).settled a o h
  | settle b s => exact (settle_keeps w b s).settled a o h
  | endAction b => exact (endAction_settles w b).keeps.settled a o h
  | emit s => exact (emit_settles w s).keeps.settled a o h
  | subscribe name =>
    change (w.subscribe name).1.settlement? a = some o
    unfold World.subscribe
    split <;> exact h
  | receive r => exact h
  | drop r => exact h
  | poll r => exact (runListener_settles w r).keeps.settled a o h
  | expire id => exact (runTimer_settles w id).keeps.settled a o h
  | moveClock now => exact (moveClock_settles w now).keeps.settled a o h
  | requeue ready arrivals running rewoken => exact h

theorem settlement?_incurAll {o : Settlement} (h : w.settlement? a = some o)
    (incidents : List Incident) : (w.incurAll incidents).settlement? a = some o := by
  induction incidents generalizing w with
  | nil => exact h
  | cons i rest ih => exact ih (settlement?_incur h i)

end World

end Rundown
