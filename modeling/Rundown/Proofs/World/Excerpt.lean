import Mathlib.Logic.Function.Basic
import Rundown.Proofs.Signal.Queue
import Rundown.Proofs.World.Tasks

/-!
# What a world shows of one playlist

An excerpt of a world is the part that one playlist has in it: the actions at its leaves, their
timers and listeners, and the tasks of its groups.  `Excerpt.Shows` relates a world that holds other
playlists besides to a world in which this one is alone.  The two agree on everything that belongs to
the playlist, in the same order; timers and receivers may have other numbers (`Numbers`), and so may
actions.

What is done to the excerpt is done in both worlds (`Shows.push_own`, `Shows.modifyInstance_own`),
what is done to the rest only in the first (`Shows.push_foreign`, `Shows.modifyInstance_foreign`).
-/

namespace Rundown

/-- The action sends signals of this name, or awaits them. -/
def Action.Speaks (action : Action) (name : String) : Prop :=
  ∃ input, .listen name ∈ action.onBegin input ∨
    ∃ s, .emit s ∈ action.onBegin input ∧ s.name = name

namespace Action

variable {name : String}

@[simp] theorem speaks_awaitSignal (awaited : String) :
    (awaitSignal awaited).Speaks name ↔ awaited = name := by
  simp [Speaks, awaitSignal, ofEffects, eq_comm]

@[simp] theorem speaks_emitSignal (signal : Signal) :
    (emitSignal signal).Speaks name ↔ signal.name = name := by
  simp [Speaks, emitSignal, ofEffects]

@[simp] theorem speaks_wait (delay : Duration) (result : Option Json) :
    ¬(wait delay result).Speaks name := by
  simp [Speaks, wait, ofEffects]

@[simp] theorem speaks_stop (reason : String) : ¬(stop reason).Speaks name := by
  simp [Speaks, stop, ofEffects]

@[simp] theorem speaks_inert : ¬inert.Speaks name := by
  simp [Speaks, inert, ofEffects]

end Action

/-! ## Numbers -/

/-- A one-to-one assignment of numbers below `bound'` to some of those below `bound`. -/
structure Renumbers (f : Nat → Option Nat) (bound bound' : Nat) : Prop where
  lt : ∀ {n m}, f n = some m → n < bound ∧ m < bound'
  inj : ∀ {n n' m}, f n = some m → f n' = some m → n = n'

namespace Renumbers

variable {f : Nat → Option Nat} {bound bound' n : Nat}

theorem none (h : Renumbers f bound bound') (hn : bound ≤ n) : f n = none := by
  cases hf : f n with
  | none => rfl
  | some m => exact absurd (h.lt hf).1 (Nat.not_lt.2 hn)

/-- No number has a counterpart. -/
theorem nowhere (bound bound' : Nat) : Renumbers (fun _ => .none) bound bound' where
  lt h := by cases h
  inj h := by cases h

/-- The next number is assigned to the next number. -/
theorem assign (h : Renumbers f bound bound') :
    Renumbers (Function.update f bound (some bound')) (bound + 1) (bound' + 1) where
  lt := by
    intro n m hn
    rw [Function.update_apply] at hn
    split at hn
    · cases hn
      omega
    · have := h.lt hn
      omega
  inj := by
    intro n n' m hn hn'
    rw [Function.update_apply] at hn hn'
    split at hn <;> split at hn'
    · omega
    · cases hn
      exact absurd (h.lt hn').2 (Nat.lt_irrefl _)
    · cases hn'
      exact absurd (h.lt hn).2 (Nat.lt_irrefl _)
    · exact h.inj hn hn'

/-- The next number gets no counterpart. -/
theorem skip (h : Renumbers f bound bound') : Renumbers f (bound + 1) bound' :=
  ⟨fun hn => ⟨Nat.lt_succ_of_lt (h.lt hn).1, (h.lt hn).2⟩, h.inj⟩

theorem assign_of_lt (x : Option Nat) (h : n < bound) : Function.update f bound x n = f n :=
  Function.update_of_ne (Nat.ne_of_lt h) x f

end Renumbers

/-- The numbers that timers and receivers of an excerpt have when it is alone. -/
structure Numbers where
  timer? : TimerId → Option TimerId
  receiver? : ReceiverId → Option ReceiverId

/-- The assignments of `n` are among those of `n'`. -/
structure Numbers.Extends (n n' : Numbers) : Prop where
  timer : ∀ {m m'}, n.timer? m = some m' → n'.timer? m = some m'
  receiver : ∀ {r r'}, n.receiver? r = some r' → n'.receiver? r = some r'

theorem Numbers.Extends.refl (n : Numbers) : n.Extends n := ⟨id, id⟩

theorem Numbers.Extends.trans {n n' n'' : Numbers} (h : n.Extends n') (h' : n'.Extends n'') :
    n.Extends n'' := ⟨fun ht => h'.timer (h.timer ht), fun hr => h'.receiver (h.receiver hr)⟩

/-- The timer or the listener of the task has one of the numbers given out. -/
def Task.Below (w : World) : Task → Prop
  | .timer m => m < w.nextTimer
  | .listener r => r < w.bus.nextReceiver
  | .group _ _ => True

theorem Task.Below.mono {w w' : World} {t : Task} (h : t.Below w) (ht : w.nextTimer ≤ w'.nextTimer)
    (hr : w.bus.nextReceiver ≤ w'.bus.nextReceiver) : t.Below w' := by
  cases t with
  | timer m => exact Nat.lt_of_lt_of_le h ht
  | listener r => exact Nat.lt_of_lt_of_le h hr
  | group => trivial

theorem World.running_schedule (w : World) (t : Task) : (w.schedule t).running = w.running :=
  (w.schedule_keeps t fun _ => False).running

/-! ## Excerpts -/

/-- What belongs to one of the playlists of an engine: the actions at its leaves, with the numbers
that they have when it is alone, and the names that they use.  `actions` are all actions of the
engine. -/
structure Excerpt where
  action? : ActionId → Option ActionId
  playlist : PlaylistId
  actions : List Action
  names : String → Prop

namespace Excerpt

variable (x : Excerpt) (n : Numbers)

/-- The task in the world where the playlist is alone. -/
def task? : Task → Option Task
  | .timer m => (n.timer? m).map .timer
  | .listener r => (n.receiver? r).map .listener
  | .group id place => if id = x.playlist then some (.group 0 place) else none

def begin? (b : ActionId × Json) : Option (ActionId × Json) :=
  (x.action? b.1).map fun a => (a, b.2)

def timer? (t : Timer) : Option Timer :=
  (n.timer? t.id).bind fun m => (x.action? t.action).map fun a => { t with id := m, action := a }

def listener? (l : Listener) : Option Listener :=
  (n.receiver? l.receiver).bind fun r =>
    (x.action? l.action).map fun a => { l with receiver := r, action := a }

/-- The tasks of the excerpt are in the same order. -/
structure ShowsTasks (w w' : World) : Prop where
  ready : w'.ready = w.ready.filterMap (x.task? n)
  arrivals : w'.arrivals = w.arrivals.filterMap (x.task? n)
  running : w'.running = w.running.bind (x.task? n)
  rewoken : w'.rewoken = (w.rewoken && w'.running.isSome)
  below : ∀ t, (t ∈ w.ready ∨ t ∈ w.arrivals ∨ w.running = some t) → t.Below w

/-- The receivers of the excerpt are joined alike and have the same mail, and no other names than
those of the excerpt matter to them. -/
structure ShowsBus (b b' : Bus) : Prop where
  numbers : Renumbers n.receiver? b.nextReceiver b'.nextReceiver
  tidy : b.Tidy
  tidy' : b'.Tidy
  capacity : b'.capacity = b.capacity
  mailbox : ∀ {r r'}, n.receiver? r = some r' → b'.mailbox? r' = b.mailbox? r
  joined : ∀ {r r'} name, n.receiver? r = some r' → (b'.Joined name r' ↔ b.Joined name r)
  named : ∀ {r r' name}, n.receiver? r = some r' → b.Joined name r → x.names name

/-- The timers of the excerpt are in the same order and belong to its actions. -/
structure ShowsTimers (w w' : World) : Prop where
  timers : w'.timers = w.timers.filterMap (x.timer? n)
  timerNumbers : Renumbers n.timer? w.nextTimer w'.nextTimer
  timerIds : ∀ t ∈ w.timers, t.id < w.nextTimer
  timerOwners : ∀ t ∈ w.timers, (n.timer? t.id).isSome = (x.action? t.action).isSome

/-- The listeners of the excerpt are in the same order and belong to its actions. -/
structure ShowsListeners (w w' : World) : Prop where
  listeners : w'.listeners = w.listeners.filterMap (x.listener? n)
  receivers : ∀ l ∈ w.listeners, l.receiver < w.bus.nextReceiver
  listenerOwners : ∀ l ∈ w.listeners, (n.receiver? l.receiver).isSome = (x.action? l.action).isSome

/-- The actions of the excerpt stand alike, and have begun in the same order. -/
structure ShowsActions (w w' : World) : Prop where
  actions : w.actions = x.actions
  injective : ∀ {a b c}, x.action? a = some c → x.action? b = some c → a = b
  instances : ∀ {a a'}, x.action? a = some a' → w'.instances[a']? = w.instances[a]?
  begun : w'.begun = w.begun.filterMap x.begin?

/-- The world `w` shows of the excerpt what `w'` does, in which it is alone. -/
structure Shows (w w' : World) : Prop
    extends x.ShowsTasks n w w', x.ShowsTimers n w w', x.ShowsListeners n w w',
      x.ShowsActions w w' where
  clock : w'.clock = w.clock
  bus : x.ShowsBus n w.bus w'.bus

/-- The running task, if there is one, belongs to the excerpt. -/
def Free (w : World) : Prop := ∀ t, w.running = some t → (x.task? n t).isSome = true

variable {x} {n} {w w' u u' : World} {t t' : Task} {a a' : ActionId}

theorem below_of_task? (h : x.Shows n w w') (ht : x.task? n t = some t') : t.Below w := by
  cases t with
  | timer m =>
    obtain ⟨m', hm, -⟩ := Option.map_eq_some_iff.1 ht
    exact (h.timerNumbers.lt hm).1
  | listener r =>
    obtain ⟨r', hr, -⟩ := Option.map_eq_some_iff.1 ht
    exact (h.bus.numbers.lt hr).1
  | group => trivial

namespace Shows

theorem task?_inj (h : x.Shows n w w') {t₁ t₂ : Task} (h₁ : x.task? n t₁ = some t)
    (h₂ : x.task? n t₂ = some t) : t₁ = t₂ := by
  cases t₁ with
  | timer m₁ =>
    obtain ⟨m, hm₁, rfl⟩ := Option.map_eq_some_iff.1 h₁
    cases t₂ with
    | timer m₂ =>
      obtain ⟨m', hm₂, heq⟩ := Option.map_eq_some_iff.1 h₂
      cases heq
      rw [h.timerNumbers.inj hm₁ hm₂]
    | listener r₂ =>
      obtain ⟨r', -, heq⟩ := Option.map_eq_some_iff.1 h₂
      cases heq
    | group id₂ place₂ => simp [task?] at h₂
  | listener r₁ =>
    obtain ⟨r, hr₁, rfl⟩ := Option.map_eq_some_iff.1 h₁
    cases t₂ with
    | timer m₂ =>
      obtain ⟨m', -, heq⟩ := Option.map_eq_some_iff.1 h₂
      cases heq
    | listener r₂ =>
      obtain ⟨r', hr₂, heq⟩ := Option.map_eq_some_iff.1 h₂
      cases heq
      rw [h.bus.numbers.inj hr₁ hr₂]
    | group id₂ place₂ => simp [task?] at h₂
  | group id₁ place₁ =>
    obtain ⟨rfl, rfl⟩ : id₁ = x.playlist ∧ t = .group 0 place₁ := by
      simpa [task?, eq_comm] using h₁
    cases t₂ with
    | timer | listener => simp [task?] at h₂
    | group id₂ place₂ =>
      obtain ⟨rfl, rfl⟩ : id₂ = x.playlist ∧ place₂ = place₁ := by simpa [task?] using h₂
      rfl

/-! ## Queues -/

/-- Only the queues and the running task have changed. -/
theorem requeued (h : x.Shows n w w') (hq : World.Requeued w u) (hq' : World.Requeued w' u')
    (ht : x.ShowsTasks n u u') : x.Shows n u u' := by
  obtain ⟨_, _, _, _, rfl⟩ := hq
  obtain ⟨_, _, _, _, rfl⟩ := hq'
  exact { h with toShowsTasks := ht }

theorem mem_filterMap (h : x.Shows n w w') (ht : x.task? n t = some t') {ts : List Task} :
    t' ∈ ts.filterMap (x.task? n) ↔ t ∈ ts := by
  rw [List.mem_filterMap]
  exact ⟨fun ⟨u, hu, hut⟩ => h.task?_inj hut ht ▸ hu, fun hm => ⟨t, hm, ht⟩⟩

theorem isQueued_own (h : x.Shows n w w') (ht : x.task? n t = some t') :
    w'.isQueued t' = w.isQueued t := by
  rw [Bool.eq_iff_iff, World.isQueued_iff, World.isQueued_iff, h.ready, h.arrivals,
    h.mem_filterMap ht, h.mem_filterMap ht]

theorem below_push (h : x.Shows n w w') (hb : t.Below w) (queue : Queue) (u : Task)
    (hu : u ∈ (w.push queue t).ready ∨ u ∈ (w.push queue t).arrivals ∨ w.running = some u) :
    u.Below w := by
  have concat {ts : List Task} (hu : u ∈ ts ++ [t]) : u ∈ ts ∨ u = t := by simpa using hu
  unfold World.push at hu
  split at hu
  · exact h.below u hu
  · cases queue with
    | ready =>
      rcases hu with hu | hu
      · exact (concat hu).elim (fun hu => h.below u (.inl hu)) fun heq => heq ▸ hb
      · exact h.below u (.inr hu)
    | arrivals =>
      rcases hu with hu | hu | hu
      · exact h.below u (.inl hu)
      · exact (concat hu).elim (fun hu => h.below u (.inr (.inl hu))) fun heq => heq ▸ hb
      · exact h.below u (.inr (.inr hu))

theorem push_own (h : x.Shows n w w') (ht : x.task? n t = some t') (queue : Queue) :
    x.Shows n (w.push queue t) (w'.push queue t') := by
  refine h.requeued (.push w queue t) (.push w' queue t') ?_
  have hb := h.below_push (below_of_task? h ht) queue
  unfold World.push at hb ⊢
  rw [h.isQueued_own ht]
  split
  · exact h.toShowsTasks
  next hnot =>
    rw [if_neg hnot] at hb
    refine { h.toShowsTasks with ready := ?_, arrivals := ?_, below := hb }
    · cases queue <;> simp [h.ready, ht]
    · cases queue <;> simp [h.arrivals, ht]

theorem push_foreign (h : x.Shows n w w') (ht : x.task? n t = none) (hb : t.Below w)
    (queue : Queue) : x.Shows n (w.push queue t) w' := by
  refine h.requeued (.push w queue t) (.refl w') ?_
  have hb := h.below_push hb queue
  unfold World.push at hb ⊢
  split
  · exact h.toShowsTasks
  next hnot =>
    rw [if_neg hnot] at hb
    refine { h.toShowsTasks with ready := ?_, arrivals := ?_, below := hb }
    · cases queue <;> simp [h.ready, ht]
    · cases queue <;> simp [h.arrivals, ht]

theorem schedule_own (h : x.Shows n w w') (hfree : x.Free n w) (ht : x.task? n t = some t') :
    x.Shows n (w.schedule t) (w'.schedule t') := by
  have hrunning := h.running
  unfold World.schedule
  cases hc : w.running with
  | none =>
    rw [hc, Option.bind_none] at hrunning
    rw [hrunning]
    exact h.push_own ht .arrivals
  | some c =>
    obtain ⟨c', hc'⟩ := Option.isSome_iff_exists.1 (hfree c hc)
    rw [hc, Option.bind_some, hc'] at hrunning
    rw [hrunning]
    dsimp only
    by_cases heq : c = t
    · obtain rfl : c' = t' := Option.some.inj (hc'.symm.trans (heq ▸ ht))
      rw [if_pos heq, if_pos rfl, ← hc, ← hrunning]
      refine h.requeued ⟨_, _, _, _, rfl⟩ ⟨_, _, _, _, rfl⟩ { h.toShowsTasks with rewoken := ?_ }
      rw [hrunning]
      rfl
    · have hne : c' ≠ t' := by
        rintro rfl
        exact heq (h.task?_inj hc' ht)
      rw [if_neg heq, if_neg hne]
      exact h.push_own ht .ready

theorem schedule_foreign (h : x.Shows n w w') (ht : x.task? n t = none) (hb : t.Below w) :
    x.Shows n (w.schedule t) w' := by
  unfold World.schedule
  cases hc : w.running with
  | none => exact h.push_foreign ht hb .arrivals
  | some c =>
    dsimp only
    split
    next heq =>
      have hrunning := h.running
      rw [hc, Option.bind_some, heq, ht] at hrunning
      rw [← hc]
      refine h.requeued ⟨_, _, _, _, rfl⟩ (.refl w') { h.toShowsTasks with rewoken := ?_ }
      rw [h.rewoken, hrunning, Option.isSome_none, Bool.and_false, Bool.and_false]
    next => exact h.push_foreign ht hb .ready

end Shows

theorem Free.schedule (h : x.Free n w) (t : Task) : x.Free n (w.schedule t) := by
  unfold Free
  rw [World.running_schedule]
  exact h

theorem below_schedule (t : Task) (hb : t'.Below w) : t'.Below (w.schedule t) := by
  obtain ⟨_, _, _, _, heq⟩ := World.Requeued.schedule w t
  rw [heq]
  cases t' <;> exact hb

/-- Several tasks become ready, of which those of the excerpt do so in both worlds. -/
theorem Shows.scheduleAll (h : x.Shows n w w') (ts : List Task) (hb : ∀ t ∈ ts, t.Below w)
    (hfree : (∃ t ∈ ts, (x.task? n t).isSome = true) → x.Free n w) :
    x.Shows n (w.scheduleAll ts) (w'.scheduleAll (ts.filterMap (x.task? n))) := by
  induction ts generalizing w w' with
  | nil => exact h
  | cons t rest ih =>
    have hb' : ∀ u ∈ rest, u.Below (w.schedule t) := fun u hu =>
      below_schedule t (hb u (List.mem_cons_of_mem _ hu))
    have hfree' (hsome : ∃ u ∈ rest, (x.task? n u).isSome = true) : x.Free n (w.schedule t) :=
      Free.schedule (hfree (hsome.imp fun u hu => ⟨List.mem_cons_of_mem _ hu.1, hu.2⟩)) t
    cases ht : x.task? n t with
    | none =>
      rw [List.filterMap_cons_none ht]
      exact ih (h.schedule_foreign ht (hb t List.mem_cons_self)) hb' hfree'
    | some t' =>
      rw [List.filterMap_cons_some ht]
      have hfree₀ := hfree ⟨t, List.mem_cons_self, by rw [ht]; rfl⟩
      exact ih (h.schedule_own hfree₀ ht) hb' hfree'

/-! ## Actions -/

namespace Shows

theorem settlement?_own (h : x.Shows n w w') (ha : x.action? a = some a') :
    w'.settlement? a' = w.settlement? a := by
  unfold World.settlement?
  rw [h.instances ha]

theorem started?_own (h : x.Shows n w w') (ha : x.action? a = some a') :
    w'.started? a' = w.started? a := by
  unfold World.started?
  rw [h.instances ha]

theorem modifyInstance_own (h : x.Shows n w w') (ha : x.action? a = some a')
    {f : Instance → Instance} (hf : ∀ i, (f i).action = i.action) :
    x.Shows n (w.modifyInstance a f) (w'.modifyInstance a' f) := by
  refine { h with
    actions := (World.actions_modifyInstance w a f hf).trans h.actions
    instances := ?_ }
  intro b b' hb
  simp only [World.modifyInstance, List.getElem?_modify, h.instances hb]
  have heq : a' = b' ↔ a = b := by
    constructor
    · rintro rfl
      exact h.injective ha hb
    · rintro rfl
      exact Option.some.inj (ha.symm.trans hb)
  simp only [heq]

theorem modifyInstance_foreign (h : x.Shows n w w') (ha : x.action? a = none)
    {f : Instance → Instance} (hf : ∀ i, (f i).action = i.action) :
    x.Shows n (w.modifyInstance a f) w' := by
  refine { h with
    actions := (World.actions_modifyInstance w a f hf).trans h.actions
    instances := ?_ }
  intro b b' hb
  have hne : a ≠ b := by
    rintro rfl
    cases ha.symm.trans hb
  simp only [World.modifyInstance, List.getElem?_modify, hne, if_false, h.instances hb,
    Option.map_eq_map, Option.map_id_fun', id]

theorem settle_own (h : x.Shows n w w') (ha : x.action? a = some a') (s : Settlement) :
    x.Shows n (w.settle a s).1 (w'.settle a' s).1 ∧ (w'.settle a' s).2 = (w.settle a s).2 := by
  unfold World.settle World.isSettled
  rw [h.settlement?_own ha]
  split
  · exact ⟨h, rfl⟩
  · exact ⟨h.modifyInstance_own ha fun _ => rfl, rfl⟩

theorem settle_foreign (h : x.Shows n w w') (ha : x.action? a = none) (s : Settlement) :
    x.Shows n (w.settle a s).1 w' := by
  unfold World.settle
  split
  · exact h
  · exact h.modifyInstance_foreign ha fun _ => rfl

theorem mark_own (h : x.Shows n w w') (ha : x.action? a = some a') (v : Json) :
    x.Shows n (w.mark a v) (w'.mark a' v) := by
  have hmarked := h.modifyInstance_own ha (f := fun i => { i with started := true }) fun _ => rfl
  refine { hmarked with begun := ?_ }
  simp only [World.mark, World.modifyInstance, h.begun, List.filterMap_append,
    List.filterMap_cons, begin?, ha, Option.map_some, List.filterMap_nil]

theorem mark_foreign (h : x.Shows n w w') (ha : x.action? a = none) (v : Json) :
    x.Shows n (w.mark a v) w' := by
  have hmarked := h.modifyInstance_foreign ha (f := fun i => { i with started := true })
    fun _ => rfl
  refine { hmarked with begun := ?_ }
  simp only [World.mark, World.modifyInstance, h.begun, List.filterMap_append,
    List.filterMap_cons, begin?, ha, Option.map_none, List.filterMap_nil, List.append_nil]

end Shows

end Excerpt

end Rundown
