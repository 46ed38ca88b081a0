import Mathlib.Data.List.Nodup
import Rundown.World.Basic

/-!
# What a step of the world leaves alone

`World.Keeps touched w w'` is the frame of every change that running playlists make to the world:
what has begun stays begun, what has settled stays settled, a task that was due stays due, and an
action outside `touched` is not started and not settled.  Settling, beginning and scheduling keep
the world in this sense.  `Requeued` and `Effected` say what else tasks in queues and the effects of
an action leave alone, and `Evolves` collects what a look at a playlist is made of.
-/

namespace Rundown

/-- Where tasks wait. -/
inductive Queue where
  | ready
  | arrivals

namespace World

/-- The tasks that wait in a queue. -/
def queue (w : World) : Queue → List Task
  | .ready => w.ready
  | .arrivals => w.arrivals

/-- Puts a task at the end of a queue, if it is not queued.  This is `enqueue` for one queue and
`arrive` for the other. -/
def push (w : World) (queue : Queue) (t : Task) : World :=
  if w.isQueued t then w
  else
    { w with
      ready := match queue with
        | .ready => w.ready ++ [t]
        | .arrivals => w.ready
      arrivals := match queue with
        | .ready => w.arrivals
        | .arrivals => w.arrivals ++ [t] }

/-- The task at a position of a queue waits no more. -/
def dequeue (w : World) (queue : Queue) (index : Nat) : World :=
  { w with
    ready := match queue with
      | .ready => w.ready.eraseIdx index
      | .arrivals => w.ready
    arrivals := match queue with
      | .ready => w.arrivals
      | .arrivals => w.arrivals.eraseIdx index }

/-- The task is sure to run again: it is queued, or it runs and has been woken meanwhile. -/
def Due (w : World) (t : Task) : Prop :=
  t ∈ w.ready ∨ t ∈ w.arrivals ∨ (w.running = some t ∧ w.rewoken = true)

/-- Whether an action has been begun, if there is such an action. -/
def started? (w : World) (a : ActionId) : Option Bool := w.instances[a]?.map Instance.started

/-- The action has begun with this input. -/
def Began (w : World) (a : ActionId) (v : Json) : Prop :=
  (a, v) ∈ w.begun ∧ w.started? a = some true

theorem Began.started {w : World} {a : ActionId} {v : Json} (h : w.Began a v) :
    w.started? a = some true :=
  h.2

/-- `w'` follows `w`, and only actions in `touched` were started or settled on the way. -/
structure Keeps (touched : ActionId → Prop) (w w' : World) : Prop where
  running : w'.running = w.running
  begun : ∀ b ∈ w.begun, b ∈ w'.begun
  due : ∀ t, w.Due t → w'.Due t
  started : ∀ a, w.started? a = some true → w'.started? a = some true
  settled : ∀ a s, w.settlement? a = some s → w'.settlement? a = some s
  same : ∀ a, ¬touched a →
    w'.started? a = w.started? a ∧ w'.settlement? a = w.settlement? a

namespace Keeps

variable {touched touched' : ActionId → Prop} {w w' w'' : World}

theorem refl (w : World) : Keeps touched w w :=
  ⟨rfl, fun _ h => h, fun _ h => h, fun _ h => h, fun _ _ h => h, fun _ _ => ⟨rfl, rfl⟩⟩

theorem trans (h : Keeps touched w w') (h' : Keeps touched' w' w'')
    (hsub : ∀ a, touched' a → touched a) : Keeps touched w w'' where
  running := h'.running.trans h.running
  begun b hb := h'.begun b (h.begun b hb)
  due t ht := h'.due t (h.due t ht)
  started a ha := h'.started a (h.started a ha)
  settled a s ha := h'.settled a s (h.settled a s ha)
  same a ha := by
    obtain ⟨hs, ht⟩ := h.same a ha
    obtain ⟨hs', ht'⟩ := h'.same a fun hn => ha (hsub a hn)
    exact ⟨hs'.trans hs, ht'.trans ht⟩

theorem mono (h : Keeps touched w w') (hsub : ∀ a, touched a → touched' a) :
    Keeps touched' w w' :=
  { h with same := fun a ha => h.same a fun hn => ha (hsub a hn) }

theorem began (h : Keeps touched w w') {a : ActionId} {v : Json} (hb : w.Began a v) :
    w'.Began a v :=
  ⟨h.begun _ hb.1, h.started a hb.2⟩

/-- An action that is started afterwards had been started before or is one of `touched`. -/
theorem started_or (h : Keeps touched w w') {a : ActionId} (ha : w'.started? a = some true) :
    w.started? a = some true ∨ touched a := by
  by_cases ht : touched a
  · exact .inr ht
  · rw [(h.same a ht).1] at ha
    exact .inl ha

/-- A change of queues, clock, timers, listeners or bus. -/
theorem of_queues (hi : w'.instances = w.instances) (hb : w'.begun = w.begun)
    (hr : w'.running = w.running) (hd : ∀ t, w.Due t → w'.Due t) : Keeps touched w w' where
  running := hr
  begun b h := by rwa [hb]
  due := hd
  started a h := by rwa [started?, hi]
  settled a s h := by rwa [settlement?, hi]
  same a _ := by simp only [started?, settlement?, hi, and_self]

/-- A change of anything else. -/
theorem of_unqueued (hi : w'.instances = w.instances) (hb : w'.begun = w.begun)
    (hr : w'.running = w.running) (hq : w'.ready = w.ready) (ha : w'.arrivals = w.arrivals)
    (hw : w'.rewoken = w.rewoken) : Keeps touched w w' :=
  of_queues hi hb hr fun t ht => by simpa only [Due, hq, ha, hr, hw] using ht

end Keeps

/-! ## Queues -/

section Queues

variable (w : World) (t : Task)

theorem isQueued_iff : w.isQueued t = true ↔ t ∈ w.ready ∨ t ∈ w.arrivals := by
  simp [isQueued]

theorem push_keeps (touched : ActionId → Prop) (queue : Queue) :
    Keeps touched w (w.push queue t) := by
  unfold push
  split
  · exact .refl w
  · refine .of_queues rfl rfl rfl fun u h => ?_
    cases queue with
    | ready => exact h.imp_left (List.mem_append_left _)
    | arrivals => exact h.imp_right (Or.imp_left (List.mem_append_left _))

theorem schedule_keeps (touched : ActionId → Prop) : Keeps touched w (w.schedule t) := by
  unfold schedule
  split
  · exact push_keeps w t touched .arrivals
  · split
    · refine .of_queues rfl rfl rfl ?_
      rintro u (h | h | h)
      · exact .inl h
      · exact .inr (.inl h)
      · exact .inr (.inr ⟨h.1, rfl⟩)
    · exact push_keeps w t touched .ready

theorem due_push (queue : Queue) : (w.push queue t).Due t := by
  unfold push
  split
  next h => exact ((isQueued_iff w t).1 h).imp_right .inl
  next =>
    cases queue with
    | ready => exact .inl List.mem_concat_self
    | arrivals => exact .inr (.inl List.mem_concat_self)

theorem due_schedule : (w.schedule t).Due t := by
  unfold schedule
  split
  · exact due_push w t .arrivals
  next current hr =>
    split
    next heq => exact .inr (.inr ⟨by simp [hr, heq], rfl⟩)
    · exact due_push w t .ready

end Queues

/-- Only queues and the running task differ. -/
def Requeued (w w' : World) : Prop := ∃ ready arrivals running rewoken, w' =
  { w with ready := ready, arrivals := arrivals, running := running, rewoken := rewoken }

namespace Requeued

variable {w w' w'' : World}

theorem refl (w : World) : Requeued w w := ⟨_, _, _, _, rfl⟩

theorem trans (h : Requeued w w') (h' : Requeued w' w'') : Requeued w w'' := by
  obtain ⟨_, _, _, _, rfl⟩ := h
  obtain ⟨_, _, _, _, rfl⟩ := h'
  exact ⟨_, _, _, _, rfl⟩

theorem push (w : World) (queue : Queue) (t : Task) : Requeued w (w.push queue t) := by
  unfold World.push
  split <;> exact ⟨_, _, _, _, rfl⟩

theorem schedule (w : World) (t : Task) : Requeued w (w.schedule t) := by
  unfold World.schedule
  split
  · exact push w .arrivals t
  · split
    · exact ⟨_, _, _, _, rfl⟩
    · exact push w .ready t

theorem scheduleAll (w : World) (ts : List Task) : Requeued w (w.scheduleAll ts) := by
  induction ts generalizing w with
  | nil => exact refl w
  | cons t ts ih => exact (schedule w t).trans (ih _)

theorem instances (h : Requeued w w') : w'.instances = w.instances := by
  obtain ⟨_, _, _, _, rfl⟩ := h
  rfl

theorem begun (h : Requeued w w') : w'.begun = w.begun := by
  obtain ⟨_, _, _, _, rfl⟩ := h
  rfl

theorem clock (h : Requeued w w') : w'.clock = w.clock := by
  obtain ⟨_, _, _, _, rfl⟩ := h
  rfl

theorem timers (h : Requeued w w') : w'.timers = w.timers ∧ w'.nextTimer = w.nextTimer := by
  obtain ⟨_, _, _, _, rfl⟩ := h
  exact ⟨rfl, rfl⟩

theorem listeners (h : Requeued w w') : w'.listeners = w.listeners ∧ w'.bus = w.bus := by
  obtain ⟨_, _, _, _, rfl⟩ := h
  exact ⟨rfl, rfl⟩

theorem settlement? (h : Requeued w w') (a : ActionId) :
    w'.settlement? a = w.settlement? a := by
  obtain ⟨_, _, _, _, rfl⟩ := h
  rfl

end Requeued

@[simp] theorem schedule_begun (w : World) (t : Task) : (w.schedule t).begun = w.begun :=
  (Requeued.schedule w t).begun

@[simp] theorem schedule_instances (w : World) (t : Task) :
    (w.schedule t).instances = w.instances :=
  (Requeued.schedule w t).instances

@[simp] theorem scheduleAll_begun (ts : List Task) (w : World) :
    (w.scheduleAll ts).begun = w.begun :=
  (Requeued.scheduleAll w ts).begun

@[simp] theorem scheduleAll_instances (ts : List Task) (w : World) :
    (w.scheduleAll ts).instances = w.instances :=
  (Requeued.scheduleAll w ts).instances

theorem scheduleAll_keeps (touched : ActionId → Prop) (ts : List Task) (w : World) :
    Keeps touched w (w.scheduleAll ts) := by
  induction ts generalizing w with
  | nil => exact .refl w
  | cons t ts ih => exact (schedule_keeps w t touched).trans (ih (w.schedule t)) fun _ h => h

theorem due_scheduleAll {ts : List Task} {t : Task} (w : World) (h : t ∈ ts) :
    (w.scheduleAll ts).Due t := by
  induction ts generalizing w with
  | nil => cases h
  | cons u ts ih =>
    rcases List.mem_cons.1 h with rfl | h
    · exact (scheduleAll_keeps (fun _ => False) ts _).due _ (due_schedule w _)
    · exact ih (w.schedule u) h

/-! ## Instances -/

theorem started?_modifyInstance (w : World) (a b : ActionId) (f : Instance → Instance)
    (hf : ∀ i, (f i).started = i.started) :
    (w.modifyInstance a f).started? b = w.started? b := by
  simp only [started?, modifyInstance, List.getElem?_modify]
  cases w.instances[b]? with
  | none => rfl
  | some i => by_cases h : a = b <;> simp [h, hf]

theorem settlement?_modifyInstance_ne (w : World) {a b : ActionId} (f : Instance → Instance)
    (h : b ≠ a) : (w.modifyInstance a f).settlement? b = w.settlement? b := by
  simp only [settlement?, modifyInstance, List.getElem?_modify, if_neg (Ne.symm h)]
  cases w.instances[b]? <;> rfl

theorem settlement?_modifyInstance_self (w : World) (a : ActionId) (f : Instance → Instance) :
    (w.modifyInstance a f).settlement? a = w.instances[a]?.bind fun i => (f i).settlement := by
  simp only [settlement?, modifyInstance, List.getElem?_modify]
  cases w.instances[a]? <;> simp

theorem settlement?_modifyInstance (w : World) (a b : ActionId) (f : Instance → Instance)
    (hf : ∀ i, (f i).settlement = i.settlement) :
    (w.modifyInstance a f).settlement? b = w.settlement? b := by
  by_cases h : b = a
  · subst h
    rw [settlement?_modifyInstance_self, settlement?]
    exact congrArg _ (funext hf)
  · exact settlement?_modifyInstance_ne w f h

/-- Rewriting an instance without undoing its start or its settlement. -/
theorem modifyInstance_keeps (w : World) (a : ActionId) (f : Instance → Instance)
    (hf : ∀ i, (f i).started = i.started)
    (hs : ∀ i s, i.settlement = some s → (f i).settlement = some s) :
    Keeps (· = a) w (w.modifyInstance a f) where
  running := rfl
  begun _ h := h
  due _ h := h
  started b h := by rwa [started?_modifyInstance w a b f hf]
  settled b s h := by
    by_cases hb : b = a
    · subst hb
      obtain ⟨i, hi, h⟩ := Option.bind_eq_some_iff.1 h
      rw [settlement?_modifyInstance_self, hi]
      exact hs i s h
    · rwa [settlement?_modifyInstance_ne w f hb]
  same b hb :=
    ⟨started?_modifyInstance w a b f hf, settlement?_modifyInstance_ne w f hb⟩

theorem retain_keeps (w : World) (a : ActionId) (touched : ActionId → Prop) :
    Keeps touched w (w.retain a) := by
  have h := modifyInstance_keeps w a (fun i => { i with holders := i.holders + 1 })
    (fun _ => rfl) fun _ _ hs => hs
  exact { h with same := fun b _ => ⟨started?_modifyInstance w a b _ fun _ => rfl,
    settlement?_modifyInstance w a b _ fun _ => rfl⟩ }

theorem isSettled_eq_false {w : World} {a : ActionId} (h : ¬w.isSettled a = true) :
    w.settlement? a = none := by
  simpa [isSettled] using h

@[simp] theorem settle_begun (w : World) (a : ActionId) (s : Settlement) :
    (w.settle a s).1.begun = w.begun := by
  unfold settle
  split <;> rfl

theorem started?_settle (w : World) (a b : ActionId) (s : Settlement) :
    (w.settle a s).1.started? b = w.started? b := by
  unfold settle
  split
  · rfl
  · exact started?_modifyInstance w a b _ fun _ => rfl

theorem settle_keeps (w : World) (a : ActionId) (s : Settlement) :
    Keeps (· = a) w (w.settle a s).1 := by
  unfold settle
  split
  · exact .refl w
  next h =>
    have hnone := isSettled_eq_false h
    refine ⟨rfl, fun _ hb => hb, fun _ ht => ht, ?_, ?_, ?_⟩
    · intro b hb
      exact (started?_modifyInstance w a b (fun i => { i with settlement := some s })
        fun _ => rfl).trans hb
    · intro b s' hb
      have hne : b ≠ a := by
        rintro rfl
        rw [hnone] at hb
        cases hb
      exact (settlement?_modifyInstance_ne w _ hne).trans hb
    · intro b hb
      exact ⟨started?_modifyInstance w a b _ fun _ => rfl, settlement?_modifyInstance_ne w _ hb⟩

/-! ## Building actions -/

/-- The actions that have been built. -/
def actions (w : World) : List Action := w.instances.map Instance.action

theorem length_actions (w : World) : w.actions.length = w.instances.length := List.length_map ..

theorem actions_modifyInstance (w : World) (a : ActionId) (f : Instance → Instance)
    (hf : ∀ i, (f i).action = i.action) : (w.modifyInstance a f).actions = w.actions := by
  refine List.ext_getElem? fun n => ?_
  simp only [actions, modifyInstance, List.getElem?_map, List.getElem?_modify]
  cases w.instances[n]? with
  | none => rfl
  | some i => by_cases h : a = n <;> simp [h, hf]

theorem Requeued.actions {w w' : World} (h : Requeued w w') : w'.actions = w.actions := by
  rw [World.actions, h.instances, World.actions]

/-- Instances that are added concern nobody. -/
theorem Keeps.of_added {w w' : World} {added : List Instance}
    (hi : w'.instances = w.instances ++ added) (hb : w'.begun = w.begun)
    (hr : w'.running = w.running) (hd : ∀ t, w.Due t → w'.Due t) :
    Keeps (fun a => w.started? a = none) w w' := by
  have hold (a : ActionId) (h : w.started? a ≠ none) : w'.instances[a]? = w.instances[a]? := by
    have hlt : a < w.instances.length := by
      by_contra hge
      exact h (by rw [started?, List.getElem?_eq_none (Nat.not_lt.1 hge)]; rfl)
    rw [hi, List.getElem?_append_left hlt]
  refine ⟨hr, fun b hm => hb ▸ hm, hd, ?_, ?_, ?_⟩
  · intro a ha
    rw [started?, hold a (by rw [ha]; exact Option.some_ne_none _)]
    exact ha
  · intro a s hs
    have hne : w.started? a ≠ none := by
      intro hn
      rw [started?, Option.map_eq_none_iff] at hn
      simp [settlement?, hn] at hs
    rw [settlement?, hold a hne]
    exact hs
  · intro a ha
    simp only [started?, settlement?, hold a ha, and_self]

/-- Instances that are added have not been begun. -/
theorem started?_of_added {w w' : World} {added : List Instance}
    (hi : w'.instances = w.instances ++ added) (hadded : ∀ i ∈ added, i.started = false)
    {a : ActionId} (ha : w'.started? a = some true) : w.started? a = some true := by
  obtain ⟨i, hget, hs⟩ := Option.map_eq_some_iff.1 ha
  rw [hi, List.getElem?_append] at hget
  split at hget
  · exact Option.map_eq_some_iff.2 ⟨i, hget, hs⟩
  · rw [hadded i (List.mem_of_getElem? hget)] at hs
    cases hs

theorem started?_of_lt {w : World} {a : ActionId} (hlt : a < w.instances.length)
    (ha : w.started? a ≠ some true) : w.started? a = some false := by
  rw [started?, List.getElem?_eq_getElem hlt, Option.map_some] at ha ⊢
  exact congrArg some (Bool.eq_false_iff.2 fun h => ha (congrArg some h))

/-- The world with further actions, none of which has begun. -/
def withActions (w : World) (actions : List Action) (busHolders : Nat) : World :=
  { w with
    instances := w.instances ++ actions.map fun action => ⟨action, false, none, 1⟩
    busHolders := busHolders }

theorem actions_withActions (w : World) (actions : List Action) (busHolders : Nat) :
    (w.withActions actions busHolders).actions = w.actions ++ actions := by
  simp [withActions, World.actions, Function.comp_def]

/-- Actions that are added one after another might as well be added at once. -/
theorem withActions_withActions (w : World) (actions more : List Action) (holders holders' : Nat) :
    (w.withActions actions holders).withActions more holders' =
      w.withActions (actions ++ more) holders' := by
  simp only [withActions, List.map_append, List.append_assoc]

/-! ## Beginning an action -/

theorem emit_keeps (w : World) (s : Signal) (touched : ActionId → Prop) :
    Keeps touched w (w.emit s).1 := by
  have sent : Keeps touched w { w with bus := (w.bus.emit s).1 } :=
    .of_unqueued rfl rfl rfl rfl rfl rfl
  exact sent.trans (scheduleAll_keeps touched (w.listenerTasks (w.bus.emit s).2) _) fun _ h => h

@[simp] theorem emit_begun (w : World) (s : Signal) : (w.emit s).1.begun = w.begun :=
  scheduleAll_begun _ _

@[simp] theorem emit_instances (w : World) (s : Signal) :
    (w.emit s).1.instances = w.instances :=
  scheduleAll_instances _ _

/-- An effect of beginning an action settles at most this action. -/
theorem perform_keeps (a : ActionId) (w : World) (e : Effect) :
    Keeps (· = a) w (perform a w e) := by
  cases e with
  | settle s => exact settle_keeps w a s
  | completeAfter delay value =>
    refine ((retain_keeps w a _).trans ?_ fun _ h => h).trans (schedule_keeps _ _ _) fun _ h => h
    exact .of_unqueued rfl rfl rfl rfl rfl rfl
  | listen name =>
    simp only [perform]
    split
    · exact .of_unqueued rfl rfl rfl rfl rfl rfl
    · refine ((retain_keeps w a _).trans ?_ fun _ h => h).trans (schedule_keeps _ _ _) fun _ h => h
      exact .of_unqueued rfl rfl rfl rfl rfl rfl
  | emit s => exact emit_keeps w s _
  | park name =>
    exact (retain_keeps w a _).trans (.of_unqueued rfl rfl rfl rfl rfl rfl) fun _ h => h

/-- `w'` follows `w` by effects of beginning the action `a`.  No time passes, nothing begins, and no
instance changes but that of `a`, which stays the same action and as started as it was. -/
structure Effected (a : ActionId) (w w' : World) : Prop where
  clock : w'.clock = w.clock
  begun : w'.begun = w.begun
  capacity : w'.bus.capacity = w.bus.capacity
  instances : ∃ f : Instance → Instance,
    (∀ i, (f i).action = i.action ∧ (f i).started = i.started) ∧
      w'.instances = w.instances.modify a f

namespace Effected

variable {a b : ActionId} {w w' w'' : World}

theorem of_same (hc : w'.clock = w.clock) (hb : w'.begun = w.begun)
    (hcap : w'.bus.capacity = w.bus.capacity) (hi : w'.instances = w.instances) :
    Effected a w w' :=
  ⟨hc, hb, hcap, id, fun _ => ⟨rfl, rfl⟩, hi.trans (List.modify_id _ _).symm⟩

theorem modifyInstance (f : Instance → Instance)
    (hf : ∀ i, (f i).action = i.action ∧ (f i).started = i.started) :
    Effected a w (w.modifyInstance a f) :=
  ⟨rfl, rfl, rfl, f, hf, rfl⟩

theorem trans (h : Effected a w w') (h' : Effected a w' w'') : Effected a w w'' := by
  obtain ⟨f, hf, hi⟩ := h.instances
  obtain ⟨g, hg, hi'⟩ := h'.instances
  refine ⟨h'.clock.trans h.clock, h'.begun.trans h.begun, h'.capacity.trans h.capacity, g ∘ f,
    fun i => ⟨(hg _).1.trans (hf i).1, (hg _).2.trans (hf i).2⟩, ?_⟩
  rw [hi', hi, List.modify_modify_eq]

theorem requeued (h : Effected a w w') (hq : Requeued w' w'') : Effected a w w'' :=
  h.trans (of_same hq.clock hq.begun (congrArg Bus.capacity hq.listeners.2) hq.instances)

theorem started? (h : Effected a w w') (b : ActionId) : w'.started? b = w.started? b := by
  obtain ⟨f, hf, hi⟩ := h.instances
  rw [World.started?, hi]
  exact started?_modifyInstance w a b f fun i => (hf i).2

theorem actions (h : Effected a w w') : w'.actions = w.actions := by
  obtain ⟨f, hf, hi⟩ := h.instances
  rw [World.actions, hi]
  exact actions_modifyInstance w a f fun i => (hf i).1

end Effected

theorem settle_effected (w : World) (a : ActionId) (s : Settlement) :
    Effected a w (w.settle a s).1 := by
  unfold settle
  split
  · exact .of_same rfl rfl rfl rfl
  · exact .modifyInstance _ fun _ => ⟨rfl, rfl⟩

theorem perform_effected (a : ActionId) (w : World) (e : Effect) :
    Effected a w (perform a w e) := by
  have retained : Effected a w (w.retain a) := .modifyInstance _ fun _ => ⟨rfl, rfl⟩
  cases e with
  | settle s => exact settle_effected w a s
  | completeAfter delay value =>
    refine .requeued ?_ (.schedule _ _)
    exact retained.trans (.of_same rfl rfl rfl rfl)
  | listen name =>
    simp only [perform]
    split
    · exact .of_same rfl rfl rfl rfl
    next bus r hb =>
      have hcapacity : bus.capacity = w.bus.capacity := by
        unfold Bus.subscribe at hb
        split at hb <;> cases hb
        rfl
      refine .requeued ?_ (.schedule _ _)
      exact retained.trans (.of_same rfl rfl hcapacity rfl)
  | emit s =>
    have sent : Effected a w { w with bus := (w.bus.emit s).1 } := .of_same rfl rfl rfl rfl
    exact sent.requeued (.scheduleAll _ _)
  | park name => exact retained.trans (.of_same rfl rfl rfl rfl)

theorem performAll_effected (a : ActionId) (es : List Effect) (w : World) :
    Effected a w (es.foldl (perform a) w) := by
  induction es generalizing w with
  | nil => exact .of_same rfl rfl rfl rfl
  | cons e es ih => exact (perform_effected a w e).trans (ih _)

theorem performAll_keeps (a : ActionId) (es : List Effect) (w : World) :
    Keeps (· = a) w (es.foldl (perform a) w) := by
  induction es generalizing w with
  | nil => exact .refl w
  | cons e es ih => exact (perform_keeps a w e).trans (ih _) fun _ h => h

/-- An action that has been begun, or does not exist, is refused. -/
theorem beginAction_refused {w : World} {a : ActionId} (v : Json) (h : w.started? a ≠ some false) :
    w.beginAction a v = (w, false) := by
  unfold started? at h
  unfold beginAction
  cases hi : w.instances[a]? with
  | none => rfl
  | some i =>
    cases hs : i.started with
    | true => simp only [hs, if_pos]
    | false => simp [hi, hs] at h

/-- The world in which an action counts as begun, before its effects. -/
def mark (w : World) (a : ActionId) (v : Json) : World :=
  { w.modifyInstance a fun i => { i with started := true } with begun := w.begun ++ [(a, v)] }

theorem beginAction_eq {w : World} {a : ActionId} (v : Json) (h : w.started? a = some false) :
    ∃ es : List Effect, w.beginAction a v = (es.foldl (perform a) (w.mark a v), true) := by
  obtain ⟨i, hi, hs⟩ := Option.map_eq_some_iff.1 h
  refine ⟨i.action.onBegin v, ?_⟩
  simp only [beginAction, hi, hs]
  rfl

theorem started?_mark (w : World) (a b : ActionId) (v : Json) :
    (w.mark a v).started? b = if b = a then (w.started? a).map fun _ => true else w.started? b := by
  simp only [started?, mark, modifyInstance, List.getElem?_modify]
  by_cases h : b = a
  · subst h
    cases w.instances[b]? <;> simp
  · simp [h, Ne.symm h]

theorem settlement?_mark (w : World) (a b : ActionId) (v : Json) :
    (w.mark a v).settlement? b = w.settlement? b :=
  settlement?_modifyInstance w a b _ fun _ => rfl

theorem mark_keeps {w : World} {a : ActionId} (v : Json) (h : w.started? a = some false) :
    Keeps (· = a) w (w.mark a v) where
  running := rfl
  begun _ hb := List.mem_append_left _ hb
  due _ ht := ht
  started b hb := by
    have hne : b ≠ a := by
      rintro rfl
      rw [h] at hb
      cases hb
    rw [started?_mark, if_neg hne]
    exact hb
  settled b s hs := (settlement?_mark w a b v).trans hs
  same b hb := ⟨by rw [started?_mark, if_neg hb], settlement?_mark w a b v⟩

/-- Beginning an action touches at most this action, and only if it had not been begun. -/
theorem beginAction_keeps (w : World) (a : ActionId) (v : Json) :
    Keeps (fun b => b = a ∧ w.started? b ≠ some true) w (w.beginAction a v).1 := by
  by_cases h : w.started? a = some false
  · obtain ⟨es, he⟩ := beginAction_eq v h
    rw [he]
    refine ((mark_keeps v h).trans (performAll_keeps a es _) fun _ hb => hb).mono ?_
    rintro b rfl
    exact ⟨rfl, by simp [h]⟩
  · rw [beginAction_refused v h]
    exact .refl w

/-- An action that had not been begun is begun with the given input. -/
theorem beginAction_began {w : World} {a : ActionId} (v : Json) (h : w.started? a = some false) :
    (w.beginAction a v).2 = true ∧ (w.beginAction a v).1.Began a v ∧
      (w.beginAction a v).1.begun = w.begun ++ [(a, v)] := by
  obtain ⟨es, he⟩ := beginAction_eq v h
  have hb : (es.foldl (perform a) (w.mark a v)).begun = w.begun ++ [(a, v)] :=
    (performAll_effected a es _).begun
  refine ⟨by rw [he], ⟨?_, ?_⟩, by rw [he, hb]⟩
  · rw [he, hb]
    simp
  · rw [he, (performAll_effected a es _).started?, started?_mark, if_pos rfl, h]
    rfl

/-! ## A look at a playlist -/

/-- What looking at leaves of `actions` does to the world: tasks are scheduled and some of these
actions are begun. -/
inductive Evolves (actions : List ActionId) : World → World → Prop where
  | refl (w : World) : Evolves actions w w
  | schedule {w w' : World} (t : Task) : Evolves actions w w' → Evolves actions w (w'.schedule t)
  | begins {w w' : World} {a : ActionId} (v : Json) : a ∈ actions → Evolves actions w w' →
      Evolves actions w (w'.beginAction a v).1

namespace Evolves

variable {actions actions' : List ActionId} {w w' w'' : World}

theorem scheduleAll (h : Evolves actions w w') (ts : List Task) :
    Evolves actions w (w'.scheduleAll ts) := by
  induction ts generalizing w' with
  | nil => exact h
  | cons t ts ih => exact ih (h.schedule t)

theorem trans (h : Evolves actions w w') (h' : Evolves actions w' w'') : Evolves actions w w'' := by
  induction h' with
  | refl => exact h
  | schedule t _ ih => exact ih.schedule t
  | begins v ha _ ih => exact ih.begins v ha

theorem mono (h : Evolves actions w w') (hsub : actions ⊆ actions') : Evolves actions' w w' := by
  induction h with
  | refl => exact .refl _
  | schedule t _ ih => exact ih.schedule t
  | begins v ha _ ih => exact ih.begins v (hsub ha)

/-- Only actions among the given ones are touched, and of these only those that had not been begun
before. -/
theorem keeps (h : Evolves actions w w') :
    Keeps (fun a => a ∈ actions ∧ w.started? a ≠ some true) w w' := by
  induction h with
  | refl => exact .refl w
  | schedule t _ ih => exact ih.trans (schedule_keeps _ t _) fun _ h => h
  | begins v ha _ ih =>
    refine ih.trans (beginAction_keeps _ _ v) ?_
    rintro b ⟨rfl, hb⟩
    exact ⟨ha, fun hs => hb (ih.started b hs)⟩

theorem started?_eq (h : Evolves actions w w') {a : ActionId} (ha : a ∉ actions) :
    w'.started? a = w.started? a :=
  (h.keeps.same a fun hm => ha hm.1).1

/-- A look leaves what has been begun before as it is. -/
theorem settlement?_eq (h : Evolves actions w w') {a : ActionId} (ha : w.started? a = some true) :
    w'.settlement? a = w.settlement? a :=
  (h.keeps.same a fun hn => hn.2 ha).2

/-- What is in the log afterwards was there before or is one of the actions that began. -/
theorem exists_log (h : Evolves actions w w') :
    ∃ log, w'.begun = w.begun ++ log ∧ ∀ b ∈ log, b.1 ∈ actions := by
  induction h with
  | refl => exact ⟨[], (List.append_nil _).symm, fun _ hb => by cases hb⟩
  | schedule t _ ih =>
    rw [schedule_begun]
    exact ih
  | @begins w₁ a v ha _ ih =>
    obtain ⟨log, hlog, hactions⟩ := ih
    by_cases hs : w₁.started? a = some false
    · refine ⟨log ++ [(a, v)], ?_, ?_⟩
      · rw [(beginAction_began v hs).2.2, hlog, List.append_assoc]
      · intro b hb
        rcases List.mem_append.1 hb with hb | hb
        · exact hactions b hb
        · obtain rfl := List.mem_singleton.1 hb
          exact ha
    · rw [beginAction_refused v hs]
      exact ⟨log, hlog, hactions⟩

end Evolves

/-! ## The log of begins -/

/-- Every action is begun at most once, and what is in the log has been begun. -/
structure Logged (w : World) : Prop where
  once : (w.begun.map Prod.fst).Nodup
  started : ∀ b ∈ w.begun, w.started? b.1 = some true

theorem Logged.of_keeps {touched : ActionId → Prop} {w w' : World} (h : w.Logged)
    (hk : Keeps touched w w') (hb : w'.begun = w.begun) : w'.Logged where
  once := by rw [hb]; exact h.once
  started b hm := hk.started b.1 (h.started b (hb ▸ hm))

/-- A change of anything but the instances and the log. -/
theorem Logged.of_same {w w' : World} (h : w.Logged) (hi : w'.instances = w.instances)
    (hb : w'.begun = w.begun) : w'.Logged where
  once := hb ▸ h.once
  started b hm := by
    rw [started?, hi]
    exact h.started b (hb ▸ hm)

/-- An action that can begin is not in the log. -/
theorem Logged.notMem {w : World} (h : w.Logged) {b : ActionId × Json} (hb : b ∈ w.begun) :
    w.started? b.1 ≠ some false := by
  rw [h.started b hb]
  exact fun h => by cases h

/-- One action more has begun, which had not before. -/
theorem Logged.append {w w' : World} {a : ActionId} {v : Json} (h : w.Logged)
    (ha : w.started? a = some false) (hbegun : w'.begun = w.begun ++ [(a, v)])
    (hstarted : w'.started? a = some true) (hothers : ∀ b, b ≠ a → w'.started? b = w.started? b) :
    w'.Logged := by
  have hne {b : ActionId × Json} (hb : b ∈ w.begun) : b.1 ≠ a := by
    rintro rfl
    exact h.notMem hb ha
  constructor
  · rw [hbegun, List.map_append, List.nodup_append]
    refine ⟨h.once, List.nodup_singleton _, fun d hd _ hda heq => ?_⟩
    obtain ⟨b, hb, rfl⟩ := List.mem_map.1 hd
    exact hne hb (heq.trans (List.mem_singleton.1 hda))
  · intro b hb
    rw [hbegun] at hb
    rcases List.mem_append.1 hb with hb | hb
    · rw [hothers b.1 (hne hb)]
      exact h.started b hb
    · rw [List.mem_singleton.1 hb]
      exact hstarted

theorem Logged.beginAction {w : World} (h : w.Logged) (a : ActionId) (v : Json) :
    (w.beginAction a v).1.Logged := by
  by_cases hs : w.started? a = some false
  · obtain ⟨-, hb, hlog⟩ := beginAction_began v hs
    exact h.append hs hlog hb.2 fun b hne =>
      ((beginAction_keeps w a v).same b fun hn => hne hn.1).1
  · rw [beginAction_refused v hs]
    exact h

theorem Evolves.logged {actions : List ActionId} {w w' : World} (he : Evolves actions w w')
    (h : w.Logged) : w'.Logged := by
  induction he with
  | refl => exact h
  | schedule t _ ih => exact ih.of_keeps (schedule_keeps _ t fun _ => False) (schedule_begun _ t)
  | begins v _ _ ih => exact ih.beginAction _ v

/-- An action has begun with one input only. -/
theorem Logged.input_unique {w : World} (h : w.Logged) {a : ActionId} {v v' : Json}
    (hb : (a, v) ∈ w.begun) (hb' : (a, v') ∈ w.begun) : v = v' := by
  have := List.inj_on_of_nodup_map h.once hb hb' rfl
  exact congrArg Prod.snd this

end World

end Rundown
