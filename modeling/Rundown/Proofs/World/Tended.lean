import Rundown.Proofs.Signal.Bus
import Rundown.Proofs.World.Settling

/-!
# A world that is left to itself

When nobody interferes, what a begun action is still to do is looked after: a wait that has not
ended has a timer with the deadline that its begin and its delay say, and an action that awaits a
signal has a joined listener whose mailbox holds the signals of its name that were sent since.
`World.Tended` says so of every begin in the log.  It is kept by begins (`World.Tended.begin`), by
the tasks of timers and listeners (`World.Tended.runTimer`, `World.Tended.runListener`) and by the
clock (`World.Tended.moveClock`).

`since` is when an action began, or the present for one that has not, and `due` tells which tasks
are sure to run.
-/

namespace Rundown

/-- What the built-in actions do when they begin. -/
inductive Plain : List Effect → Prop where
  | wait (delay : Duration) (value : Json) : Plain [.completeAfter delay value]
  | settle (s : Settlement) : Plain [.settle s]
  | listen (name : String) : Plain [.listen name]
  | emit (s : Signal) (outcome : Settlement) : Plain [.emit s, .settle outcome]

namespace World

/-- What beginning an action with an input does. -/
def effects (w : World) (b : ActionId × Json) : List Effect :=
  (w.actions[b.1]?.map fun action => action.onBegin b.2).getD []

/-- The begin `c` comes later in the log than that of `a`. -/
def After (w : World) (a : ActionId) (c : ActionId × Json) : Prop :=
  ∃ (i j : Nat) (v : Json), i < j ∧ w.begun[i]? = some (a, v) ∧ w.begun[j]? = some c

/-- The signal was sent after `a` had begun. -/
def Sent (w : World) (a : ActionId) (s : Signal) : Prop :=
  ∃ c, w.After a c ∧ .emit s ∈ w.effects c

/-- The timer belongs to a wait that has begun and not ended, and its task is sure to run when it
has something to do. -/
structure Timed (w : World) (since : ActionId → Nat) (due : Task → Prop) (t : Timer) : Prop where
  waits : ∃ v, (t.action, v) ∈ w.begun ∧
    w.effects (t.action, v) = [.completeAfter t.delay t.value]
  unsettled : w.settlement? t.action = none
  deadline : (t.deadline = none ∧ since t.action = w.clock) ∨
    t.deadline = some (since t.action + t.delay.timerMillis)
  due : (∃ d, t.deadline = some d ∧ w.clock < d) ∨ due (.timer t.id)

/-- The listener belongs to an action that has begun to await a signal and not settled, and its task
is sure to run when a signal is there. -/
structure Heeds (w : World) (due : Task → Prop) (l : Listener) : Prop where
  ended : l.ended = false
  awaits : ∃ v, (l.action, v) ∈ w.begun ∧ w.effects (l.action, v) = [.listen l.name]
  unsettled : w.settlement? l.action = none
  joined : ∀ name, w.bus.Joined name l.receiver ↔ name = l.name
  mailbox : ∃ m, w.bus.mailbox? l.receiver = some m ∧
    (∀ s ∈ m.unread, s.name = l.name ∧ w.Sent l.action s) ∧
    (m.unread = [] → ∀ s, w.Sent l.action s → s.name ≠ l.name) ∧
    (m.unread = [] ∨ due (.listener l.receiver))

/-- What has become of a begin: it has settled as it should, or somebody is at it. -/
structure Honours (w : World) (since : ActionId → Nat) (b : ActionId × Json) : Prop where
  settles : ∀ s, .settle s ∈ w.effects b → w.settlement? b.1 = some s
  waits : ∀ delay value, w.effects b = [.completeAfter delay value] →
    (w.settlement? b.1 = some (.ok value) ∧ since b.1 + delay.timerMillis ≤ w.clock) ∨
      ∃ t ∈ w.timers, t.action = b.1
  listens : ∀ name, w.effects b = [.listen name] →
    (∃ s, w.Sent b.1 s ∧ s.name = name ∧ w.settlement? b.1 = some (settlementOf s)) ∨
      ∃ l ∈ w.listeners, l.action = b.1

/-- Every begin is looked after, and nothing else settles. -/
structure Tended (w : World) (since : ActionId → Nat) (due : Task → Prop) : Prop where
  tidy : w.bus.Tidy
  capacity : w.bus.capacity ≠ 0
  logged : w.Logged
  listed : ∀ a, w.started? a = some true → ∃ v, (a, v) ∈ w.begun
  unsettled : ∀ a, w.started? a ≠ some true → w.settlement? a = none
  newcomers : ∀ a, w.started? a ≠ some true → since a = w.clock
  plain : ∀ b, b.1 < w.actions.length → Plain (w.effects b)
  nextTimer : ∀ t ∈ w.timers, t.id < w.nextTimer
  timerIds : ∀ t ∈ w.timers, ∀ t' ∈ w.timers, t.id = t'.id → t = t'
  timerActions : ∀ t ∈ w.timers, ∀ t' ∈ w.timers, t.action = t'.action → t = t'
  timers : ∀ t ∈ w.timers, w.Timed since due t
  receivers : ∀ l ∈ w.listeners, ∀ l' ∈ w.listeners, l.receiver = l'.receiver → l = l'
  listenerActions : ∀ l ∈ w.listeners, ∀ l' ∈ w.listeners, l.action = l'.action → l = l'
  listeners : ∀ l ∈ w.listeners, w.Heeds due l
  honours : ∀ b ∈ w.begun, w.Honours since b

variable {w w' : World} {since : ActionId → Nat} {due due' : Task → Prop} {a b : ActionId}
  {v : Json} {c : ActionId × Json} {s : Signal}

/-! ## Frames -/

theorem actions_release (w : World) (a : ActionId) : (w.release a).actions = w.actions :=
  actions_modifyInstance w a _ fun _ => rfl

theorem actions_mark (w : World) (a : ActionId) (v : Json) : (w.mark a v).actions = w.actions :=
  actions_modifyInstance w a _ fun _ => rfl

theorem settle_unsettled {s : Settlement} (h : w.settlement? a = none) :
    w.settle a s = (w.modifyInstance a fun i => { i with settlement := some s }, true) := by
  rw [settle, if_neg]
  rw [isSettled, h]
  decide

/-- A completion that had not settled settles. -/
theorem settlement?_settle_self {s : Settlement} (h : w.settlement? a = none)
    (hs : w.started? a ≠ none) : (w.settle a s).1.settlement? a = some s := by
  rw [settle_unsettled h, settlement?_modifyInstance_self]
  cases hi : w.instances[a]? with
  | none => exact absurd (by rw [started?, hi]; rfl) hs
  | some i => rfl

/-- Beginning to listen, on a bus that gives a receiver. -/
theorem perform_listen {name : String} {bus : Bus} {r : ReceiverId}
    (hb : w.bus.subscribe name = some (bus, r)) :
    perform a w (.listen name) = World.schedule { w.retain a with
      bus := bus
      listeners := w.listeners ++ [⟨r, a, name, false⟩] } (.listener r) := by
  simp only [perform, hb]

theorem effects_congr (h : w'.actions = w.actions) (c : ActionId × Json) :
    w'.effects c = w.effects c := by
  rw [effects, effects, h]

theorem Logged.lt (h : w.Logged) (hc : c ∈ w.begun) : c.1 < w.actions.length := by
  obtain ⟨i, hi, -⟩ := Option.map_eq_some_iff.1 (h.started c hc)
  rw [length_actions]
  exact (List.getElem?_eq_some_iff.1 hi).1

/-! ## What was sent since -/

theorem After.mem_left (h : w.After a c) : ∃ v, (a, v) ∈ w.begun :=
  let ⟨_, _, v, _, hi, _⟩ := h
  ⟨v, List.mem_of_getElem? hi⟩

theorem After.mem_right (h : w.After a c) : c ∈ w.begun :=
  let ⟨_, _, _, _, _, hj⟩ := h
  List.mem_of_getElem? hj

theorem After.mono (h : w.After a c) (hearlier : w.begun <+: w'.begun) : w'.After a c := by
  obtain ⟨i, j, v, hij, hi, hj⟩ := h
  obtain ⟨more, hmore⟩ := hearlier
  rw [List.getElem?_eq_some_iff] at hi hj
  obtain ⟨hi, hiv⟩ := hi
  obtain ⟨hj, hjv⟩ := hj
  refine ⟨i, j, v, hij, ?_, ?_⟩
  · rw [← hmore, List.getElem?_append_left hi, List.getElem?_eq_getElem hi, hiv]
  · rw [← hmore, List.getElem?_append_left hj, List.getElem?_eq_getElem hj, hjv]

theorem after_append {d : ActionId × Json} (hbegun : w'.begun = w.begun ++ [c]) :
    w'.After a d ↔ w.After a d ∨ (d = c ∧ ∃ v, (a, v) ∈ w.begun) := by
  constructor
  · rintro ⟨i, j, v, hij, hi, hj⟩
    rw [hbegun] at hi hj
    have hlt : j < (w.begun ++ [c]).length := (List.getElem?_eq_some_iff.1 hj).1
    rw [List.length_append, List.length_singleton] at hlt
    rw [List.getElem?_append_left (by omega)] at hi
    rcases Nat.lt_succ_iff_lt_or_eq.1 hlt with hlt | rfl
    · rw [List.getElem?_append_left hlt] at hj
      exact .inl ⟨i, j, v, hij, hi, hj⟩
    · rw [List.getElem?_concat_length] at hj
      exact .inr ⟨(Option.some.inj hj).symm, v, List.mem_of_getElem? hi⟩
  · rintro (h | ⟨rfl, v, hv⟩)
    · exact h.mono ⟨[c], hbegun.symm⟩
    · obtain ⟨i, hlt, hi⟩ := List.getElem_of_mem hv
      refine ⟨i, w.begun.length, v, hlt, ?_, ?_⟩
      · rw [hbegun, List.getElem?_append_left hlt, List.getElem?_eq_getElem hlt, hi]
      · rw [hbegun, List.getElem?_concat_length]

theorem Sent.mono (h : w.Sent a s) (hactions : w'.actions = w.actions)
    (hearlier : w.begun <+: w'.begun) : w'.Sent a s := by
  obtain ⟨c, hc, he⟩ := h
  exact ⟨c, hc.mono hearlier, effects_congr hactions c ▸ he⟩

theorem sent_congr (hactions : w'.actions = w.actions) (hbegun : w'.begun = w.begun) :
    w'.Sent a s ↔ w.Sent a s :=
  ⟨fun h => h.mono hactions.symm (hbegun ▸ List.prefix_refl _),
    fun h => h.mono hactions (hbegun ▸ List.prefix_refl _)⟩

/-! ## What does not concern an action -/

/-- What has become of the action `a` in `w` is what has become of it in `w'`. -/
structure Unaffected (w w' : World) (a : ActionId) : Prop where
  begun : ∀ u, (a, u) ∈ w.begun → (a, u) ∈ w'.begun
  effects : ∀ u, (a, u) ∈ w.begun → w'.effects (a, u) = w.effects (a, u)
  settlement : w'.settlement? a = w.settlement? a

/-- Neither instances nor the log differ. -/
theorem Unaffected.of_same (hinstances : w'.instances = w.instances) (hbegun : w'.begun = w.begun) :
    Unaffected w w' a where
  begun _ hu := hbegun ▸ hu
  effects _ _ := effects_congr (by rw [World.actions, hinstances, World.actions]) _
  settlement := by rw [settlement?, hinstances, settlement?]

theorem Timed.of_unaffected {t : Timer} (ht : w.Timed since due t) (h : Unaffected w w' t.action)
    (hclock : w'.clock = w.clock) (hdue : due (.timer t.id) → due' (.timer t.id)) :
    w'.Timed since due' t where
  waits := by
    obtain ⟨u, hu, he⟩ := ht.waits
    exact ⟨u, h.begun u hu, (h.effects u hu).trans he⟩
  unsettled := h.settlement.trans ht.unsettled
  deadline := hclock ▸ ht.deadline
  due := by
    rw [hclock]
    exact ht.due.imp_right hdue

theorem Heeds.of_unaffected {l : Listener} (hl : w.Heeds due l) (h : Unaffected w w' l.action)
    (hsent : ∀ s, w'.Sent l.action s ↔ w.Sent l.action s)
    (hjoined : ∀ name, w'.bus.Joined name l.receiver ↔ w.bus.Joined name l.receiver)
    (hmailbox : w'.bus.mailbox? l.receiver = w.bus.mailbox? l.receiver)
    (hdue : due (.listener l.receiver) → due' (.listener l.receiver)) : w'.Heeds due' l where
  ended := hl.ended
  awaits := by
    obtain ⟨u, hu, he⟩ := hl.awaits
    exact ⟨u, h.begun u hu, (h.effects u hu).trans he⟩
  unsettled := h.settlement.trans hl.unsettled
  joined name := (hjoined name).trans (hl.joined name)
  mailbox := by
    obtain ⟨m, hm, hunread, hempty, hwake⟩ := hl.mailbox
    refine ⟨m, hmailbox.trans hm, fun s hs => ?_, fun hnil s hs => ?_, hwake.imp_right hdue⟩
    · exact ⟨(hunread s hs).1, (hsent s).2 (hunread s hs).2⟩
    · exact hempty hnil s ((hsent s).1 hs)

/-- Whoever was at a begin still is. -/
theorem Honours.of_unaffected (hb : w.Honours since c) (hmem : c ∈ w.begun)
    (h : Unaffected w w' c.1) (hclock : w'.clock = w.clock)
    (hsent : ∀ s, w.Sent c.1 s → w'.Sent c.1 s)
    (htimers : ∀ t ∈ w.timers, t.action = c.1 → ∃ t' ∈ w'.timers, t'.action = c.1)
    (hlisteners : ∀ l ∈ w.listeners, l.action = c.1 → ∃ l' ∈ w'.listeners, l'.action = c.1) :
    w'.Honours since c := by
  have heffects : w'.effects c = w.effects c := h.effects c.2 hmem
  refine ⟨fun s hs => ?_, fun delay value he => ?_, fun name he => ?_⟩
  · rw [h.settlement]
    exact hb.settles s (heffects ▸ hs)
  · rw [h.settlement, hclock]
    exact (hb.waits delay value (heffects ▸ he)).imp_right fun ⟨t, ht, hta⟩ => htimers t ht hta
  · rw [h.settlement]
    refine (hb.listens name (heffects ▸ he)).imp ?_ fun ⟨l, hl, hla⟩ => hlisteners l hl hla
    exact fun ⟨s, hs, hsn⟩ => ⟨s, hsent s hs, hsn⟩

/-- A list of which no two members have the same key, followed by at most one with a new key. -/
theorem eq_of_key_append {α β : Type} {key : α → β} {xs ys : List α}
    (hxs : ∀ x ∈ xs, ∀ x' ∈ xs, key x = key x' → x = x')
    (hys : ∀ y ∈ ys, ys = [y] ∧ ∀ x ∈ xs, key x ≠ key y) :
    ∀ x ∈ xs ++ ys, ∀ x' ∈ xs ++ ys, key x = key x' → x = x' := by
  intro x hx x' hx' hkey
  rcases List.mem_append.1 hx with hx | hx <;> rcases List.mem_append.1 hx' with hx' | hx'
  · exact hxs x hx x' hx' hkey
  · exact absurd hkey ((hys x' hx').2 x hx)
  · exact absurd hkey.symm ((hys x hx).2 x' hx')
  · rw [(hys x' hx').1] at hx
    exact List.mem_singleton.1 hx

/-! ## Beginning an action -/

/-- The action `a` has begun with the input `v`, and nothing else has become of any action. -/
structure Begins (w w' : World) (a : ActionId) (v : Json) : Prop where
  clock : w'.clock = w.clock
  actions : w'.actions = w.actions
  begun : w'.begun = w.begun ++ [(a, v)]
  started : w'.started? a = some true
  others : ∀ b, b ≠ a → w'.started? b = w.started? b ∧ w'.settlement? b = w.settlement? b

theorem beginAction_eq_effects (v : Json) (h : w.started? a = some false) :
    w.beginAction a v = ((w.effects (a, v)).foldl (perform a) (w.mark a v), true) := by
  obtain ⟨i, hi, hs⟩ := Option.map_eq_some_iff.1 h
  have he : w.effects (a, v) = i.action.onBegin v := by
    simp only [effects, actions, List.getElem?_map, hi, Option.map_some, Option.getD_some]
  simp only [beginAction, hi, hs, he]
  rfl

theorem beginAction_begins (v : Json) (h : w.started? a = some false) :
    Begins w (w.beginAction a v).1 a v := by
  have heffected := performAll_effected a (w.effects (a, v)) (w.mark a v)
  have heq := congrArg Prod.fst (beginAction_eq_effects v h)
  obtain ⟨-, hbegan, hbegun⟩ := beginAction_began v h
  refine ⟨(congrArg clock heq).trans heffected.clock, ?_, hbegun, hbegan.started, fun b hb => ?_⟩
  · exact (congrArg World.actions heq).trans (heffected.actions.trans (actions_mark w a v))
  exact (beginAction_keeps w a v).same b fun hn => hb hn.1

namespace Begins

variable (h : Begins w w' a v)

include h

theorem sent {d : ActionId} (hd : ∃ u, (d, u) ∈ w.begun) :
    w'.Sent d s ↔ w.Sent d s ∨ .emit s ∈ w.effects (a, v) := by
  unfold Sent
  simp only [effects_congr h.actions, after_append h.begun]
  constructor
  · rintro ⟨c, hc | ⟨rfl, -⟩, he⟩
    · exact .inl ⟨c, hc, he⟩
    · exact .inr he
  · rintro (⟨c, hc, he⟩ | he)
    · exact ⟨c, .inl hc, he⟩
    · exact ⟨_, .inr ⟨rfl, hd⟩, he⟩

/-- Nothing has been sent yet when an action begins. -/
theorem not_sent (hlogged : w.Logged) (ha : w.started? a = some false) : ¬w'.Sent a s := by
  rintro ⟨c, hc, -⟩
  have hnone : ¬∃ u, (a, u) ∈ w.begun := fun ⟨u, hu⟩ => hlogged.notMem hu ha
  rcases (after_append h.begun).1 hc with hc | ⟨-, hu⟩
  · exact hnone hc.mem_left
  · exact hnone hu

theorem ne_of_begun (hlogged : w.Logged) (ha : w.started? a = some false) {d : ActionId}
    (hd : ∃ u, (d, u) ∈ w.begun) : d ≠ a := by
  rintro rfl
  obtain ⟨u, hu⟩ := hd
  exact hlogged.notMem hu ha

theorem unaffected (hlogged : w.Logged) (ha : w.started? a = some false) {d : ActionId}
    (hd : ∃ u, (d, u) ∈ w.begun) : Unaffected w w' d where
  begun _ hu := h.begun ▸ List.mem_append_left _ hu
  effects _ _ := effects_congr h.actions _
  settlement := (h.others d (h.ne_of_begun hlogged ha hd)).2

theorem timed (hlogged : w.Logged) (ha : w.started? a = some false)
    (hdue : ∀ u, due u → due' u) {t : Timer} (ht : w.Timed since due t) :
    w'.Timed since due' t :=
  ht.of_unaffected (h.unaffected hlogged ha (ht.waits.imp fun _ => And.left)) h.clock (hdue _)

/-- A listener is not concerned by a begin that sends nothing. -/
theorem heeds (hlogged : w.Logged) (ha : w.started? a = some false)
    (hdue : ∀ u, due u → due' u) {l : Listener} (hl : w.Heeds due l)
    (hnone : ∀ s, .emit s ∉ w.effects (a, v))
    (hjoined : ∀ name, w'.bus.Joined name l.receiver ↔ w.bus.Joined name l.receiver)
    (hmailbox : w'.bus.mailbox? l.receiver = w.bus.mailbox? l.receiver) : w'.Heeds due' l := by
  have hbegun : ∃ u, (l.action, u) ∈ w.begun := hl.awaits.imp fun _ => And.left
  refine hl.of_unaffected (h.unaffected hlogged ha hbegun) (fun s => ?_) hjoined hmailbox (hdue _)
  rw [h.sent hbegun, or_iff_left (hnone s)]

/-- A signal comes into the mailboxes of those who listen for its name. -/
theorem heeds_emit (hlogged : w.Logged) (ha : w.started? a = some false) (htidy : w.bus.Tidy)
    (hdue : ∀ u, due u → due' u) {l : Listener} (hl : w.Heeds due l)
    (hsignals : ∀ s', .emit s' ∈ w.effects (a, v) ↔ s' = s) (hbus : w'.bus = (w.bus.emit s).1)
    (hwoken : l.receiver ∈ w.bus.membersOf s.name → due' (.listener l.receiver)) :
    w'.Heeds due' l := by
  obtain ⟨u, hu, he⟩ := hl.awaits
  have hsame := h.unaffected hlogged ha ⟨u, hu⟩
  have hsent : ∀ s', w'.Sent l.action s' ↔ w.Sent l.action s' ∨ s' = s := fun s' => by
    rw [h.sent ⟨u, hu⟩, hsignals]
  have hmember : l.receiver ∈ w.bus.membersOf s.name ↔ s.name = l.name :=
    (Bus.mem_membersOf htidy).trans (hl.joined _)
  obtain ⟨m, hm, hunread, hempty, hwake⟩ := hl.mailbox
  refine ⟨hl.ended, ⟨u, hsame.begun u hu, (hsame.effects u hu).trans he⟩,
    hsame.settlement.trans hl.unsettled, fun name => ?_, ?_⟩
  · exact hbus ▸ Bus.joined_emit.trans (hl.joined name)
  · refine ⟨_, by rw [hbus, Bus.mailbox?_emit, hm, Option.map_some], ?_⟩
    by_cases hname : s.name = l.name
    · rw [if_pos (hmember.2 hname)]
      refine ⟨fun s' hs' => ?_, fun hnil => absurd hnil (Mailbox.push_ne_nil _ _ _),
        .inr (hwoken (hmember.2 hname))⟩
      rcases Mailbox.mem_push hs' with hs' | rfl
      · exact ⟨(hunread s' hs').1, (hsent s').2 (.inl (hunread s' hs').2)⟩
      · exact ⟨hname, (hsent s').2 (.inr rfl)⟩
    · rw [if_neg fun hm => hname (hmember.1 hm)]
      refine ⟨fun s' hs' => ⟨(hunread s' hs').1, (hsent s').2 (.inl (hunread s' hs').2)⟩,
        fun hnil s' hs' => ?_, hwake.imp_right (hdue _)⟩
      rcases (hsent s').1 hs' with hs' | rfl
      · exact hempty hnil s' hs'
      · exact hname

end Begins

namespace Tended

/-- Which tasks are sure to run matters for those of timers and listeners only. -/
theorem weaken (h : w.Tended since due)
    (htimers : ∀ t ∈ w.timers, (∃ d, t.deadline = some d ∧ w.clock < d) ∨
      (due (.timer t.id) → due' (.timer t.id)))
    (hlisteners : ∀ l ∈ w.listeners, due (.listener l.receiver) → due' (.listener l.receiver)) :
    w.Tended since due' :=
  { h with
    timers := fun t ht => { h.timers t ht with
      due := (htimers t ht).elim .inl (h.timers t ht).due.imp_right }
    listeners := fun l hl => { h.listeners l hl with
      mailbox := by
        obtain ⟨m, hm, hunread, hempty, hwake⟩ := (h.listeners l hl).mailbox
        exact ⟨m, hm, hunread, hempty, hwake.imp_right (hlisteners l hl)⟩ } }

theorem mono (h : w.Tended since due) (hdue : ∀ u, due u → due' u) : w.Tended since due' :=
  h.weaken (fun _ _ => .inr (hdue _)) fun _ _ => hdue _

/-- Queues matter only as far as tasks are sure to run. -/
theorem requeue (h : w.Tended since due) (hw : Requeued w w') : w'.Tended since due := by
  obtain ⟨_, _, _, _, rfl⟩ := hw
  exact ⟨h.tidy, h.capacity, ⟨h.logged.once, h.logged.started⟩, h.listed, h.unsettled, h.newcomers,
    h.plain, h.nextTimer, h.timerIds, h.timerActions,
    fun t ht => ⟨(h.timers t ht).waits, (h.timers t ht).unsettled, (h.timers t ht).deadline,
      (h.timers t ht).due⟩,
    h.receivers, h.listenerActions,
    fun l hl => ⟨(h.listeners l hl).ended, (h.listeners l hl).awaits, (h.listeners l hl).unsettled,
      (h.listeners l hl).joined, (h.listeners l hl).mailbox⟩,
    fun b hb => ⟨(h.honours b hb).settles, (h.honours b hb).waits, (h.honours b hb).listens⟩⟩

/-- Only what has begun settles. -/
theorem begun_of_settled {o : Settlement} (h : w.Tended since due)
    (ho : w.settlement? a = some o) : ∃ v, (a, v) ∈ w.begun := by
  by_cases hs : w.started? a = some true
  · exact h.listed a hs
  · rw [h.unsettled a hs] at ho
    cases ho

theorem plain_of_begun (h : w.Tended since due) (hc : c ∈ w.begun) : Plain (w.effects c) :=
  h.plain c (h.logged.lt hc)

/-- A begin has been honoured once it is in the log, by what it brought along: at most one timer and
at most one listener. -/
theorem grown (h : w.Tended since due) (ha : w.started? a = some false)
    (hw : Begins w w' a v) (hdue : ∀ u, due u → due' u) (htidy : w'.bus.Tidy)
    (hcapacity : w'.bus.capacity = w.bus.capacity) (ts : List Timer) (ls : List Listener)
    (htimers : w'.timers = w.timers ++ ts) (hnext : w.nextTimer ≤ w'.nextTimer)
    (hts : ∀ t ∈ ts, ts = [t] ∧ t.id = w.nextTimer ∧ t.id < w'.nextTimer ∧ t.action = a ∧
      w'.Timed since due' t)
    (hlisteners : w'.listeners = w.listeners ++ ls)
    (hls : ∀ l ∈ ls, ls = [l] ∧ (∀ l' ∈ w.listeners, l'.receiver ≠ l.receiver) ∧ l.action = a ∧
      w'.Heeds due' l)
    (hold : ∀ l ∈ w.listeners, w'.Heeds due' l) (hown : w'.Honours since (a, v)) :
    w'.Tended since due' := by
  have hne {d : ActionId} (hd : ∃ u, (d, u) ∈ w.begun) : d ≠ a := hw.ne_of_begun h.logged ha hd
  have htimer {t : Timer} (ht : t ∈ w.timers) : t.action ≠ a :=
    hne ((h.timers t ht).waits.imp fun _ hu => hu.1)
  have hlistener {l : Listener} (hl : l ∈ w.listeners) : l.action ≠ a :=
    hne ((h.listeners l hl).awaits.imp fun _ hu => hu.1)
  have hstarted {d : ActionId} (hd : w'.started? d ≠ some true) : d ≠ a ∧
      w.started? d ≠ some true := by
    have hda : d ≠ a := by
      rintro rfl
      exact hd hw.started
    exact ⟨hda, (hw.others d hda).1 ▸ hd⟩
  constructor
  case tidy => exact htidy
  case capacity => exact hcapacity ▸ h.capacity
  case logged => exact h.logged.append ha hw.begun hw.started fun d hd => (hw.others d hd).1
  case listed =>
    intro d hd
    simp only [hw.begun, List.mem_append, List.mem_singleton, Prod.mk.injEq]
    by_cases hda : d = a
    · exact ⟨v, .inr ⟨hda, rfl⟩⟩
    · rw [(hw.others d hda).1] at hd
      obtain ⟨u, hu⟩ := h.listed d hd
      exact ⟨u, .inl hu⟩
  case unsettled =>
    intro d hd
    obtain ⟨hda, hd⟩ := hstarted hd
    rw [(hw.others d hda).2, h.unsettled d hd]
  case newcomers =>
    intro d hd
    rw [hw.clock, h.newcomers d (hstarted hd).2]
  case plain =>
    intro d hd
    rw [effects_congr hw.actions]
    rw [hw.actions] at hd
    exact h.plain d hd
  case nextTimer =>
    intro t ht
    rw [htimers] at ht
    rcases List.mem_append.1 ht with ht | ht
    · exact Nat.lt_of_lt_of_le (h.nextTimer t ht) hnext
    · exact (hts t ht).2.2.1
  case timerIds =>
    rw [htimers]
    refine eq_of_key_append h.timerIds fun t ht => ⟨(hts t ht).1, fun t₀ ht₀ => ?_⟩
    rw [(hts t ht).2.1]
    exact Nat.ne_of_lt (h.nextTimer t₀ ht₀)
  case timerActions =>
    rw [htimers]
    refine eq_of_key_append h.timerActions fun t ht => ⟨(hts t ht).1, fun t₀ ht₀ => ?_⟩
    rw [(hts t ht).2.2.2.1]
    exact htimer ht₀
  case timers =>
    intro t ht
    rw [htimers] at ht
    rcases List.mem_append.1 ht with ht | ht
    · exact hw.timed h.logged ha hdue (h.timers t ht)
    · exact (hts t ht).2.2.2.2
  case receivers =>
    rw [hlisteners]
    exact eq_of_key_append h.receivers fun l hl => ⟨(hls l hl).1, (hls l hl).2.1⟩
  case listenerActions =>
    rw [hlisteners]
    refine eq_of_key_append h.listenerActions fun l hl => ⟨(hls l hl).1, fun l₀ hl₀ => ?_⟩
    rw [(hls l hl).2.2.1]
    exact hlistener hl₀
  case listeners =>
    intro l hl
    rw [hlisteners] at hl
    rcases List.mem_append.1 hl with hl | hl
    · exact hold l hl
    · exact (hls l hl).2.2.2
  case honours =>
    intro d hd
    rw [hw.begun] at hd
    rcases List.mem_append.1 hd with hd | hd
    · refine (h.honours d hd).of_unaffected hd (hw.unaffected h.logged ha ⟨d.2, hd⟩) hw.clock
        (fun s hs => hs.mono hw.actions ⟨_, hw.begun.symm⟩) (fun t ht hta => ?_) fun l hl hla => ?_
      · exact ⟨t, htimers ▸ List.mem_append_left _ ht, hta⟩
      · exact ⟨l, hlisteners ▸ List.mem_append_left _ hl, hla⟩
    · rw [List.mem_singleton.1 hd]
      exact hown

section Begin

variable (h : w.Tended since due) (ha : w.started? a = some false) (hdue : ∀ u, due u → due' u)
  (hnew : ∀ u, (w.beginAction a v).1.Due u → due' u)

include h ha hdue

/-- An action that settles as it begins. -/
theorem begin_settle {s : Settlement} (he : w.effects (a, v) = [.settle s]) :
    (w.beginAction a v).1.Tended since due' := by
  have hw := beginAction_begins v ha
  have heq : (w.beginAction a v).1 = ((w.mark a v).settle a s).1 := by
    rw [beginAction_eq_effects v ha, he]
    rfl
  have hnone : (w.mark a v).settlement? a = none := by
    rw [settlement?_mark, h.unsettled a (by simp [ha])]
  have hset : (w.beginAction a v).1.settlement? a = some s := by
    rw [heq, settlement?_settle_self hnone]
    simp [started?_mark, ha]
  rw [settle_unsettled hnone] at heq
  refine h.grown ha hw hdue (heq ▸ h.tidy) (heq ▸ rfl) [] []
    (by rw [heq, List.append_nil]; rfl) (heq ▸ Nat.le_refl _) (fun _ ht => by cases ht)
    (by rw [heq, List.append_nil]; rfl) (fun _ hl => by cases hl) (fun l hl => ?_) ?_
  · exact hw.heeds h.logged ha hdue (h.listeners l hl) (by simp [he]) (fun _ => heq ▸ .rfl)
      (heq ▸ rfl)
  · refine ⟨fun s' hs' => ?_, fun _ _ he' => ?_, fun _ he' => ?_⟩
    · rw [effects_congr hw.actions, he, List.mem_singleton, Effect.settle.injEq] at hs'
      exact hs' ▸ hset
    · rw [effects_congr hw.actions, he] at he'
      cases he'
    · rw [effects_congr hw.actions, he] at he'
      cases he'

/-- An action that awaits a signal begins with a listener of its own. -/
theorem begin_listen {name : String} (he : w.effects (a, v) = [.listen name]) :
    (w.beginAction a v).1.Tended since due' := by
  have hw := beginAction_begins v ha
  obtain ⟨bus, hbus, hsub⟩ := h.tidy.subscribe h.capacity name
  have heq : (w.beginAction a v).1 = World.schedule { (w.mark a v).retain a with
      bus := bus
      listeners := w.listeners ++ [⟨w.bus.nextReceiver, a, name, false⟩] }
        (.listener w.bus.nextReceiver) := by
    have hbus' : (w.mark a v).bus.subscribe name = some (bus, w.bus.nextReceiver) := hbus
    rw [beginAction_eq_effects v ha, he, List.foldl_cons, List.foldl_nil, perform_listen hbus']
    rfl
  have hq := Requeued.schedule { (w.mark a v).retain a with
      bus := bus
      listeners := w.listeners ++ [⟨w.bus.nextReceiver, a, name, false⟩] }
        (.listener w.bus.nextReceiver)
  rw [← heq] at hq
  have hset : (w.beginAction a v).1.settlement? a = none := by
    rw [hq.settlement?]
    change ((w.mark a v).retain a).settlement? a = none
    rw [((retain_keeps (w.mark a v) a fun _ => False).same a id).2, settlement?_mark,
      h.unsettled a (by simp [ha])]
  have hmem : (a, v) ∈ (w.beginAction a v).1.begun := by simp [hw.begun]
  -- no listener has the new receiver, which has been joined to no channel
  have hother {l : Listener} (hl : l ∈ w.listeners) : l.receiver ≠ w.bus.nextReceiver := by
    intro hr
    exact hsub.unjoined l.name (hr ▸ ((h.listeners l hl).joined l.name).2 rfl)
  refine h.grown ha hw hdue (hq.listeners.2 ▸ hsub.tidy)
    (by rw [hq.listeners.2]; exact hsub.capacity) [] _ (by rw [hq.timers.1, List.append_nil]; rfl)
    (by rw [hq.timers.2]; exact Nat.le_refl _) (fun _ ht => by cases ht) hq.listeners.1
    (fun l hl => ?_) (fun l hl => ?_) ?_
  · obtain rfl := List.mem_singleton.1 hl
    refine ⟨rfl, fun l' hl' => hother hl', rfl, rfl, ⟨v, hmem, ?_⟩, hset, fun name' => ?_,
      ⟨[], 0⟩, ?_, fun s hs => absurd hs List.not_mem_nil, fun _ s hs => ?_, .inl rfl⟩
    · rw [effects_congr hw.actions, he]
    · rw [hq.listeners.2]
      refine (hsub.joined name' _).trans ⟨?_, fun hn => .inr ⟨hn, rfl⟩⟩
      exact fun hj => hj.elim (fun hj => absurd hj (hsub.unjoined name')) And.left
    · rw [hq.listeners.2]
      exact hsub.mailbox
    · exact absurd hs (hw.not_sent h.logged ha)
  · refine hw.heeds h.logged ha hdue (h.listeners l hl) (by simp [he]) (fun name' => ?_) ?_
    · rw [hq.listeners.2]
      refine (hsub.joined name' _).trans (or_iff_left ?_)
      exact fun hn => hother hl hn.2
    · rw [hq.listeners.2]
      exact hsub.others _ (hother hl)
  · refine ⟨fun s' hs' => ?_, fun _ _ he' => ?_, fun _ _ => .inr ?_⟩
    · simp [effects_congr hw.actions, he] at hs'
    · rw [effects_congr hw.actions, he] at he'
      cases he'
    · exact ⟨_, by rw [hq.listeners.1]; exact List.mem_append_right _ (List.mem_singleton_self _),
        rfl⟩

include hnew

/-- A wait begins with a timer of its own. -/
theorem begin_wait {delay : Duration} {value : Json}
    (he : w.effects (a, v) = [.completeAfter delay value]) :
    (w.beginAction a v).1.Tended since due' := by
  have hw := beginAction_begins v ha
  have heq : (w.beginAction a v).1 = World.schedule { (w.mark a v).retain a with
      timers := w.timers ++ [⟨w.nextTimer, a, delay, value, none⟩]
      nextTimer := w.nextTimer + 1 } (.timer w.nextTimer) := by
    rw [beginAction_eq_effects v ha, he]
    rfl
  have hq := Requeued.schedule { (w.mark a v).retain a with
      timers := w.timers ++ [⟨w.nextTimer, a, delay, value, none⟩]
      nextTimer := w.nextTimer + 1 } (.timer w.nextTimer)
  rw [← heq] at hq
  have hset : (w.beginAction a v).1.settlement? a = none := by
    rw [hq.settlement?]
    change ((w.mark a v).retain a).settlement? a = none
    rw [((retain_keeps (w.mark a v) a fun _ => False).same a id).2, settlement?_mark,
      h.unsettled a (by simp [ha])]
  have hmem : (a, v) ∈ (w.beginAction a v).1.begun := by simp [hw.begun]
  refine h.grown ha hw hdue (hq.listeners.2 ▸ h.tidy) (by rw [hq.listeners.2]; rfl) _ []
    hq.timers.1 (by rw [hq.timers.2]; exact Nat.le_succ _) (fun t ht => ?_)
    (by rw [hq.listeners.1, List.append_nil]; rfl) (fun _ hl => by cases hl) (fun l hl => ?_) ?_
  · obtain rfl := List.mem_singleton.1 ht
    refine ⟨rfl, rfl, by rw [hq.timers.2]; exact Nat.lt_succ_self _, rfl, ?_⟩
    refine ⟨⟨v, hmem, by rw [effects_congr hw.actions, he]⟩, hset, .inl ⟨rfl, ?_⟩, .inr ?_⟩
    · rw [hw.clock, h.newcomers a (by simp [ha])]
    · exact hnew _ (heq ▸ due_schedule _ _)
  · refine hw.heeds h.logged ha hdue (h.listeners l hl) (by simp [he]) (fun _ => ?_) ?_
    · rw [hq.listeners.2]
      rfl
    · rw [hq.listeners.2]
      rfl
  · refine ⟨fun s' hs' => ?_, fun _ _ _ => .inr ?_, fun _ he' => ?_⟩
    · simp [effects_congr hw.actions, he] at hs'
    · exact ⟨_, by rw [hq.timers.1]; exact List.mem_append_right _ (List.mem_singleton_self _), rfl⟩
    · rw [effects_congr hw.actions, he] at he'
      cases he'

/-- An action that sends a signal wakes the listeners of its name. -/
theorem begin_emit {s : Signal} {outcome : Settlement}
    (he : w.effects (a, v) = [.emit s, .settle outcome]) :
    (w.beginAction a v).1.Tended since due' := by
  have hw := beginAction_begins v ha
  have heq : (w.beginAction a v).1 = (((w.mark a v).emit s).1.settle a outcome).1 := by
    rw [beginAction_eq_effects v ha, he]
    rfl
  have hq := Requeued.scheduleAll { w.mark a v with bus := (w.bus.emit s).1 }
    ((w.mark a v).listenerTasks (w.bus.emit s).2)
  change Requeued _ ((w.mark a v).emit s).1 at hq
  have hnone : ((w.mark a v).emit s).1.settlement? a = none := by
    rw [hq.settlement?]
    change (w.mark a v).settlement? a = none
    rw [settlement?_mark, h.unsettled a (by simp [ha])]
  have hset : (w.beginAction a v).1.settlement? a = some outcome := by
    rw [heq, settlement?_settle_self hnone]
    rw [(emit_keeps (w.mark a v) s fun _ => False).same a id |>.1]
    simp [started?_mark, ha]
  have hwoken : ∀ l ∈ w.listeners, l.receiver ∈ w.bus.membersOf s.name →
      (w.beginAction a v).1.Due (.listener l.receiver) := by
    intro l hl hr
    rw [heq]
    refine (settle_keeps _ a outcome).due _ (due_scheduleAll _ ?_)
    exact List.mem_map.2 ⟨l, List.mem_filter.2 ⟨hl, List.contains_iff_mem.2 hr⟩, rfl⟩
  rw [settle_unsettled hnone] at heq
  have hbus : (w.beginAction a v).1.bus = (w.bus.emit s).1 := by
    rw [heq]
    exact hq.listeners.2
  refine h.grown ha hw hdue (hbus ▸ h.tidy.emit s) (by rw [hbus]; rfl) [] []
    (by rw [heq, List.append_nil]; exact hq.timers.1)
    (by rw [heq]; exact Nat.le_of_eq hq.timers.2.symm) (fun _ ht => by cases ht)
    (by rw [heq, List.append_nil]; exact hq.listeners.1) (fun _ hl => by cases hl)
    (fun l hl => ?_) ?_
  · refine hw.heeds_emit h.logged ha h.tidy hdue (h.listeners l hl) (fun s' => ?_) hbus
      fun hr => hnew _ (hwoken l hl hr)
    simp [he]
  · refine ⟨fun s' hs' => ?_, fun _ _ he' => ?_, fun _ he' => ?_⟩
    · have : s' = outcome := by simpa [effects_congr hw.actions, he] using hs'
      exact this ▸ hset
    · rw [effects_congr hw.actions, he] at he'
      cases he'
    · rw [effects_congr hw.actions, he] at he'
      cases he'

end Begin

/-- Every begin of a built-in action is looked after. -/
theorem beginAction (h : w.Tended since due) (hdue : ∀ u, due u → due' u)
    (hnew : ∀ u, (w.beginAction a v).1.Due u → due' u) :
    (w.beginAction a v).1.Tended since due' := by
  by_cases ha : w.started? a = some false
  · have hlt : a < w.actions.length := by
      obtain ⟨i, hi, -⟩ := Option.map_eq_some_iff.1 ha
      rw [actions, List.length_map]
      exact (List.getElem?_eq_some_iff.1 hi).1
    have hplain := h.plain (a, v) hlt
    generalize he : w.effects (a, v) = es at hplain
    cases hplain with
    | wait delay value => exact h.begin_wait ha hdue hnew he
    | settle s => exact h.begin_settle ha hdue he
    | listen name => exact h.begin_listen ha hdue he
    | emit s outcome => exact h.begin_emit ha hdue hnew he
  · rw [beginAction_refused v ha]
    exact h.mono hdue

/-- What a look at a playlist begins is looked after. -/
theorem evolves {actions : List ActionId} (h : w.Tended since due) (he : Evolves actions w w')
    (hdue : ∀ u, due u → due' u) (hnew : ∀ u, w'.Due u → due' u) : w'.Tended since due' := by
  induction he with
  | refl => exact h.mono hdue
  | @schedule w₁ t _ ih =>
    exact (ih fun u hu => hnew u ((schedule_keeps w₁ t fun _ => False).due u hu)).requeue
      (.schedule w₁ t)
  | @begins w₁ a v _ _ ih =>
    exact (ih fun u hu => hnew u ((beginAction_keeps w₁ a v).due u hu)).beginAction
      (fun _ hu => hu) hnew

end Tended

end World

end Rundown
