import Rundown.Proofs.World.Excerpt

/-!
# Begins of an excerpt and begins of the rest

What the actions of an excerpt do when they begin they do in the world in which it is alone as well
(`Excerpt.Shows.beginAction_own`): they get timers and listeners, send signals and settle.  What
other actions do, which use other names, does not show in the excerpt, although they use the same
bus and the same clock (`Excerpt.Shows.beginAction_foreign`).
-/

namespace Rundown

namespace Bus

variable {b b' : Bus} {r r' : ReceiverId}

/-- A read depends on the mailbox and on whether the receiver is joined. -/
theorem receive_congr (hm : b'.mailbox? r' = b.mailbox? r) (ha : b'.attached r' = b.attached r) :
    (b'.receive r').2 = (b.receive r).2 ∧
      (b'.receive r').1.mailbox? r' = (b.receive r).1.mailbox? r := by
  cases h : b.mailbox? r with
  | none =>
    rw [h] at hm
    rw [receive_none h, receive_none hm]
    exact ⟨rfl, hm.trans h.symm⟩
  | some m =>
    rw [h] at hm
    by_cases hmissed : m.missed = 0
    · rw [receive_eq h hmissed, receive_eq hm hmissed, ha]
      cases m.unread with
      | nil => exact ⟨rfl, hm.trans h.symm⟩
      | cons s rest =>
        refine ⟨rfl, ?_⟩
        rw [mailbox?_setMailbox, mailbox?_setMailbox, if_pos rfl, if_pos rfl, hm, h]
    · rw [receive_lagged h hmissed, receive_lagged hm hmissed]
      refine ⟨rfl, ?_⟩
      rw [mailbox?_setMailbox, mailbox?_setMailbox, if_pos rfl, if_pos rfl, hm, h]

theorem attached_congr {c : Bus} (h : c.channels = b.channels) : c.attached r = b.attached r := by
  unfold attached
  rw [h]

theorem receiveKept_congr (hm : b'.mailbox? r' = b.mailbox? r)
    (ha : b'.attached r' = b.attached r) :
    (b'.receiveKept r').2 = (b.receiveKept r).2 ∧
      (b'.receiveKept r').1.mailbox? r' = (b.receiveKept r).1.mailbox? r := by
  obtain ⟨hanswer, hmailbox⟩ := receive_congr hm ha
  have hread := receive_read b r
  have hread' := receive_read b' r'
  unfold receiveKept
  rcases hr : b.receive r with ⟨c, received⟩
  rcases hr' : b'.receive r' with ⟨c', received'⟩
  rw [hr] at hanswer hmailbox hread
  rw [hr'] at hanswer hmailbox hread'
  obtain rfl : received' = received := hanswer
  cases received' with
  | lagged missed =>
    exact receive_congr hmailbox
      ((attached_congr hread'.channels).trans (ha.trans (attached_congr hread.channels).symm))
  | signal | empty | closed => exact ⟨rfl, hmailbox⟩

end Bus

namespace Numbers

/-- A new receiver gets a number. -/
def withReceiver (n : Numbers) (r : ReceiverId) (r' : ReceiverId) : Numbers :=
  { n with receiver? := Function.update n.receiver? r (some r') }

/-- A new timer gets a number. -/
def withTimer (n : Numbers) (m : TimerId) (m' : TimerId) : Numbers :=
  { n with timer? := Function.update n.timer? m (some m') }

theorem receiver?_withReceiver (n : Numbers) (r r' r₁ : ReceiverId) :
    (n.withReceiver r r').receiver? r₁ = if r₁ = r then some r' else n.receiver? r₁ :=
  Function.update_apply ..

theorem timer?_withTimer (n : Numbers) (m m' m₁ : TimerId) :
    (n.withTimer m m').timer? m₁ = if m₁ = m then some m' else n.timer? m₁ :=
  Function.update_apply ..

end Numbers

/-- The effect uses no other names than these. -/
def Effect.Uses (names : String → Prop) : Effect → Prop
  | .listen name => names name
  | .emit s => names s.name
  | .settle _ | .completeAfter _ _ | .park _ => True

/-- Beginning an action uses the names that it speaks. -/
theorem World.effects_use {w : World} {a : ActionId} {v : Json} {names : String → Prop}
    (h : ∀ action, w.actions[a]? = some action → ∀ name, action.Speaks name → names name) :
    ∀ e ∈ w.effects (a, v), e.Uses names := by
  intro e he
  unfold World.effects at he
  cases hi : w.actions[a]? with
  | none => simp [hi] at he
  | some action =>
    rw [hi, Option.map_some, Option.getD_some] at he
    cases e with
    | listen name => exact h action hi name ⟨v, .inl he⟩
    | emit s => exact h action hi s.name ⟨v, .inr ⟨s, he, rfl⟩⟩
    | settle | completeAfter | park => trivial

namespace Excerpt

variable {x : Excerpt} {n : Numbers} {w w' : World} {a a' : ActionId} {v : Json} {s : Signal}

/-! ## The bus -/

namespace ShowsBus

variable {b b' c c' : Bus} {r r' r₀ : ReceiverId} {name : String}

theorem mem_membersOf (h : x.ShowsBus n b b') (hr : n.receiver? r = some r') :
    r' ∈ b'.membersOf name ↔ r ∈ b.membersOf name := by
  rw [Bus.mem_membersOf h.tidy', Bus.mem_membersOf h.tidy, h.joined name hr]

theorem notMem_membersOf (h : x.ShowsBus n b b') (hr : n.receiver? r = some r')
    (hname : ¬x.names name) : r ∉ b.membersOf name := fun hm =>
  hname (h.named hr ((Bus.mem_membersOf h.tidy).1 hm))

theorem attached_eq (h : x.ShowsBus n b b') (hr : n.receiver? r = some r') :
    b'.attached r' = b.attached r := by
  rw [Bool.eq_iff_iff, Bus.attached_iff, Bus.attached_iff]
  exact exists_congr fun name => h.joined name hr

/-- A signal is sent on both buses. -/
theorem emit (h : x.ShowsBus n b b') (s : Signal) : x.ShowsBus n (b.emit s).1 (b'.emit s).1 where
  numbers := h.numbers
  tidy := h.tidy.emit s
  tidy' := h.tidy'.emit s
  capacity := h.capacity
  mailbox := by
    intro r r' hr
    have hretention : b'.retention = b.retention := by rw [Bus.retention, h.capacity, Bus.retention]
    simp only [Bus.mailbox?_emit, h.mailbox hr, h.mem_membersOf hr, hretention]
  joined name hr := Bus.joined_emit.trans ((h.joined name hr).trans Bus.joined_emit.symm)
  named hr hj := h.named hr (Bus.joined_emit.1 hj)

/-- A signal of a name that the excerpt does not use does not show. -/
theorem emit_foreign (h : x.ShowsBus n b b') (hs : ¬x.names s.name) :
    x.ShowsBus n (b.emit s).1 b' where
  numbers := h.numbers
  tidy := h.tidy.emit s
  tidy' := h.tidy'
  capacity := h.capacity
  mailbox := by
    intro r r' hr
    simp only [Bus.mailbox?_emit, h.mailbox hr, h.notMem_membersOf hr hs, if_false,
      Option.map_id_fun', id]
  joined name hr := (h.joined name hr).trans Bus.joined_emit.symm
  named hr hj := h.named hr (Bus.joined_emit.1 hj)

theorem subscribe_own (h : x.ShowsBus n b b') (hname : x.names name)
    (hb : b.subscribe name = some (c, r)) :
    ∃ c' r', b'.subscribe name = some (c', r') ∧ r = b.nextReceiver ∧ r' = b'.nextReceiver ∧
      x.ShowsBus (n.withReceiver r r') c c' := by
  have hcapacity := Bus.capacity_of_subscribe hb
  obtain ⟨rfl, hsub⟩ := Bus.subscribed_of_subscribe h.tidy hb
  obtain ⟨c₁, hc₁, hnext, -⟩ := Bus.subscribe_eq hcapacity name
  obtain ⟨c', hb', hnext', -⟩ := Bus.subscribe_eq (h.capacity ▸ hcapacity : b'.capacity ≠ 0) name
  obtain ⟨-, hsub'⟩ := Bus.subscribed_of_subscribe h.tidy' hb'
  cases hc₁.symm.trans hb
  refine ⟨c', _, hb', rfl, rfl, ⟨?_, hsub.tidy, hsub'.tidy, ?_, ?_, ?_, ?_⟩⟩
  · rw [hnext, hnext']
    exact h.numbers.assign
  · rw [hsub.capacity, hsub'.capacity, h.capacity]
  · intro r r' hr
    rw [Numbers.receiver?_withReceiver] at hr
    split at hr
    next heq =>
      cases hr
      rw [heq, hsub.mailbox, hsub'.mailbox]
    next hne =>
      rw [hsub.others r hne, hsub'.others r' (Nat.ne_of_lt (h.numbers.lt hr).2), h.mailbox hr]
  · intro r r' name' hr
    rw [Numbers.receiver?_withReceiver] at hr
    rw [hsub.joined, hsub'.joined]
    split at hr
    next heq =>
      cases hr
      simp only [heq, hsub.unjoined, hsub'.unjoined, and_true]
    next hne =>
      have hne' := Nat.ne_of_lt (h.numbers.lt hr).2
      simp only [hne, hne', and_false, or_false, h.joined name' hr]
  · intro r r' name' hr hj
    rw [Numbers.receiver?_withReceiver] at hr
    rw [hsub.joined] at hj
    split at hr
    next heq =>
      rcases hj with hj | ⟨rfl, -⟩
      · exact absurd (heq ▸ hj) (hsub.unjoined name')
      · exact hname
    next hne => exact h.named hr (hj.resolve_right fun hn => hne hn.2)

theorem subscribe_foreign (h : x.ShowsBus n b b') (hb : b.subscribe name = some (c, r)) :
    x.ShowsBus n c b' := by
  have hcapacity := Bus.capacity_of_subscribe hb
  obtain ⟨rfl, hsub⟩ := Bus.subscribed_of_subscribe h.tidy hb
  obtain ⟨c₁, hc₁, hnext, -⟩ := Bus.subscribe_eq hcapacity name
  cases hc₁.symm.trans hb
  have hne {r r' : ReceiverId} (hr : n.receiver? r = some r') : r ≠ b.nextReceiver :=
    Nat.ne_of_lt (h.numbers.lt hr).1
  exact {
    numbers := hnext ▸ h.numbers.skip
    tidy := hsub.tidy
    tidy' := h.tidy'
    capacity := h.capacity.trans hsub.capacity.symm
    mailbox := fun hr => (h.mailbox hr).trans (hsub.others _ (hne hr)).symm
    joined := fun name' hr => by
      rw [h.joined name' hr, hsub.joined]
      simp only [hne hr, and_false, or_false]
    named := fun hr hj =>
      h.named hr (((hsub.joined _ _).1 hj).resolve_right fun hn => hne hr hn.2) }

theorem drop_own (h : x.ShowsBus n b b') (hr₀ : n.receiver? r₀ = some r') :
    x.ShowsBus n (b.dropReceiver r₀) (b'.dropReceiver r') where
  numbers := h.numbers
  tidy := h.tidy.dropReceiver r₀
  tidy' := h.tidy'.dropReceiver r'
  capacity := h.capacity
  mailbox := by
    intro r r₁ hr
    by_cases heq : r = r₀
    · subst heq
      obtain rfl := Option.some.inj (hr.symm.trans hr₀)
      rw [Bus.mailbox?_dropReceiver_self, Bus.mailbox?_dropReceiver_self]
    · have hne : r₁ ≠ r' := by
        rintro rfl
        exact heq (h.numbers.inj hr hr₀)
      rw [Bus.mailbox?_dropReceiver heq, Bus.mailbox?_dropReceiver hne, h.mailbox hr]
  joined := by
    intro r r₁ name hr
    have hiff : r₁ ≠ r' ↔ r ≠ r₀ := by
      refine not_congr ⟨?_, ?_⟩
      · rintro rfl
        exact h.numbers.inj hr hr₀
      · rintro rfl
        exact Option.some.inj (hr.symm.trans hr₀)
    rw [Bus.joined_dropReceiver, Bus.joined_dropReceiver, h.joined name hr, hiff]
  named hr hj := h.named hr (Bus.joined_dropReceiver.1 hj).1

theorem drop_foreign (h : x.ShowsBus n b b') (hr₀ : n.receiver? r₀ = none) :
    x.ShowsBus n (b.dropReceiver r₀) b' := by
  have hne {r r' : ReceiverId} (hr : n.receiver? r = some r') : r ≠ r₀ := by
    rintro rfl
    cases hr.symm.trans hr₀
  exact {
    numbers := h.numbers
    tidy := h.tidy.dropReceiver r₀
    tidy' := h.tidy'
    capacity := h.capacity
    mailbox := fun hr => (h.mailbox hr).trans (Bus.mailbox?_dropReceiver (hne hr)).symm
    joined := fun name hr => by
      rw [h.joined name hr, Bus.joined_dropReceiver, and_iff_left (hne hr)]
    named := fun hr hj => h.named hr (Bus.joined_dropReceiver.1 hj).1 }

theorem read_own (h : x.ShowsBus n b b') (hr₀ : n.receiver? r₀ = some r') :
    x.ShowsBus n (b.receiveKept r₀).1 (b'.receiveKept r').1 ∧
      (b'.receiveKept r').2 = (b.receiveKept r₀).2 := by
  have hread := Bus.receiveKept_read b r₀
  have hread' := Bus.receiveKept_read b' r'
  obtain ⟨hanswer, hmailbox⟩ := Bus.receiveKept_congr (h.mailbox hr₀) (h.attached_eq hr₀)
  refine ⟨⟨?_, hread.tidy h.tidy, hread'.tidy h.tidy', ?_, ?_, ?_, ?_⟩, hanswer⟩
  · rw [hread.next, hread'.next]
    exact h.numbers
  · rw [hread.capacity, hread'.capacity, h.capacity]
  · intro r r₁ hr
    by_cases heq : r = r₀
    · subst heq
      obtain rfl := Option.some.inj (hr.symm.trans hr₀)
      exact hmailbox
    · have hne : r₁ ≠ r' := by
        rintro rfl
        exact heq (h.numbers.inj hr hr₀)
      rw [hread.others r heq, hread'.others r₁ hne, h.mailbox hr]
  · exact fun name hr => hread'.joined.trans ((h.joined name hr).trans hread.joined.symm)
  · exact fun hr hj => h.named hr (hread.joined.1 hj)

theorem read_foreign (h : x.ShowsBus n b b') (hr₀ : n.receiver? r₀ = none) :
    x.ShowsBus n (b.receiveKept r₀).1 b' := by
  have hread := Bus.receiveKept_read b r₀
  refine ⟨?_, hread.tidy h.tidy, h.tidy', ?_, ?_, ?_, ?_⟩
  · rw [hread.next]
    exact h.numbers
  · rw [hread.capacity, h.capacity]
  · intro r r' hr
    have hne : r ≠ r₀ := by
      rintro rfl
      cases hr.symm.trans hr₀
    rw [hread.others r hne, h.mailbox hr]
  · exact fun name hr => (h.joined name hr).trans hread.joined.symm
  · exact fun hr hj => h.named hr (hread.joined.1 hj)

end ShowsBus

/-! ## Numbers given out -/

variable {t t' : Task} {m m' : TimerId} {r r' : ReceiverId} {n' : Numbers}

theorem task?_mono (hn : n.Extends n') (ht : x.task? n t = some t') : x.task? n' t = some t' := by
  cases t with
  | timer m =>
    obtain ⟨m', hm, rfl⟩ := Option.map_eq_some_iff.1 ht
    exact Option.map_eq_some_iff.2 ⟨m', hn.timer hm, rfl⟩
  | listener r =>
    obtain ⟨r', hr, rfl⟩ := Option.map_eq_some_iff.1 ht
    exact Option.map_eq_some_iff.2 ⟨r', hn.receiver hr, rfl⟩
  | group => exact ht

theorem Free.mono (h : x.Free n w) (hn : n.Extends n') {u : World} (hu : u.running = w.running) :
    x.Free n' u := by
  intro t ht
  obtain ⟨t', ht'⟩ := Option.isSome_iff_exists.1 (h t (hu ▸ ht))
  rw [task?_mono hn ht']
  rfl

/-- New numbers do not concern the tasks that there are. -/
theorem ShowsTasks.renumber (h : x.ShowsTasks n w w')
    (heq : ∀ t, t.Below w → x.task? n' t = x.task? n t) : x.ShowsTasks n' w w' where
  ready := h.ready.trans (List.filterMap_congr fun t ht => (heq t (h.below t (.inl ht))).symm)
  arrivals := h.arrivals.trans
    (List.filterMap_congr fun t ht => (heq t (h.below t (.inr (.inl ht)))).symm)
  running := by
    rw [h.running]
    cases hc : w.running with
    | none => rfl
    | some t => exact (heq t (h.below t (.inr (.inr hc)))).symm
  rewoken := h.rewoken
  below := h.below

theorem task?_withTimer (m' : TimerId) (hb : t.Below w) :
    x.task? (n.withTimer w.nextTimer m') t = x.task? n t := by
  cases t with
  | timer m => exact congrArg (Option.map Task.timer) (Renumbers.assign_of_lt _ hb)
  | listener | group => rfl

theorem task?_withReceiver (r' : ReceiverId) (hb : t.Below w) :
    x.task? (n.withReceiver w.bus.nextReceiver r') t = x.task? n t := by
  cases t with
  | listener r => exact congrArg (Option.map Task.listener) (Renumbers.assign_of_lt _ hb)
  | timer | group => rfl

theorem extends_withTimer (hm : Renumbers n.timer? m m') : n.Extends (n.withTimer m m') :=
  ⟨fun h => (Renumbers.assign_of_lt _ (hm.lt h).1).trans h, id⟩

theorem extends_withReceiver (hr : Renumbers n.receiver? r r') : n.Extends (n.withReceiver r r') :=
  ⟨id, fun h => (Renumbers.assign_of_lt _ (hr.lt h).1).trans h⟩

namespace Shows

/-- An action of the excerpt gets a timer. -/
theorem addTimer_own (h : x.Shows n w w') (ha : x.action? a = some a') (delay : Duration)
    (value : Json) : x.Shows (n.withTimer w.nextTimer w'.nextTimer)
      { w with
        timers := w.timers ++ [⟨w.nextTimer, a, delay, value, none⟩]
        nextTimer := w.nextTimer + 1 }
      { w' with
        timers := w'.timers ++ [⟨w'.nextTimer, a', delay, value, none⟩]
        nextTimer := w'.nextTimer + 1 } := by
  have htasks := h.toShowsTasks.renumber fun t hb =>
    task?_withTimer (n := n) (x := x) w'.nextTimer hb
  have hold {t : Timer} (ht : t ∈ w.timers) :
      (n.withTimer w.nextTimer w'.nextTimer).timer? t.id = n.timer? t.id :=
    Renumbers.assign_of_lt _ (h.timerIds t ht)
  refine { htasks, h with
    below := fun t ht => (h.below t ht).mono (Nat.le_succ _) (Nat.le_refl _)
    timers := ?_
    timerNumbers := h.timerNumbers.assign
    timerIds := List.forall_mem_append.2 ⟨fun t ht => Nat.lt_succ_of_lt (h.timerIds t ht),
      List.forall_mem_singleton.2 (Nat.lt_succ_self _)⟩
    timerOwners := List.forall_mem_append.2 ⟨fun t ht => ?_, ?_⟩
    bus := { h.bus with } }
  · have hsame : w.timers.filterMap (x.timer? (n.withTimer w.nextTimer w'.nextTimer)) =
        w.timers.filterMap (x.timer? n) := List.filterMap_congr fun t ht => by
      rw [timer?, hold ht, timer?]
    have hnew : x.timer? (n.withTimer w.nextTimer w'.nextTimer)
        ⟨w.nextTimer, a, delay, value, none⟩ = some ⟨w'.nextTimer, a', delay, value, none⟩ := by
      simp [timer?, Numbers.timer?_withTimer, ha]
    rw [List.filterMap_append, hsame, h.timers, List.filterMap_cons_some hnew, List.filterMap_nil]
  · rw [hold ht, h.timerOwners t ht]
  · rintro t ht
    obtain rfl := List.mem_singleton.1 ht
    simp [Numbers.timer?_withTimer, ha]

/-- Another action gets a timer. -/
theorem addTimer_foreign (h : x.Shows n w w') (ha : x.action? a = none) (delay : Duration)
    (value : Json) : x.Shows n
      { w with
        timers := w.timers ++ [⟨w.nextTimer, a, delay, value, none⟩]
        nextTimer := w.nextTimer + 1 } w' := by
  have hnone : n.timer? w.nextTimer = none := h.timerNumbers.none (Nat.le_refl _)
  refine { h with
    below := fun t ht => (h.below t ht).mono (Nat.le_succ _) (Nat.le_refl _)
    timers := ?_
    timerNumbers := h.timerNumbers.skip
    timerIds := List.forall_mem_append.2 ⟨fun t ht => Nat.lt_succ_of_lt (h.timerIds t ht),
      List.forall_mem_singleton.2 (Nat.lt_succ_self _)⟩
    timerOwners := List.forall_mem_append.2 ⟨h.timerOwners, ?_⟩ }
  · have hnew : x.timer? n ⟨w.nextTimer, a, delay, value, none⟩ = none := by simp [timer?, hnone]
    rw [List.filterMap_append, List.filterMap_cons_none hnew, List.filterMap_nil, List.append_nil,
      h.timers]
  · rintro t ht
    obtain rfl := List.mem_singleton.1 ht
    simp [hnone, ha]

/-- An action of the excerpt gets a listener. -/
theorem addListener_own {b : Bus} {name : String} (h : x.Shows n w w')
    (ha : x.action? a = some a') (hname : x.names name)
    (hb : w.bus.subscribe name = some (b, r)) :
    ∃ b' r', w'.bus.subscribe name = some (b', r') ∧
      (n.withReceiver r r').receiver? r = some r' ∧ n.Extends (n.withReceiver r r') ∧
      x.Shows (n.withReceiver r r')
        { w with bus := b, listeners := w.listeners ++ [⟨r, a, name, false⟩] }
        { w' with bus := b', listeners := w'.listeners ++ [⟨r', a', name, false⟩] } := by
  obtain ⟨b', r', hb', rfl, rfl, hbus⟩ := h.bus.subscribe_own hname hb
  have hnext := (Bus.next_of_subscribe hb).1
  have hself (r r' : ReceiverId) : (n.withReceiver r r').receiver? r = some r' := by
    rw [Numbers.receiver?_withReceiver, if_pos rfl]
  have htasks := h.toShowsTasks.renumber fun t hb =>
    task?_withReceiver (n := n) (x := x) w'.bus.nextReceiver hb
  have hold {l : Listener} (hl : l ∈ w.listeners) :
      (n.withReceiver w.bus.nextReceiver w'.bus.nextReceiver).receiver? l.receiver =
        n.receiver? l.receiver := Renumbers.assign_of_lt _ (h.receivers l hl)
  refine ⟨b', _, hb', hself _ _, extends_withReceiver h.bus.numbers, { htasks, h with
    below := fun t ht => (h.below t ht).mono (Nat.le_refl _) (Nat.le_of_lt hnext)
    listeners := ?_
    receivers := List.forall_mem_append.2 ⟨fun l hl => (h.receivers l hl).trans hnext,
      List.forall_mem_singleton.2 hnext⟩
    listenerOwners := List.forall_mem_append.2 ⟨fun l hl => ?_, ?_⟩
    bus := hbus }⟩
  · have hsame : w.listeners.filterMap
        (x.listener? (n.withReceiver w.bus.nextReceiver w'.bus.nextReceiver)) =
          w.listeners.filterMap (x.listener? n) := List.filterMap_congr fun l hl => by
      rw [listener?, hold hl, listener?]
    have hnew : x.listener? (n.withReceiver w.bus.nextReceiver w'.bus.nextReceiver)
        ⟨w.bus.nextReceiver, a, name, false⟩ = some ⟨w'.bus.nextReceiver, a', name, false⟩ := by
      simp [listener?, hself, ha]
    rw [List.filterMap_append, hsame, h.listeners, List.filterMap_cons_some hnew,
      List.filterMap_nil]
  · rw [hold hl, h.listenerOwners l hl]
  · rintro l hl
    obtain rfl := List.mem_singleton.1 hl
    simp [hself, ha]

/-- Another action gets a listener. -/
theorem addListener_foreign {b : Bus} {name : String} (h : x.Shows n w w')
    (ha : x.action? a = none) (hb : w.bus.subscribe name = some (b, r)) :
    x.Shows n { w with bus := b, listeners := w.listeners ++ [⟨r, a, name, false⟩] } w' := by
  obtain ⟨hnext, hr⟩ := Bus.next_of_subscribe hb
  have hnone : n.receiver? r = none := h.bus.numbers.none hr
  have hle := Nat.le_of_lt (Nat.lt_of_le_of_lt hr hnext)
  refine { h with
    below := fun t ht => (h.below t ht).mono (Nat.le_refl _) hle
    listeners := ?_
    receivers := List.forall_mem_append.2
      ⟨fun l hl => Nat.lt_of_lt_of_le (h.receivers l hl) hle, List.forall_mem_singleton.2 hnext⟩
    listenerOwners := List.forall_mem_append.2 ⟨h.listenerOwners, ?_⟩
    bus := h.bus.subscribe_foreign hb }
  · have hnew : x.listener? n ⟨r, a, name, false⟩ = none := by simp [listener?, hnone]
    rw [List.filterMap_append, List.filterMap_cons_none hnew, List.filterMap_nil, List.append_nil,
      h.listeners]
  · rintro l hl
    obtain rfl := List.mem_singleton.1 hl
    simp [hnone, ha]

end Shows

/-! ## Signals -/

/-- The tasks of some timers or listeners, among them those of the excerpt. -/
theorem filterMap_tasks {α : Type} {ls : List α} {f : α → Option α} {task : α → Task}
    (htask : ∀ l ∈ ls, x.task? n (task l) = (f l).map task) {p p' : α → Bool}
    (hp : ∀ l ∈ ls, ∀ l', f l = some l' → p' l' = p l) :
    ((ls.filter p).map task).filterMap (x.task? n) = ((ls.filterMap f).filter p').map task := by
  induction ls with
  | nil => rfl
  | cons l rest ih =>
    have ih := ih (fun l hl => htask l (List.mem_cons_of_mem _ hl))
      fun l hl => hp l (List.mem_cons_of_mem _ hl)
    have hl := htask l List.mem_cons_self
    rw [List.filter_cons]
    cases hf : f l with
    | none =>
      rw [hf, Option.map_none] at hl
      rw [List.filterMap_cons_none hf, ← ih]
      split
      · rw [List.map_cons, List.filterMap_cons_none hl]
      · rfl
    | some l' =>
      rw [hf, Option.map_some] at hl
      rw [List.filterMap_cons_some hf, List.filter_cons, hp l List.mem_cons_self l' hf]
      split
      · rw [List.map_cons, List.map_cons, ← ih, List.filterMap_cons_some hl]
      · exact ih

theorem task?_listener {l : Listener}
    (howner : (n.receiver? l.receiver).isSome = (x.action? l.action).isSome) :
    x.task? n (.listener l.receiver) = (x.listener? n l).map fun l => .listener l.receiver := by
  rw [task?, listener?]
  cases hr : n.receiver? l.receiver with
  | none => rfl
  | some r' =>
    obtain ⟨a', ha⟩ := Option.isSome_iff_exists.1 (howner.symm.trans (by rw [hr]; rfl))
    rw [ha]
    rfl

theorem receiver?_of_listener? {l l' : Listener} (h : x.listener? n l = some l') :
    n.receiver? l.receiver = some l'.receiver ∧ x.action? l.action = some l'.action ∧
      l'.name = l.name ∧ l'.ended = l.ended := by
  obtain ⟨r', hr, h⟩ := Option.bind_eq_some_iff.1 h
  obtain ⟨a', ha, rfl⟩ := Option.map_eq_some_iff.1 h
  exact ⟨hr, ha, rfl, rfl⟩

theorem timer?_eq_some {t t' : Timer} (h : x.timer? n t = some t') :
    n.timer? t.id = some t'.id ∧ x.action? t.action = some t'.action ∧
      t' = { t with id := t'.id, action := t'.action } := by
  obtain ⟨m', hm, h⟩ := Option.bind_eq_some_iff.1 h
  obtain ⟨a', ha, rfl⟩ := Option.map_eq_some_iff.1 h
  exact ⟨hm, ha, rfl⟩

theorem below_listener {l : Listener} (h : x.Shows n w w') (hl : l ∈ w.listeners) :
    (Task.listener l.receiver).Below w := h.receivers l hl

namespace Shows

/-- A signal is sent in both worlds. -/
theorem emit (h : x.Shows n w w') (hfree : x.Free n w) (s : Signal) :
    x.Shows n (w.emit s).1 (w'.emit s).1 := by
  have hsent : x.Shows n { w with bus := (w.bus.emit s).1 } { w' with bus := (w'.bus.emit s).1 } :=
    { h with bus := h.bus.emit s }
  have htasks : (w.listenerTasks (w.bus.membersOf s.name)).filterMap (x.task? n) =
      w'.listenerTasks (w'.bus.membersOf s.name) := by
    unfold World.listenerTasks
    rw [h.listeners]
    refine filterMap_tasks (fun l hl => task?_listener (h.listenerOwners l hl))
      fun l _ l' hl' => ?_
    rw [Bool.eq_iff_iff, List.contains_iff_mem, List.contains_iff_mem]
    exact h.bus.mem_membersOf (receiver?_of_listener? hl').1
  have hscheduled := hsent.scheduleAll (w.listenerTasks (w.bus.membersOf s.name))
    (by
      intro t ht
      obtain ⟨l, hl, rfl⟩ := List.mem_map.1 ht
      exact below_listener hsent (List.mem_of_mem_filter hl))
    fun _ => hfree
  rw [htasks] at hscheduled
  exact hscheduled

/-- A signal of a name that the excerpt does not use does not show. -/
theorem emit_foreign (h : x.Shows n w w') (hs : ¬x.names s.name) : x.Shows n (w.emit s).1 w' := by
  have hsent : x.Shows n { w with bus := (w.bus.emit s).1 } w' :=
    { h with bus := h.bus.emit_foreign hs }
  have hnone : ∀ t ∈ w.listenerTasks (w.bus.membersOf s.name), x.task? n t = none := by
    intro t ht
    obtain ⟨l, hl, rfl⟩ := List.mem_map.1 ht
    cases hr : n.receiver? l.receiver with
    | none => simp [task?, hr]
    | some r' =>
      have hreached := (List.mem_filter.1 hl).2
      rw [List.contains_iff_mem] at hreached
      exact absurd hreached (h.bus.notMem_membersOf hr hs)
  have hscheduled := hsent.scheduleAll (w.listenerTasks (w.bus.membersOf s.name))
    (by
      intro t ht
      obtain ⟨l, hl, rfl⟩ := List.mem_map.1 ht
      exact below_listener hsent (List.mem_of_mem_filter hl))
    (by
      rintro ⟨t, ht, hsome⟩
      rw [hnone t ht] at hsome
      cases hsome)
  rw [List.filterMap_eq_nil_iff.2 hnone] at hscheduled
  exact hscheduled

end Shows

/-! ## Beginning an action -/

namespace Shows

/-- An action of the excerpt carries out an effect. -/
theorem perform_own (h : x.Shows n w w') (hfree : x.Free n w) (ha : x.action? a = some a')
    {e : Effect} (he : e.Uses x.names) : ∃ n', n.Extends n' ∧
      x.Shows n' (World.perform a w e) (World.perform a' w' e) := by
  have retained := h.modifyInstance_own ha (f := fun i => { i with holders := i.holders + 1 })
    fun _ => rfl
  cases e with
  | settle s => exact ⟨n, .refl n, (h.settle_own ha s).1⟩
  | completeAfter delay value =>
    have hext := extends_withTimer (n := n) h.timerNumbers
    have hself : (n.withTimer w.nextTimer w'.nextTimer).timer? w.nextTimer = some w'.nextTimer := by
      rw [Numbers.timer?_withTimer, if_pos rfl]
    refine ⟨_, hext, (retained.addTimer_own ha delay value).schedule_own (hfree.mono hext rfl) ?_⟩
    exact congrArg (Option.map Task.timer) hself
  | listen name =>
    cases hb : w.bus.subscribe name with
    | none =>
      have hb' : w'.bus.subscribe name = none :=
        Bus.subscribe_eq_none.2 (h.bus.capacity.trans (Bus.subscribe_eq_none.1 hb))
      simp only [World.perform, hb, hb']
      exact ⟨n, .refl n, { h with }⟩
    | some result =>
      obtain ⟨b, r⟩ := result
      obtain ⟨b', r', hb', hr, hext, hlistening⟩ := retained.addListener_own ha he hb
      rw [World.perform_listen hb, World.perform_listen (w := w') hb']
      refine ⟨_, hext, hlistening.schedule_own (hfree.mono hext rfl) ?_⟩
      rw [task?, hr, Option.map_some]
  | emit s => exact ⟨n, .refl n, h.emit hfree s⟩
  | park name => exact ⟨n, .refl n, { retained with }⟩

/-- Another action carries out an effect. -/
theorem perform_foreign (h : x.Shows n w w') (ha : x.action? a = none) {e : Effect}
    (he : e.Uses (¬x.names ·)) : x.Shows n (World.perform a w e) w' := by
  have retained := h.modifyInstance_foreign ha (f := fun i => { i with holders := i.holders + 1 })
    fun _ => rfl
  cases e with
  | settle s => exact h.settle_foreign ha s
  | completeAfter delay value =>
    refine (retained.addTimer_foreign ha delay value).schedule_foreign ?_ (Nat.lt_succ_self _)
    exact congrArg (Option.map _) (h.timerNumbers.none (Nat.le_refl _))
  | listen name =>
    cases hb : w.bus.subscribe name with
    | none =>
      simp only [World.perform, hb]
      exact { h with }
    | some result =>
      obtain ⟨b, r⟩ := result
      obtain ⟨hnext, hr⟩ := Bus.next_of_subscribe hb
      rw [World.perform_listen hb]
      refine (retained.addListener_foreign ha hb).schedule_foreign ?_ hnext
      exact congrArg (Option.map _) (h.bus.numbers.none hr)
  | emit s => exact h.emit_foreign he
  | park name => exact { retained with }

theorem performAll_own (h : x.Shows n w w') (hfree : x.Free n w) (ha : x.action? a = some a')
    {es : List Effect} (hes : ∀ e ∈ es, e.Uses x.names) : ∃ n', n.Extends n' ∧
      x.Shows n' (es.foldl (World.perform a) w) (es.foldl (World.perform a') w') := by
  induction es generalizing n w w' with
  | nil => exact ⟨n, .refl n, h⟩
  | cons e es ih =>
    obtain ⟨n₁, hext, h₁⟩ := h.perform_own hfree ha (hes e List.mem_cons_self)
    obtain ⟨n₂, hext', h₂⟩ := ih h₁ (hfree.mono hext (World.perform_keeps a w e).running)
      fun e he => hes e (List.mem_cons_of_mem _ he)
    exact ⟨n₂, hext.trans hext', h₂⟩

theorem performAll_foreign (h : x.Shows n w w') (ha : x.action? a = none) {es : List Effect}
    (hes : ∀ e ∈ es, e.Uses (¬x.names ·)) : x.Shows n (es.foldl (World.perform a) w) w' := by
  induction es generalizing w with
  | nil => exact h
  | cons e es ih =>
    exact ih (h.perform_foreign ha (hes e List.mem_cons_self))
      fun e he => hes e (List.mem_cons_of_mem _ he)

end Shows

/-- The actions of the excerpt use its names only. -/
def Discreet (x : Excerpt) : Prop := ∀ a action, (x.action? a).isSome = true →
  x.actions[a]? = some action → ∀ name, action.Speaks name → x.names name

/-- An action outside the excerpt that uses none of its names. -/
def Foreign (x : Excerpt) (a : ActionId) : Prop := x.action? a = none ∧
  ∀ action, x.actions[a]? = some action → ∀ name, action.Speaks name → ¬x.names name

namespace Shows

theorem effects_own (h : x.Shows n w w') (ha : x.action? a = some a') (v : Json) :
    w'.effects (a', v) = w.effects (a, v) := by
  simp only [World.effects, World.actions, List.getElem?_map, h.instances ha]

/-- An action of the excerpt begins in both worlds. -/
theorem beginAction_own (h : x.Shows n w w') (hfree : x.Free n w) (hx : x.Discreet)
    (ha : x.action? a = some a') (v : Json) : ∃ n', n.Extends n' ∧
      x.Shows n' (w.beginAction a v).1 (w'.beginAction a' v).1 ∧
      (w'.beginAction a' v).2 = (w.beginAction a v).2 := by
  by_cases hs : w.started? a = some false
  · have hs' : w'.started? a' = some false := (h.started?_own ha).trans hs
    rw [World.beginAction_eq_effects v hs, World.beginAction_eq_effects v hs', h.effects_own ha]
    have huses : ∀ e ∈ w.effects (a, v), e.Uses x.names := World.effects_use fun action hi =>
      hx a action (by rw [ha]; rfl) (h.actions ▸ hi)
    obtain ⟨n', hext, hshows⟩ := (h.mark_own ha v).performAll_own hfree ha huses
    exact ⟨n', hext, hshows, rfl⟩
  · have hs' : w'.started? a' ≠ some false := (h.started?_own ha) ▸ hs
    rw [World.beginAction_refused v hs, World.beginAction_refused v hs']
    exact ⟨n, .refl n, h, rfl⟩

/-- An action that uses no name of the excerpt begins. -/
theorem beginAction_foreign (h : x.Shows n w w') (ha : x.Foreign a) (v : Json) :
    x.Shows n (w.beginAction a v).1 w' := by
  by_cases hs : w.started? a = some false
  · rw [World.beginAction_eq_effects v hs]
    refine (h.mark_foreign ha.1 v).performAll_foreign ha.1 (World.effects_use ?_)
    exact fun action hi => ha.2 action (h.actions ▸ hi)
  · rw [World.beginAction_refused v hs]
    exact h

end Shows

end Excerpt

end Rundown
