import Rundown.Proofs.World.Tended

/-!
# Timers, listeners and the clock of a world that is left to itself

What the tasks of timers and listeners settle is what they should, and moving the clock makes the
tasks of those timers ready that have run out.  At rest (`World.Tended.waits_rest`,
`World.Tended.listens_rest`) every wait whose time has come has ended, and nobody awaits a signal
that has been sent.
-/

namespace Rundown.World

variable {w w' : World} {since : ActionId → Nat} {due due' : Task → Prop} {a : ActionId}
  {v : Json} {id : TimerId} {r : ReceiverId}

/-! ## One action settles -/

/-- The action `a` has settled with `o`, and nothing else has become of any action. -/
structure Finishes (w w' : World) (a : ActionId) (o : Settlement) : Prop where
  clock : w'.clock = w.clock
  actions : w'.actions = w.actions
  begun : w'.begun = w.begun
  began : w.started? a = some true
  started : ∀ b, w'.started? b = w.started? b
  settlement : w'.settlement? a = some o
  others : ∀ b, b ≠ a → w'.settlement? b = w.settlement? b

theorem Finishes.unaffected {o : Settlement} {b : ActionId} (h : Finishes w w' a o) (hb : b ≠ a) :
    Unaffected w w' b where
  begun _ hu := h.begun ▸ hu
  effects _ _ := effects_congr h.actions _
  settlement := h.others b hb

/-- A timer or a listener settles its action and lets go of it. -/
theorem finishes_release (w₁ : World) (o : Settlement) (hclock : w₁.clock = w.clock)
    (hinstances : w₁.instances = w.instances) (hbegun : w₁.begun = w.begun)
    (hnone : w.settlement? a = none) (hs : w.started? a = some true) :
    Finishes w ((w₁.settle a o).1.release a) a o := by
  have hnone₁ : w₁.settlement? a = none := by rwa [settlement?, hinstances]
  have hset : (w₁.settle a o).1.settlement? a = some o :=
    settlement?_settle_self hnone₁ (by rw [started?, hinstances, ← started?, hs]; simp)
  have hkeeps := release_keeps (w₁.settle a o).1 a
  refine ⟨?_, ?_, ?_, hs, fun b => ?_, hkeeps.settled a o hset, fun b hb => ?_⟩
  · rw [settle_unsettled hnone₁]
    exact hclock
  · rw [actions_release, (settle_effected w₁ a o).actions, World.actions, hinstances, World.actions]
  · rw [settle_unsettled hnone₁]
    exact hbegun
  · rw [started?_release, started?_settle, started?, hinstances, started?]
  · rw [(hkeeps.same b hb).2, ((settle_keeps w₁ a o).same b hb).2, World.settlement?, hinstances,
      World.settlement?]

namespace Tended

/-- What is left of a world that is looked after when one action settles as it should.  The timer or
the listener of the action goes away. -/
theorem finish {o : Settlement} (h : w.Tended since due) (hw : Finishes w w' a o)
    (hdue : ∀ u, due u → due' u ∨ (∃ id, u = .timer id ∧ ∀ t ∈ w'.timers, t.id ≠ id) ∨
      ∃ r, u = .listener r ∧ ∀ l ∈ w'.listeners, l.receiver ≠ r)
    (hnext : w'.nextTimer = w.nextTimer)
    (htimers : ∀ t, t ∈ w'.timers ↔ t ∈ w.timers ∧ t.action ≠ a)
    (hlisteners : ∀ l, l ∈ w'.listeners ↔ l ∈ w.listeners ∧ l.action ≠ a)
    (htidy : w'.bus.Tidy) (hcapacity : w'.bus.capacity = w.bus.capacity)
    (hjoined : ∀ l ∈ w'.listeners, ∀ name, w'.bus.Joined name l.receiver ↔
      w.bus.Joined name l.receiver)
    (hmailbox : ∀ l ∈ w'.listeners, w'.bus.mailbox? l.receiver = w.bus.mailbox? l.receiver)
    (hown : ∀ v, (a, v) ∈ w.begun → w'.Honours since (a, v)) : w'.Tended since due' := by
  have hsent (d : ActionId) (s : Signal) : w'.Sent d s ↔ w.Sent d s :=
    sent_congr hw.actions hw.begun
  have hdueTimer {t : Timer} (ht : t ∈ w'.timers) (hd : due (.timer t.id)) :
      due' (.timer t.id) := by
    rcases hdue _ hd with hd | ⟨id, hid, hnone⟩ | ⟨r, hr, -⟩
    · exact hd
    · cases hid
      exact absurd rfl (hnone t ht)
    · cases hr
  have hdueListener {l : Listener} (hl : l ∈ w'.listeners) (hd : due (.listener l.receiver)) :
      due' (.listener l.receiver) := by
    rcases hdue _ hd with hd | ⟨id, hid, -⟩ | ⟨r, hr, hnone⟩
    · exact hd
    · cases hid
    · cases hr
      exact absurd rfl (hnone l hl)
  constructor
  case tidy => exact htidy
  case capacity => exact hcapacity ▸ h.capacity
  case logged => exact ⟨hw.begun ▸ h.logged.once, fun b hb => by
    rw [hw.started]
    exact h.logged.started b (hw.begun ▸ hb)⟩
  case listed =>
    intro d hd
    rw [hw.begun]
    exact h.listed d (hw.started d ▸ hd)
  case unsettled =>
    intro d hd
    rw [hw.started] at hd
    have hne : d ≠ a := by
      rintro rfl
      exact hd hw.began
    rw [hw.others d hne, h.unsettled d hd]
  case newcomers =>
    intro d hd
    rw [hw.clock]
    exact h.newcomers d (hw.started d ▸ hd)
  case plain =>
    intro d hd
    rw [effects_congr hw.actions]
    exact h.plain d (hw.actions ▸ hd)
  case nextTimer =>
    intro t ht
    rw [hnext]
    exact h.nextTimer t ((htimers t).1 ht).1
  case timerIds =>
    intro t ht t' ht'
    exact h.timerIds t ((htimers t).1 ht).1 t' ((htimers t').1 ht').1
  case timerActions =>
    intro t ht t' ht'
    exact h.timerActions t ((htimers t).1 ht).1 t' ((htimers t').1 ht').1
  case timers =>
    intro t ht
    obtain ⟨hmem, hne⟩ := (htimers t).1 ht
    exact (h.timers t hmem).of_unaffected (hw.unaffected hne) hw.clock (hdueTimer ht)
  case receivers =>
    intro l hl l' hl'
    exact h.receivers l ((hlisteners l).1 hl).1 l' ((hlisteners l').1 hl').1
  case listenerActions =>
    intro l hl l' hl'
    exact h.listenerActions l ((hlisteners l).1 hl).1 l' ((hlisteners l').1 hl').1
  case listeners =>
    intro l hl
    obtain ⟨hmem, hne⟩ := (hlisteners l).1 hl
    exact (h.listeners l hmem).of_unaffected (hw.unaffected hne) (hsent _) (hjoined l hl)
      (hmailbox l hl) (hdueListener hl)
  case honours =>
    intro d hd
    rw [hw.begun] at hd
    by_cases hne : d.1 = a
    · subst hne
      exact hown d.2 hd
    · refine (h.honours d hd).of_unaffected hd (hw.unaffected hne) hw.clock (fun s => (hsent _ s).2)
        (fun t ht hta => ?_) fun l hl hla => ?_
      · exact ⟨t, (htimers t).2 ⟨ht, hta ▸ hne⟩, hta⟩
      · exact ⟨l, (hlisteners l).2 ⟨hl, hla ▸ hne⟩, hla⟩

/-! ## The tasks of timers -/

/-- The timers of the same waits, each as it should be. -/
theorem retime {ts : List Timer} (h : w.Tended since due)
    (hdue : ∀ l ∈ w.listeners, due (.listener l.receiver) → due' (.listener l.receiver))
    (hsame : ∀ t ∈ ts, ∃ t₀ ∈ w.timers, t₀.id = t.id ∧ t₀.action = t.action)
    (hinj : ∀ t ∈ ts, ∀ t' ∈ ts, t.id = t'.id → t = t')
    (hall : ∀ t₀ ∈ w.timers, ∃ t ∈ ts, t.action = t₀.action)
    (htimed : ∀ t ∈ ts, w.Timed since due' t) :
    ({ w with timers := ts } : World).Tended since due' where
  tidy := h.tidy
  capacity := h.capacity
  logged := ⟨h.logged.once, h.logged.started⟩
  listed := h.listed
  unsettled := h.unsettled
  newcomers := h.newcomers
  plain := h.plain
  nextTimer t ht := by
    obtain ⟨t₀, ht₀, hid, -⟩ := hsame t ht
    exact hid ▸ h.nextTimer t₀ ht₀
  timerIds := hinj
  timerActions t ht t' ht' ha := by
    obtain ⟨t₀, ht₀, hid, ha₀⟩ := hsame t ht
    obtain ⟨t₀', ht₀', hid', ha₀'⟩ := hsame t' ht'
    have := h.timerActions t₀ ht₀ t₀' ht₀' (by rw [ha₀, ha₀', ha])
    exact hinj t ht t' ht' (by rw [← hid, ← hid', this])
  timers t ht := ⟨(htimed t ht).waits, (htimed t ht).unsettled, (htimed t ht).deadline,
    (htimed t ht).due⟩
  receivers := h.receivers
  listenerActions := h.listenerActions
  listeners l hl := (h.listeners l hl).of_unaffected (.of_same rfl rfl)
    (fun _ => sent_congr rfl rfl) (fun _ => .rfl) rfl (hdue l hl)
  honours b hb := by
    refine (h.honours b hb).of_unaffected hb (.of_same rfl rfl) rfl
      (fun _ => (sent_congr rfl rfl).2) (fun t₀ ht₀ ha => ?_) fun l hl ha => ⟨l, hl, ha⟩
    obtain ⟨t, ht, ha'⟩ := hall t₀ ht₀
    exact ⟨t, ht, ha'.trans ha⟩

theorem timed_deadline {t : Timer} (ht : w.Timed since due t) :
    t.deadline.getD (w.clock + t.delay.timerMillis) = since t.action + t.delay.timerMillis := by
  rcases ht.deadline with ⟨hnone, hsince⟩ | hsome
  · rw [hnone, Option.getD_none, hsince]
  · rw [hsome, Option.getD_some]

/-- The task of a timer completes a wait whose time has come, and gives a deadline to a timer that
has none. -/
theorem runTimer (h : w.Tended since due) (id : TimerId)
    (hdue : ∀ u, due u → u = .timer id ∨ due' u) : (w.runTimer id).1.Tended since due' := by
  have hlisten (l : Listener) (hd : due (.listener l.receiver)) : due' (.listener l.receiver) :=
    (hdue _ hd).resolve_left fun hu => by cases hu
  have hother {t : Timer} (hid : t.id ≠ id) (hd : due (.timer t.id)) : due' (.timer t.id) :=
    (hdue _ hd).resolve_left fun hu => hid (Task.timer.inj hu)
  unfold World.runTimer
  split
  next hnone =>
    refine h.weaken (fun t ht => .inr (hother ?_)) fun l _ => hlisten l
    simpa using List.find?_eq_none.1 hnone t ht
  next t ht =>
    obtain rfl : t.id = id := by simpa using List.find?_some ht
    have hmem := List.mem_of_find?_eq_some ht
    have htimed := h.timers t hmem
    obtain ⟨v, hv, he⟩ := htimed.waits
    have hothers {t' : Timer} : t' ∈ (w.timers.filter fun t' => t'.id != t.id) ↔
        t' ∈ w.timers ∧ t'.action ≠ t.action := by
      simp only [List.mem_filter, bne_iff_ne]
      refine and_congr_right fun ht' => not_congr ⟨fun hid => ?_, fun ha => ?_⟩
      · rw [h.timerIds t' ht' t hmem hid]
      · rw [h.timerActions t' ht' t hmem ha]
    dsimp only
    rw [timed_deadline htimed]
    split
    next hle =>
      have hstarted := h.logged.started _ hv
      have hnone : World.settlement? { w with
          timers := w.timers.filter fun t' => t'.id != t.id } t.action = none := htimed.unsettled
      have hw := finishes_release (w := w)
        { w with timers := w.timers.filter fun t' => t'.id != t.id } (.ok t.value) rfl rfl rfl
        htimed.unsettled hstarted
      rw [settle_unsettled hnone] at hw ⊢
      refine h.finish hw (fun u hu => ?_) rfl (fun _ => hothers) (fun l => ?_) h.tidy rfl
        (fun _ _ _ => .rfl) (fun _ _ => rfl) fun v' hv' => ?_
      · refine (hdue u hu).symm.imp_right fun hu => .inl ⟨t.id, hu, fun t' ht' => ?_⟩
        simpa using (List.mem_filter.1 ht').2
      · refine ⟨fun hl => ⟨hl, fun ha => ?_⟩, And.left⟩
        obtain ⟨u, hu, he'⟩ := (h.listeners l hl).awaits
        rw [ha] at hu he'
        rw [h.logged.input_unique hu hv, he] at he'
        cases he'
      · obtain rfl := h.logged.input_unique hv' hv
        refine ⟨fun s hs => ?_, fun delay value he' => .inl ?_, fun name he' => ?_⟩
        · rw [effects_congr hw.actions, he] at hs
          simp at hs
        · rw [effects_congr hw.actions, he] at he'
          cases he'
          exact ⟨hw.settlement, by rw [hw.clock]; exact hle⟩
        · rw [effects_congr hw.actions, he] at he'
          cases he'
    next hlt =>
      split
      next hsome =>
        refine h.weaken (fun t' ht' => ?_) fun l _ => hlisten l
        by_cases hid : t'.id = t.id
        · rw [h.timerIds t' ht' t hmem hid]
          rcases htimed.deadline with ⟨hnone, -⟩ | hd
          · rw [hnone] at hsome
            cases hsome
          · exact .inl ⟨_, hd, Nat.lt_of_not_le hlt⟩
        · exact .inr (hother hid)
      next hnone =>
        refine h.retime (fun l _ => hlisten l) (fun t' ht' => ?_) (fun t₁ ht₁ t₂ ht₂ hid => ?_)
          (fun t₀ ht₀ => ?_) fun t' ht' => ?_
        · rcases List.mem_append.1 ht' with ht' | ht'
          · exact ⟨t', List.mem_of_mem_filter ht', rfl, rfl⟩
          · rw [List.mem_singleton.1 ht']
            exact ⟨t, hmem, rfl, rfl⟩
        · refine eq_of_key_append (fun t₁ ht₁ t₂ ht₂ => ?_) (fun t' ht' => ?_) t₁ ht₁ t₂ ht₂ hid
          · exact h.timerIds t₁ (List.mem_of_mem_filter ht₁) t₂ (List.mem_of_mem_filter ht₂)
          · obtain rfl := List.mem_singleton.1 ht'
            exact ⟨rfl, fun t₁ ht₁ => by simpa using (List.mem_filter.1 ht₁).2⟩
        · by_cases ha : t₀.action = t.action
          · exact ⟨_, List.mem_append_right _ (List.mem_singleton_self _), ha.symm⟩
          · exact ⟨t₀, List.mem_append_left _ (hothers.2 ⟨ht₀, ha⟩), rfl⟩
        · rcases List.mem_append.1 ht' with ht' | ht'
          · have htimed' := h.timers t' (List.mem_of_mem_filter ht')
            exact { htimed' with
              due := htimed'.due.imp_right (hother (by simpa using (List.mem_filter.1 ht').2)) }
          · rw [List.mem_singleton.1 ht']
            exact ⟨⟨v, hv, he⟩, htimed.unsettled, .inr rfl, .inl ⟨_, rfl, Nat.lt_of_not_le hlt⟩⟩

/-! ## The tasks of listeners -/

/-- The same listeners, of which one has looked into its mailbox in vain. -/
theorem relisten {bus : Bus} {ls : List Listener} (h : w.Tended since due)
    (hread : Bus.Read w.bus bus r) (hls : ∀ l, l ∈ ls ↔ l ∈ w.listeners)
    (hdue : ∀ u, due u → u = .listener r ∨ due' u)
    (hempty : ∃ m m', w.bus.mailbox? r = some m ∧ m.unread = [] ∧ bus.mailbox? r = some m' ∧
      m'.unread = []) : ({ w with bus := bus, listeners := ls } : World).Tended since due' where
  tidy := hread.tidy h.tidy
  capacity := by
    rw [hread.capacity]
    exact h.capacity
  logged := ⟨h.logged.once, h.logged.started⟩
  listed := h.listed
  unsettled := h.unsettled
  newcomers := h.newcomers
  plain := h.plain
  nextTimer := h.nextTimer
  timerIds := h.timerIds
  timerActions := h.timerActions
  timers t ht := (h.timers t ht).of_unaffected (.of_same rfl rfl) rfl fun hd =>
    (hdue _ hd).resolve_left fun hu => by cases hu
  receivers l hl l' hl' := h.receivers l ((hls l).1 hl) l' ((hls l').1 hl')
  listenerActions l hl l' hl' := h.listenerActions l ((hls l).1 hl) l' ((hls l').1 hl')
  listeners l hl := by
    have hl := (hls l).1 hl
    by_cases hr : l.receiver = r
    · obtain ⟨hended, hawaits, hnone, hjoined, m, hm, -, hnil, -⟩ := h.listeners l hl
      obtain ⟨m₀, m', hm₀, hempty₀, hm', hempty'⟩ := hempty
      rw [← hr, hm] at hm₀
      obtain rfl := Option.some.inj hm₀
      refine ⟨hended, hawaits, hnone, fun name => hread.joined.trans (hjoined name), m',
        by rw [hr]; exact hm', fun s hs => ?_, fun _ => hnil hempty₀, .inl hempty'⟩
      rw [hempty'] at hs
      cases hs
    · refine (h.listeners l hl).of_unaffected (.of_same rfl rfl) (fun _ => sent_congr rfl rfl)
        (fun _ => hread.joined) (hread.others _ hr) fun hd => ?_
      exact (hdue _ hd).resolve_left fun hu => hr (Task.listener.inj hu)
  honours b hb := (h.honours b hb).of_unaffected hb (.of_same rfl rfl) rfl
    (fun _ => (sent_congr rfl rfl).2) (fun t ht ha => ⟨t, ht, ha⟩)
    fun l hl ha => ⟨l, (hls l).2 hl, ha⟩

/-- The task of a listener settles an action with a signal that was sent since it began, or waits
on. -/
theorem runListener (h : w.Tended since due) (r : ReceiverId)
    (hdue : ∀ u, due u → u = .listener r ∨ due' u) : (w.runListener r).1.Tended since due' := by
  have htimer (t : Timer) (hd : due (.timer t.id)) : due' (.timer t.id) :=
    (hdue _ hd).resolve_left fun hu => by cases hu
  unfold World.runListener
  split
  next hnone =>
    refine h.weaken (fun t _ => .inr (htimer t)) fun l hl hd =>
      (hdue _ hd).resolve_left fun hu => ?_
    exact absurd (Task.listener.inj hu) (by simpa using List.find?_eq_none.1 hnone l hl)
  next l hl =>
    obtain rfl : l.receiver = r := by simpa using List.find?_some hl
    have hmem := List.mem_of_find?_eq_some hl
    obtain ⟨hended, ⟨v, hv, he⟩, hnone, hjoined, m, hm, hunread, hempty, hwake⟩ :=
      h.listeners l hmem
    have hothers {l' : Listener} : l' ∈ (w.listeners.filter fun l' => l'.receiver != l.receiver) ↔
        l' ∈ w.listeners ∧ l'.action ≠ l.action := by
      simp only [List.mem_filter, bne_iff_ne]
      refine and_congr_right fun hl' => not_congr ⟨fun hr => ?_, fun ha => ?_⟩
      · rw [h.receivers l' hl' l hmem hr]
      · rw [h.listenerActions l' hl' l hmem ha]
    dsimp only
    rw [hended, if_neg Bool.false_ne_true]
    cases hsignals : m.unread with
    | nil =>
      obtain ⟨bus, m', hreceive, hread, hm', hempty'⟩ :=
        Bus.receiveKept_empty hm hsignals ((hjoined l.name).2 rfl)
      rw [hreceive]
      dsimp only
      refine h.relisten hread (fun l' => ?_) hdue ⟨m, m', hm, hsignals, hm', hempty'⟩
      rw [List.mem_append, List.mem_singleton, hothers]
      refine ⟨fun hl' => hl'.elim And.left fun heq => heq ▸ hmem, fun hl' => ?_⟩
      by_cases ha : l'.action = l.action
      · exact .inr (h.listenerActions l' hl' l hmem ha)
      · exact .inl ⟨hl', ha⟩
    | cons s rest =>
      obtain ⟨bus, hreceive, hread⟩ := Bus.receiveKept_signal hm hsignals
      rw [hreceive]
      dsimp only
      obtain ⟨hname, hsent⟩ := hunread s (by rw [hsignals]; exact List.mem_cons_self)
      have hstarted := h.logged.started _ hv
      have hw := finishes_release (w := w) { w with bus := bus } (settlementOf s) rfl rfl rfl hnone
        hstarted
      have hnone₁ : World.settlement? { w with bus := bus } l.action = none := hnone
      rw [settle_unsettled hnone₁] at hw ⊢
      -- leaving the bus does not matter to any action
      replace hw : Finishes w ((dropListener (({ w with bus := bus } : World).modifyInstance
          l.action fun i => { i with settlement := some (settlementOf s) }) l).release l.action)
          l.action (settlementOf s) :=
        ⟨hw.clock, hw.actions, hw.begun, hw.began, hw.started, hw.settlement, hw.others⟩
      refine h.finish hw (fun u hu => ?_) rfl (fun t => ?_) (fun _ => hothers) ?_ hread.capacity
        (fun l' hl' name => ?_) (fun l' hl' => ?_) fun v' hv' => ?_
      · refine (hdue u hu).symm.imp_right fun hu => .inr ⟨l.receiver, hu, fun l' hl' => ?_⟩
        simpa using (List.mem_filter.1 hl').2
      · refine ⟨fun ht => ⟨ht, fun ha => ?_⟩, And.left⟩
        obtain ⟨u, hu, he'⟩ := (h.timers t ht).waits
        rw [ha] at hu he'
        rw [h.logged.input_unique hu hv, he] at he'
        cases he'
      · exact (hread.tidy h.tidy).dropReceiver l.receiver
      · have hr : l'.receiver ≠ l.receiver := by simpa using (List.mem_filter.1 hl').2
        exact Bus.joined_dropReceiver.trans ((and_iff_left hr).trans hread.joined)
      · have hr : l'.receiver ≠ l.receiver := by simpa using (List.mem_filter.1 hl').2
        exact (Bus.mailbox?_dropReceiver hr).trans (hread.others _ hr)
      · obtain rfl := h.logged.input_unique hv' hv
        refine ⟨fun s hs => ?_, fun delay value he' => ?_, fun name he' => .inl ?_⟩
        · rw [effects_congr hw.actions, he] at hs
          simp at hs
        · rw [effects_congr hw.actions, he] at he'
          cases he'
        · rw [effects_congr hw.actions, he] at he'
          cases he'
          exact ⟨s, (sent_congr hw.actions hw.begun).2 hsent, hname, hw.settlement⟩

end Tended

theorem runTimer_frame (w : World) (id : TimerId) :
    (w.runTimer id).1.clock = w.clock ∧ (w.runTimer id).1.actions = w.actions := by
  unfold World.runTimer
  split
  · exact ⟨rfl, rfl⟩
  · dsimp only
    split
    · rw [actions_release]
      exact ⟨(settle_effected { w with timers := _ } _ _).clock, (settle_effected _ _ _).actions⟩
    · split <;> exact ⟨rfl, rfl⟩

theorem runListener_frame (w : World) (r : ReceiverId) :
    (w.runListener r).1.clock = w.clock ∧ (w.runListener r).1.actions = w.actions := by
  have finish (w : World) (l : Listener) (s : Settlement) :
      (((w.settle l.action s).1.dropListener l).release l.action).clock = w.clock ∧
        (((w.settle l.action s).1.dropListener l).release l.action).actions = w.actions := by
    rw [actions_release]
    exact ⟨(settle_effected w l.action s).clock, (settle_effected w l.action s).actions⟩
  unfold World.runListener
  split
  · exact ⟨rfl, rfl⟩
  next l _ =>
    dsimp only
    split
    · exact ⟨rfl, actions_release _ _⟩
    · split
      · exact finish { w with bus := _ } l _
      · exact finish { w with bus := _ } l _
      · exact ⟨rfl, rfl⟩

/-! ## The clock -/

theorem Requeued.enqueueAll (ts : List Task) (w : World) :
    Requeued w (ts.foldl World.enqueue w) := by
  induction ts generalizing w with
  | nil => exact .refl w
  | cons t ts ih => exact (Requeued.push w .ready t).trans (ih _)

theorem due_enqueueAll {ts : List Task} {t : Task} (w : World) (h : t ∈ ts) :
    (ts.foldl World.enqueue w).Due t := by
  induction ts generalizing w with
  | nil => cases h
  | cons u ts ih =>
    rcases List.mem_cons.1 h with rfl | h
    · have hkeeps (ts : List Task) (w : World) :
          Keeps (fun _ => False) w (ts.foldl World.enqueue w) := by
        induction ts generalizing w with
        | nil => exact .refl w
        | cons u ts ih => exact (push_keeps w u _ .ready).trans (ih _) fun _ hn => hn
      exact (hkeeps ts _).due _ (due_push w _ .ready)
    · exact ih _ h

namespace Tended

/-- The clock moves while no task is sure to run.  Whatever has not begun begins at the new time at
the earliest. -/
theorem moveClock (h : w.Tended since due) (hrest : ∀ u, ¬due u) {now : Nat}
    (hnow : w.clock ≤ now) : (w.moveClock now).Tended
      (fun a => if w.started? a = some true then since a else now) (w.moveClock now).Due := by
  have hq : Requeued { w with clock := now } (w.moveClock now) := .enqueueAll _ _
  have hbegun {b : ActionId × Json} (hb : b ∈ w.begun) :
      (if w.started? b.1 = some true then since b.1 else now) = since b.1 :=
    if_pos (h.logged.started b hb)
  refine Tended.requeue (w := { w with clock := now }) ?_ hq
  exact {
    tidy := h.tidy
    capacity := h.capacity
    logged := ⟨h.logged.once, h.logged.started⟩
    listed := h.listed
    unsettled := h.unsettled
    newcomers := fun a ha => if_neg ha
    plain := h.plain
    nextTimer := h.nextTimer
    timerIds := h.timerIds
    timerActions := h.timerActions
    timers := fun t ht => by
      obtain ⟨⟨v, hv, he⟩, hnone, hdeadline, hd⟩ := h.timers t ht
      obtain ⟨d, hd, -⟩ := hd.resolve_right (hrest _)
      refine ⟨⟨v, hv, he⟩, hnone, .inr ?_, ?_⟩
      · rw [hbegun hv]
        exact hdeadline.resolve_left fun hn => by
          rw [hd] at hn
          cases hn.1
      · by_cases hle : d ≤ now
        · refine .inr (due_enqueueAll _ (List.mem_map.2 ⟨t, List.mem_filter.2 ⟨ht, ?_⟩, rfl⟩))
          rw [hd]
          exact decide_eq_true hle
        · exact .inl ⟨d, hd, Nat.lt_of_not_le hle⟩
    receivers := h.receivers
    listenerActions := h.listenerActions
    listeners := fun l hl => by
      obtain ⟨hended, hawaits, hnone, hjoined, m, hm, hunread, hempty, hwake⟩ := h.listeners l hl
      exact ⟨hended, hawaits, hnone, hjoined, m, hm, hunread, hempty,
        .inl (hwake.resolve_right (hrest _))⟩
    honours := fun b hb => by
      obtain ⟨hsettles, hwaits, hlistens⟩ := h.honours b hb
      refine ⟨hsettles, fun delay value he => (hwaits delay value he).imp_left ?_, hlistens⟩
      rintro ⟨hset, hle⟩
      refine ⟨hset, ?_⟩
      rw [hbegun hb]
      exact Nat.le_trans hle hnow }

/-! ## At rest -/

section Rest

variable (h : w.Tended since due)

include h

/-- A wait that has ended has ended with its value, and not before its time. -/
theorem waits_settled {delay : Duration} {value : Json} {o : Settlement} (hb : (a, v) ∈ w.begun)
    (he : w.effects (a, v) = [.completeAfter delay value]) (ho : w.settlement? a = some o) :
    o = .ok value ∧ since a + delay.timerMillis ≤ w.clock := by
  rcases (h.honours _ hb).waits delay value he with ⟨hset, hle⟩ | ⟨t, ht, rfl⟩
  · rw [hset] at ho
    exact ⟨(Option.some.inj ho).symm, hle⟩
  · rw [(h.timers t ht).unsettled] at ho
    cases ho

/-- An action that has settled after awaiting a signal has settled with one that was sent since it
began. -/
theorem listens_settled {name : String} {o : Settlement} (hb : (a, v) ∈ w.begun)
    (he : w.effects (a, v) = [.listen name]) (ho : w.settlement? a = some o) :
    ∃ s, w.Sent a s ∧ s.name = name ∧ o = settlementOf s := by
  rcases (h.honours _ hb).listens name he with ⟨s, hs, hname, hset⟩ | ⟨l, hl, rfl⟩
  · rw [hset] at ho
    exact ⟨s, hs, hname, (Option.some.inj ho).symm⟩
  · rw [(h.listeners l hl).unsettled] at ho
    cases ho

variable (hrest : ∀ u, ¬due u)

include hrest

/-- At rest the deadlines of the timers are the times at which waits are still to end. -/
theorem mem_deadlines_iff {d : Nat} : d ∈ w.timers.filterMap Timer.deadline ↔
    ∃ a v delay value, (a, v) ∈ w.begun ∧ w.effects (a, v) = [.completeAfter delay value] ∧
      w.settlement? a = none ∧ d = since a + delay.timerMillis := by
  rw [List.mem_filterMap]
  constructor
  · rintro ⟨t, ht, hd⟩
    obtain ⟨⟨v, hv, he⟩, hnone, hdeadline, -⟩ := h.timers t ht
    refine ⟨t.action, v, t.delay, t.value, hv, he, hnone, ?_⟩
    rcases hdeadline with ⟨hn, -⟩ | hs
    · rw [hd] at hn
      cases hn
    · rw [hd] at hs
      exact Option.some.inj hs
  · rintro ⟨a, v, delay, value, hv, he, hnone, rfl⟩
    rcases (h.honours _ hv).waits delay value he with ⟨hset, -⟩ | ⟨t, ht, rfl⟩
    · rw [hnone] at hset
      cases hset
    · refine ⟨t, ht, ?_⟩
      obtain ⟨⟨v', hv', he'⟩, -, hdeadline, hd⟩ := h.timers t ht
      obtain ⟨d, hd, -⟩ := hd.resolve_right (hrest _)
      rw [h.logged.input_unique hv' hv, he] at he'
      cases he'
      exact hdeadline.resolve_left fun hn => by
        rw [hd] at hn
        cases hn.1

/-- At rest a wait that has not ended has time left. -/
theorem waits_rest {delay : Duration} {value : Json} (hb : (a, v) ∈ w.begun)
    (he : w.effects (a, v) = [.completeAfter delay value]) (hnone : w.settlement? a = none) :
    w.clock < since a + delay.timerMillis := by
  obtain ⟨t, ht, hd⟩ := List.mem_filterMap.1
    ((h.mem_deadlines_iff hrest).2 ⟨a, v, delay, value, hb, he, hnone, rfl⟩)
  obtain ⟨d, hd', hlt⟩ := (h.timers t ht).due.resolve_right (hrest _)
  rw [hd] at hd'
  exact Option.some.inj hd' ▸ hlt

/-- At rest no signal has been sent that somebody still awaits. -/
theorem listens_rest {name : String} (hb : (a, v) ∈ w.begun)
    (he : w.effects (a, v) = [.listen name]) (hnone : w.settlement? a = none) {s : Signal}
    (hs : w.Sent a s) : s.name ≠ name := by
  rcases (h.honours _ hb).listens name he with ⟨s', -, -, hset⟩ | ⟨l, hl, rfl⟩
  · rw [hnone] at hset
    cases hset
  · obtain ⟨-, ⟨v', hv', he'⟩, -, -, m, -, -, hempty, hwake⟩ := h.listeners l hl
    rw [h.logged.input_unique hv' hb, he] at he'
    cases he'
    exact hempty (hwake.resolve_right (hrest _)) s hs

end Rest

end Tended

end Rundown.World
