import Rundown.Proofs.World.ExcerptBegin

/-!
# The tasks of an excerpt

The timers and the listeners of an excerpt do in the world where it is alone what they do beside
others (`Excerpt.Shows.runTimer_own`, `Excerpt.Shows.runListener_own`), and what other timers and
listeners do does not show (`Excerpt.Shows.runTimer_foreign`, `Excerpt.Shows.runListener_foreign`).
The clock moves in both worlds.  A task of the excerpt that is taken from its queue stands in the
same queue of the other world, at most as far behind.
-/

namespace Rundown

/-! ## Lists with counterparts -/

section

variable {α β : Type} {f : α → Option β} {l : List α} {p : α → Bool} {p' : β → Bool}

theorem filter_filterMap_of (hp : ∀ a ∈ l, ∀ b, f a = some b → p' b = p a) :
    (l.filterMap f).filter p' = (l.filter p).filterMap f := by
  rw [List.filter_filterMap, List.filterMap_filter]
  refine List.filterMap_congr fun a ha => ?_
  cases hf : f a with
  | none => simp
  | some b => simp [Option.filter, hp a ha b hf]

theorem filterMap_filter_of (hp : ∀ a ∈ l, p a = false → f a = none) :
    (l.filter p).filterMap f = l.filterMap f := by
  rw [List.filterMap_filter]
  refine List.filterMap_congr fun a ha => ?_
  split
  · rfl
  next hn => rw [hp a ha (Bool.eq_false_iff.2 hn)]

theorem find?_filterMap_of (hp : ∀ a ∈ l, ∀ b, f a = some b → p' b = p a)
    (hsome : ∀ a ∈ l, p a = true → (f a).isSome = true) :
    (l.filterMap f).find? p' = (l.find? p).bind f := by
  induction l with
  | nil => rfl
  | cons a rest ih =>
    have ih := ih (fun b hb => hp b (List.mem_cons_of_mem _ hb))
      fun b hb => hsome b (List.mem_cons_of_mem _ hb)
    have ha := hp a List.mem_cons_self
    rw [List.find?_cons]
    cases hf : f a with
    | none =>
      have hfalse : p a = false := Bool.eq_false_iff.2 fun htrue => by
        have := hsome a List.mem_cons_self htrue
        rw [hf] at this
        cases this
      rw [List.filterMap_cons_none hf, hfalse, ih]
    | some b =>
      rw [List.filterMap_cons_some hf, List.find?_cons, ha b hf]
      cases p a with
      | true => exact hf.symm
      | false => exact ih

theorem any_filterMap_of (hp : ∀ a ∈ l, ∀ b, f a = some b → p' b = p a)
    (hsome : ∀ a ∈ l, p a = true → (f a).isSome = true) : (l.filterMap f).any p' = l.any p := by
  rw [Bool.eq_iff_iff, List.any_eq_true, List.any_eq_true]
  constructor
  · rintro ⟨b, hb, htrue⟩
    obtain ⟨a, ha, hf⟩ := List.mem_filterMap.1 hb
    exact ⟨a, ha, hp a ha b hf ▸ htrue⟩
  · rintro ⟨a, ha, htrue⟩
    obtain ⟨b, hf⟩ := Option.isSome_iff_exists.1 (hsome a ha htrue)
    exact ⟨b, List.mem_filterMap.2 ⟨a, ha, hf⟩, (hp a ha b hf).trans htrue⟩

/-- An element with a counterpart is taken away. -/
theorem filterMap_eraseIdx_some {i : Nat} {a : α} {b : β} (hi : l[i]? = some a)
    (hf : f a = some b) : ∃ i' ≤ i, (l.filterMap f)[i']? = some b ∧
      (l.eraseIdx i).filterMap f = (l.filterMap f).eraseIdx i' := by
  induction l generalizing i with
  | nil => cases hi
  | cons c rest ih =>
    cases i with
    | zero =>
      cases hi
      rw [List.filterMap_cons_some hf]
      exact ⟨0, Nat.le_refl 0, rfl, rfl⟩
    | succ i =>
      obtain ⟨i', hle, hi', heq⟩ := ih hi
      rw [List.eraseIdx_cons_succ]
      cases hc : f c with
      | none =>
        rw [List.filterMap_cons_none hc, List.filterMap_cons_none hc]
        exact ⟨i', Nat.le_succ_of_le hle, hi', heq⟩
      | some c' =>
        rw [List.filterMap_cons_some hc, List.filterMap_cons_some hc, heq]
        exact ⟨i' + 1, Nat.succ_le_succ hle, hi', rfl⟩

theorem filterMap_eraseIdx_none {i : Nat} {a : α} (hi : l[i]? = some a) (hf : f a = none) :
    (l.eraseIdx i).filterMap f = l.filterMap f := by
  induction l generalizing i with
  | nil => cases hi
  | cons c rest ih =>
    cases i with
    | zero =>
      cases hi
      rw [List.filterMap_cons_none hf]
      rfl
    | succ i =>
      rw [List.eraseIdx_cons_succ]
      cases hc : f c with
      | none => rw [List.filterMap_cons_none hc, List.filterMap_cons_none hc, ih hi]
      | some c' => rw [List.filterMap_cons_some hc, List.filterMap_cons_some hc, ih hi]

end

/-- Moving the clock makes the timers ready whose deadlines have come. -/
theorem World.moveClock_eq (w : World) (now : Nat) : w.moveClock now =
    ((w.timers.filter fun t => t.deadline.any fun d => d ≤ now).map fun t => Task.timer t.id).foldl
      World.enqueue { w with clock := now } := by
  unfold World.moveClock
  dsimp only
  congr 3
  funext t
  cases t.deadline <;> rfl

namespace Excerpt

variable {x : Excerpt} {n : Numbers} {w w' : World} {a a' : ActionId} {t t' : Task}
  {m m' : TimerId} {r r' : ReceiverId}

namespace Shows

/-! ## Timers -/

/-- The timers have changed, but not whose they are. -/
theorem withTimers (h : x.Shows n w w') {ts ts' : List Timer}
    (hts : ∀ t ∈ ts, ∃ t₀ ∈ w.timers, t₀.id = t.id ∧ t₀.action = t.action)
    (heq : ts' = ts.filterMap (x.timer? n)) :
    x.Shows n { w with timers := ts } { w' with timers := ts' } where
  __ := h.toShowsTasks
  __ := h
  timers := heq
  timerIds t ht := by
    obtain ⟨t₀, ht₀, hid, -⟩ := hts t ht
    exact hid ▸ h.timerIds t₀ ht₀
  timerOwners t ht := by
    obtain ⟨t₀, ht₀, hid, ha⟩ := hts t ht
    rw [← hid, ← ha]
    exact h.timerOwners t₀ ht₀

theorem timer_id (h : x.Shows n w w') (hm : n.timer? m = some m') {t t' : Timer}
    (ht : x.timer? n t = some t') : (t'.id == m') = (t.id == m) := by
  obtain ⟨hid, -, -⟩ := timer?_eq_some ht
  rw [Bool.eq_iff_iff, beq_iff_eq, beq_iff_eq]
  constructor
  · intro heq
    exact h.timerNumbers.inj (heq ▸ hid) hm
  · intro heq
    exact Option.some.inj (hid.symm.trans (heq ▸ hm))

theorem exists_timer (h : x.Shows n w w') {t : Timer} (ht : t ∈ w.timers)
    (hm : n.timer? t.id = some m') : ∃ a', x.action? t.action = some a' ∧
      x.timer? n t = some { t with id := m', action := a' } := by
  obtain ⟨a', ha⟩ := Option.isSome_iff_exists.1 ((h.timerOwners t ht).symm.trans (by rw [hm]; rfl))
  exact ⟨a', ha, by simp [timer?, hm, ha]⟩

theorem action?_timer (h : x.Shows n w w') {t : Timer} (ht : t ∈ w.timers)
    (hm : n.timer? t.id = none) : x.action? t.action = none := by
  have howner := h.timerOwners t ht
  rw [hm] at howner
  exact Option.not_isSome_iff_eq_none.1 (by rw [← howner]; decide)

theorem release_own (h : x.Shows n w w') (ha : x.action? a = some a') :
    x.Shows n (w.release a) (w'.release a') := h.modifyInstance_own ha fun _ => rfl

theorem release_foreign (h : x.Shows n w w') (ha : x.action? a = none) :
    x.Shows n (w.release a) w' := h.modifyInstance_foreign ha fun _ => rfl

theorem withoutTimer_own (h : x.Shows n w w') (hm : n.timer? m = some m') :
    w'.timers.filter (fun t => t.id != m') =
      (w.timers.filter fun t => t.id != m).filterMap (x.timer? n) := by
  rw [h.timers]
  exact filter_filterMap_of fun t _ t' ht => congrArg (!·) (h.timer_id hm ht)

/-- A timer of the excerpt runs in both worlds. -/
theorem runTimer_own (h : x.Shows n w w') (hm : n.timer? m = some m') :
    x.Shows n (w.runTimer m).1 (w'.runTimer m').1 ∧
      ((w.runTimer m).2 = none ∧ (w'.runTimer m').2 = none ∨ ∃ a a', x.action? a = some a' ∧
        (w.runTimer m).2 = some a ∧ (w'.runTimer m').2 = some a') := by
  have hfind : (w'.timers.find? fun t => t.id == m') =
      (w.timers.find? fun t => t.id == m).bind (x.timer? n) := by
    rw [h.timers]
    refine find?_filterMap_of (fun t _ t' ht => h.timer_id hm ht) fun t ht hid => ?_
    obtain ⟨a', -, hsome⟩ := h.exists_timer ht (beq_iff_eq.1 hid ▸ hm)
    rw [hsome]
    rfl
  unfold World.runTimer
  rw [hfind]
  cases ht : w.timers.find? fun t => t.id == m with
  | none => exact ⟨h, .inl ⟨rfl, rfl⟩⟩
  | some t =>
    have hmem := List.mem_of_find?_eq_some ht
    obtain rfl : t.id = m := by simpa using List.find?_some ht
    obtain ⟨a', ha, hsome⟩ := h.exists_timer hmem hm
    have hothers : ∀ u ∈ w.timers.filter fun u => u.id != t.id, ∃ u₀ ∈ w.timers,
        u₀.id = u.id ∧ u₀.action = u.action := fun u hu => ⟨u, List.mem_of_mem_filter hu, rfl, rfl⟩
    have hdue : t.deadline.getD (w'.clock + t.delay.timerMillis) ≤ w'.clock ↔
        t.deadline.getD (w.clock + t.delay.timerMillis) ≤ w.clock := by rw [h.clock]
    rw [Option.bind_some, hsome]
    dsimp only
    by_cases hd : t.deadline.getD (w.clock + t.delay.timerMillis) ≤ w.clock
    · rw [if_pos hd, if_pos (hdue.2 hd)]
      have hstopped := h.withTimers hothers (h.withoutTimer_own hm)
      obtain ⟨hset, hanswer⟩ := hstopped.settle_own ha (.ok t.value)
      refine ⟨hset.release_own ha, ?_⟩
      dsimp only
      rw [hanswer]
      split
      · exact .inr ⟨t.action, a', ha, rfl, rfl⟩
      · exact .inl ⟨rfl, rfl⟩
    · rw [if_neg hd, if_neg fun hd' => hd (hdue.1 hd')]
      split
      · exact ⟨h, .inl ⟨rfl, rfl⟩⟩
      · refine ⟨h.withTimers ?_ ?_, .inl ⟨rfl, rfl⟩⟩
        · exact List.forall_mem_append.2 ⟨hothers,
            List.forall_mem_singleton.2 ⟨t, hmem, rfl, rfl⟩⟩
        · have htimed (d : Option Nat) : x.timer? n { t with deadline := d } =
              some { t with id := m', action := a', deadline := d } := by simp [timer?, hm, ha]
          rw [List.filterMap_append, h.withoutTimer_own hm,
            List.filterMap_cons_some (htimed _), List.filterMap_nil, h.clock]

/-- Another timer runs. -/
theorem runTimer_foreign (h : x.Shows n w w') (hm : n.timer? m = none) :
    x.Shows n (w.runTimer m).1 w' ∧ ∀ a, (w.runTimer m).2 = some a → x.action? a = none := by
  unfold World.runTimer
  cases ht : w.timers.find? fun t => t.id == m with
  | none => exact ⟨h, fun _ ha => by cases ha⟩
  | some t =>
    have hmem := List.mem_of_find?_eq_some ht
    obtain rfl : t.id = m := by simpa using List.find?_some ht
    have ha := h.action?_timer hmem hm
    have hnone (d : Option Nat) : x.timer? n { t with deadline := d } = none := by
      simp [timer?, hm]
    have hothers : ∀ u ∈ w.timers.filter fun u => u.id != t.id, ∃ u₀ ∈ w.timers,
        u₀.id = u.id ∧ u₀.action = u.action := fun u hu => ⟨u, List.mem_of_mem_filter hu, rfl, rfl⟩
    have hrest : w'.timers = (w.timers.filter fun u => u.id != t.id).filterMap (x.timer? n) := by
      rw [h.timers, filterMap_filter_of]
      intro u _ hu
      have hid : u.id = t.id := by simpa using hu
      simp [timer?, hid, hm]
    dsimp only
    split
    · refine ⟨((h.withTimers hothers hrest).settle_foreign ha _).release_foreign ha, fun b hb => ?_⟩
      dsimp only at hb
      split at hb
      · cases hb
        exact ha
      · cases hb
    · split
      · exact ⟨h, fun _ ha => by cases ha⟩
      · refine ⟨h.withTimers ?_ ?_, fun _ ha => by cases ha⟩
        · exact List.forall_mem_append.2 ⟨hothers,
            List.forall_mem_singleton.2 ⟨t, hmem, rfl, rfl⟩⟩
        · rw [List.filterMap_append, ← hrest, List.filterMap_cons_none (hnone _),
            List.filterMap_nil, List.append_nil]

/-! ## Listeners -/

/-- The listeners have changed, but not whose they are. -/
theorem withListeners (h : x.Shows n w w') {ls ls' : List Listener}
    (hls : ∀ l ∈ ls, ∃ l₀ ∈ w.listeners, l₀.receiver = l.receiver ∧ l₀.action = l.action)
    (heq : ls' = ls.filterMap (x.listener? n)) :
    x.Shows n { w with listeners := ls } { w' with listeners := ls' } where
  __ := h.toShowsTasks
  __ := h
  listeners := heq
  receivers l hl := by
    obtain ⟨l₀, hl₀, hr, -⟩ := hls l hl
    exact hr ▸ h.receivers l₀ hl₀
  listenerOwners l hl := by
    obtain ⟨l₀, hl₀, hr, ha⟩ := hls l hl
    rw [← hr, ← ha]
    exact h.listenerOwners l₀ hl₀

/-- The bus has changed, but not how many receivers it has given out. -/
theorem withBus {b b' : Bus} (h : x.Shows n w w') (hb : x.ShowsBus n b b')
    (hnext : b.nextReceiver = w.bus.nextReceiver) :
    x.Shows n { w with bus := b } { w' with bus := b' } where
  __ := h
  below t ht := (h.below t ht).mono (Nat.le_refl _) (Nat.le_of_eq hnext.symm)
  receivers l hl := hnext ▸ h.receivers l hl
  bus := hb

theorem listener_receiver (h : x.Shows n w w') (hr : n.receiver? r = some r') {l l' : Listener}
    (hl : x.listener? n l = some l') : (l'.receiver == r') = (l.receiver == r) := by
  obtain ⟨hid, -⟩ := receiver?_of_listener? hl
  rw [Bool.eq_iff_iff, beq_iff_eq, beq_iff_eq]
  constructor
  · intro heq
    exact h.bus.numbers.inj (heq ▸ hid) hr
  · intro heq
    exact Option.some.inj (hid.symm.trans (heq ▸ hr))

theorem exists_listener (h : x.Shows n w w') {l : Listener} (hl : l ∈ w.listeners)
    (hr : n.receiver? l.receiver = some r') : ∃ a', x.action? l.action = some a' ∧
      x.listener? n l = some { l with receiver := r', action := a' } := by
  obtain ⟨a', ha⟩ :=
    Option.isSome_iff_exists.1 ((h.listenerOwners l hl).symm.trans (by rw [hr]; rfl))
  exact ⟨a', ha, by simp [listener?, hr, ha]⟩

theorem action?_listener (h : x.Shows n w w') {l : Listener} (hl : l ∈ w.listeners)
    (hr : n.receiver? l.receiver = none) : x.action? l.action = none := by
  have howner := h.listenerOwners l hl
  rw [hr] at howner
  exact Option.not_isSome_iff_eq_none.1 (by rw [← howner]; decide)

theorem withoutListener_own (h : x.Shows n w w') (hr : n.receiver? r = some r') :
    w'.listeners.filter (fun l => l.receiver != r') =
      (w.listeners.filter fun l => l.receiver != r).filterMap (x.listener? n) := by
  rw [h.listeners]
  exact filter_filterMap_of fun l _ l' hl => congrArg (!·) (h.listener_receiver hr hl)

theorem withoutListener_foreign (h : x.Shows n w w') (hr : n.receiver? r = none) :
    w'.listeners = (w.listeners.filter fun l => l.receiver != r).filterMap (x.listener? n) := by
  rw [h.listeners, filterMap_filter_of]
  intro l _ hl
  have heq : l.receiver = r := by simpa using hl
  simp [listener?, heq, hr]

theorem dropListener_own (h : x.Shows n w w') {l l' : Listener}
    (hr : n.receiver? l.receiver = some l'.receiver) :
    x.Shows n (w.dropListener l) (w'.dropListener l') := by
  refine Shows.withBus (h.withListeners (fun l hl => ?_) (h.withoutListener_own hr))
    (h.bus.drop_own hr) rfl
  exact ⟨l, List.mem_of_mem_filter hl, rfl, rfl⟩

theorem dropListener_foreign (h : x.Shows n w w') {l : Listener}
    (hr : n.receiver? l.receiver = none) : x.Shows n (w.dropListener l) w' := by
  refine Shows.withBus (h.withListeners (fun l hl => ?_) (h.withoutListener_foreign hr))
    (h.bus.drop_foreign hr) rfl
  exact ⟨l, List.mem_of_mem_filter hl, rfl, rfl⟩

/-- A listener of the excerpt settles its action and goes away, in both worlds. -/
theorem finish_own (h : x.Shows n w w') {l l' : Listener}
    (hl : x.listener? n l = some l') (s : Settlement) :
    x.Shows n (((w.settle l.action s).1.dropListener l).release l.action)
        (((w'.settle l'.action s).1.dropListener l').release l'.action) ∧
      (w'.settle l'.action s).2 = (w.settle l.action s).2 := by
  obtain ⟨hr, ha, -⟩ := receiver?_of_listener? hl
  obtain ⟨hset, hanswer⟩ := h.settle_own ha s
  exact ⟨(hset.dropListener_own hr).release_own ha, hanswer⟩

/-- A listener of the excerpt runs in both worlds. -/
theorem runListener_own (h : x.Shows n w w') (hr : n.receiver? r = some r') :
    x.Shows n (w.runListener r).1 (w'.runListener r').1 ∧
      ((w.runListener r).2 = none ∧ (w'.runListener r').2 = none ∨ ∃ a a', x.action? a = some a' ∧
        (w.runListener r).2 = some a ∧ (w'.runListener r').2 = some a') := by
  have hfind : (w'.listeners.find? fun l => l.receiver == r') =
      (w.listeners.find? fun l => l.receiver == r).bind (x.listener? n) := by
    rw [h.listeners]
    refine find?_filterMap_of (fun l _ l' hl => h.listener_receiver hr hl) fun l hl heq => ?_
    obtain ⟨a', -, hsome⟩ := h.exists_listener hl (beq_iff_eq.1 heq ▸ hr)
    rw [hsome]
    rfl
  have answer {a a' : ActionId} (ha : x.action? a = some a') {settled settled' : Bool}
      (hsame : settled' = settled) : ((if settled = true then some a else none) = none ∧
        (if settled' = true then some a' else none) = none ∨ ∃ b b', x.action? b = some b' ∧
        (if settled = true then some a else none) = some b ∧
        (if settled' = true then some a' else none) = some b') := by
    subst hsame
    cases settled' with
    | false => exact .inl ⟨rfl, rfl⟩
    | true => exact .inr ⟨a, a', ha, rfl, rfl⟩
  unfold World.runListener
  rw [hfind]
  cases hl : w.listeners.find? fun l => l.receiver == r with
  | none => exact ⟨h, .inl ⟨rfl, rfl⟩⟩
  | some l =>
    have hmem := List.mem_of_find?_eq_some hl
    obtain rfl : l.receiver = r := by simpa using List.find?_some hl
    obtain ⟨a', ha, hsome⟩ := h.exists_listener hmem hr
    rw [Option.bind_some, hsome]
    dsimp only
    split
    · have hleft : x.Shows n (w.dropListener l)
          (w'.dropListener { l with receiver := r', action := a' }) := h.dropListener_own hr
      have hdropped := hleft.release_own ha
      refine ⟨hdropped, answer ha ?_⟩
      rw [World.isSettled, World.isSettled, World.isSettled, World.isSettled,
        hdropped.settlement?_own ha, h.settlement?_own ha]
    · obtain ⟨hbus, hreceived⟩ := h.bus.read_own hr
      have hread := h.withBus hbus (Bus.receiveKept_read w.bus l.receiver).next
      rw [hreceived]
      split
      · obtain ⟨hfinished, hsettled⟩ := hread.finish_own hsome (World.settlementOf _)
        exact ⟨hfinished, answer ha hsettled⟩
      · obtain ⟨hfinished, hsettled⟩ := hread.finish_own hsome _
        exact ⟨hfinished, answer ha hsettled⟩
      · refine ⟨hread.withListeners ?_ ?_, .inl ⟨rfl, rfl⟩⟩
        · exact List.forall_mem_append.2 ⟨fun l hl => ⟨l, List.mem_of_mem_filter hl, rfl, rfl⟩,
            List.forall_mem_singleton.2 ⟨l, hmem, rfl, rfl⟩⟩
        · rw [List.filterMap_append, h.withoutListener_own hr, List.filterMap_cons_some hsome,
            List.filterMap_nil]

/-- Another listener runs. -/
theorem runListener_foreign (h : x.Shows n w w') (hr : n.receiver? r = none) :
    x.Shows n (w.runListener r).1 w' ∧ ∀ a, (w.runListener r).2 = some a → x.action? a = none := by
  unfold World.runListener
  cases hl : w.listeners.find? fun l => l.receiver == r with
  | none => exact ⟨h, fun _ ha => by cases ha⟩
  | some l =>
    have hmem := List.mem_of_find?_eq_some hl
    obtain rfl : l.receiver = r := by simpa using List.find?_some hl
    have ha := h.action?_listener hmem hr
    have finish {u : World} (hu : x.Shows n u w') (s : Settlement) :
        x.Shows n (((u.settle l.action s).1.dropListener l).release l.action) w' :=
      ((hu.settle_foreign ha s).dropListener_foreign hr).release_foreign ha
    have answer {c : Prop} [Decidable c] (b : ActionId)
        (hb : (if c then some l.action else none) = some b) : x.action? b = none := by
      split at hb
      · cases hb
        exact ha
      · cases hb
    dsimp only
    split
    · exact ⟨(h.dropListener_foreign hr).release_foreign ha, answer⟩
    · have hread := h.withBus (h.bus.read_foreign hr) (Bus.receiveKept_read w.bus l.receiver).next
      split
      · exact ⟨finish hread _, answer⟩
      · exact ⟨finish hread _, answer⟩
      · refine ⟨hread.withListeners ?_ ?_, fun _ ha => by cases ha⟩
        · exact List.forall_mem_append.2 ⟨fun l hl => ⟨l, List.mem_of_mem_filter hl, rfl, rfl⟩,
            List.forall_mem_singleton.2 ⟨l, hmem, rfl, rfl⟩⟩
        · have hnone : x.listener? n l = none := by simp [listener?, hr]
          rw [List.filterMap_append, ← h.withoutListener_foreign hr, List.filterMap_cons_none hnone,
            List.filterMap_nil, List.append_nil]

/-! ## Being told to end -/

theorem told {ls : List Listener} {l : Listener} (hl : l ∈ ls.map fun l =>
    if l.action == a then { l with ended := true } else l) :
    ∃ l₀ ∈ ls, l₀.receiver = l.receiver ∧ l₀.action = l.action := by
  obtain ⟨l₀, hl₀, rfl⟩ := List.mem_map.1 hl
  refine ⟨l₀, hl₀, ?_⟩
  split <;> exact ⟨rfl, rfl⟩

/-- An action of the excerpt is told to end, in both worlds. -/
theorem endAction_own (h : x.Shows n w w') (hfree : x.Free n w) (ha : x.action? a = some a') :
    x.Shows n (w.endAction a) (w'.endAction a') := by
  have own {l l' : Listener} (hl : x.listener? n l = some l') :
      (l'.action == a') = (l.action == a) ∧ l'.ended = l.ended := by
    obtain ⟨-, hla, -, hended⟩ := receiver?_of_listener? hl
    refine ⟨?_, hended⟩
    rw [Bool.eq_iff_iff, beq_iff_eq, beq_iff_eq]
    constructor
    · intro heq
      exact h.injective (heq ▸ hla) ha
    · intro heq
      exact Option.some.inj (hla.symm.trans (heq ▸ ha))
  have htasks : ((w.listeners.filter fun l => l.action == a && !l.ended).map
      fun l => Task.listener l.receiver).filterMap (x.task? n) =
        (w'.listeners.filter fun l => l.action == a' && !l.ended).map
          fun l => Task.listener l.receiver := by
    rw [h.listeners]
    refine filterMap_tasks (fun l hl => task?_listener (h.listenerOwners l hl)) fun l _ l' hl => ?_
    rw [(own hl).1, (own hl).2]
  unfold World.endAction
  dsimp only
  rw [← htasks]
  refine Shows.scheduleAll (h.withListeners (fun l hl => told hl) ?_) _ ?_ fun _ => hfree
  · rw [h.listeners, List.map_filterMap, List.filterMap_map]
    refine List.filterMap_congr fun l _ => ?_
    cases hl : x.listener? n l with
    | none =>
      have hnone (ended : Bool) : x.listener? n { l with ended := ended } = none := by
        cases ended <;> simp_all [listener?]
      simp only [Option.map_none, Function.comp]
      split
      · exact (hnone true).symm
      · exact hl.symm
    | some l' =>
      obtain ⟨hr, hla, hname, -⟩ := receiver?_of_listener? hl
      simp only [Option.map_some, Function.comp, (own hl).1]
      split
      · simp [listener?, hr, hla, hname]
      · exact hl.symm
  · intro t ht
    obtain ⟨l, hl, rfl⟩ := List.mem_map.1 ht
    exact h.receivers l (List.mem_of_mem_filter hl)

/-- Another action is told to end. -/
theorem endAction_foreign (h : x.Shows n w w') (ha : x.action? a = none) :
    x.Shows n (w.endAction a) w' := by
  have hnone {l : Listener} (hl : l ∈ w.listeners) (heq : l.action = a) :
      n.receiver? l.receiver = none := by
    have howner := h.listenerOwners l hl
    rw [heq, ha] at howner
    exact Option.not_isSome_iff_eq_none.1 (by rw [howner]; decide)
  have htasks : ∀ t ∈ (w.listeners.filter fun l => l.action == a && !l.ended).map
      fun l => Task.listener l.receiver, x.task? n t = none := by
    intro t ht
    obtain ⟨l, hl, rfl⟩ := List.mem_map.1 ht
    obtain ⟨hmem, hp⟩ := List.mem_filter.1 hl
    rw [Bool.and_eq_true, beq_iff_eq] at hp
    simp [task?, hnone hmem hp.1]
  have hlisteners : w'.listeners = (w.listeners.map fun l =>
      if l.action == a then { l with ended := true } else l).filterMap (x.listener? n) := by
    rw [h.listeners, List.filterMap_map]
    refine List.filterMap_congr fun l hl => ?_
    simp only [Function.comp]
    split
    next heq => simp [listener?, hnone hl (beq_iff_eq.1 heq)]
    next => rfl
  have hscheduled := Shows.scheduleAll (h.withListeners (fun l hl => told hl) hlisteners)
    ((w.listeners.filter fun l => l.action == a && !l.ended).map
      fun l => Task.listener l.receiver)
    (by
      intro t ht
      obtain ⟨l, hl, rfl⟩ := List.mem_map.1 ht
      exact h.receivers l (List.mem_of_mem_filter hl))
    (by
      rintro ⟨t, ht, hsome⟩
      rw [htasks t ht] at hsome
      cases hsome)
  rw [List.filterMap_eq_nil_iff.2 htasks] at hscheduled
  exact hscheduled

/-! ## The clock -/

theorem task?_timer {t : Timer} (howner : (n.timer? t.id).isSome = (x.action? t.action).isSome) :
    x.task? n (.timer t.id) = (x.timer? n t).map fun t => .timer t.id := by
  rw [task?, timer?]
  cases hm : n.timer? t.id with
  | none => rfl
  | some m' =>
    obtain ⟨a', ha⟩ := Option.isSome_iff_exists.1 (howner.symm.trans (by rw [hm]; rfl))
    rw [ha]
    rfl

theorem enqueueAll (h : x.Shows n w w') (ts : List Task) (hb : ∀ t ∈ ts, t.Below w) :
    x.Shows n (ts.foldl World.enqueue w) ((ts.filterMap (x.task? n)).foldl World.enqueue w') := by
  induction ts generalizing w w' with
  | nil => exact h
  | cons t rest ih =>
    have hb' : ∀ u ∈ rest, u.Below (w.enqueue t) := by
      intro u hu
      obtain ⟨_, _, _, _, heq⟩ : World.Requeued w (w.enqueue t) := .push w .ready t
      rw [heq]
      have := hb u (List.mem_cons_of_mem _ hu)
      cases u <;> exact this
    cases ht : x.task? n t with
    | none =>
      rw [List.filterMap_cons_none ht]
      exact ih (h.push_foreign ht (hb t List.mem_cons_self) .ready) hb'
    | some t' =>
      rw [List.filterMap_cons_some ht]
      exact ih (h.push_own ht .ready) hb'

/-- The clock moves in both worlds. -/
theorem moveClock (h : x.Shows n w w') (now : Nat) :
    x.Shows n (w.moveClock now) (w'.moveClock now) := by
  have moved : x.Shows n { w with clock := now } { w' with clock := now } := { h with clock := rfl }
  have htasks : ((w.timers.filter fun t => t.deadline.any fun d => d ≤ now).map
      fun t => Task.timer t.id).filterMap (x.task? n) =
        (w'.timers.filter fun t => t.deadline.any fun d => d ≤ now).map fun t => Task.timer t.id := by
    rw [h.timers]
    refine filterMap_tasks (fun t ht => task?_timer (h.timerOwners t ht)) fun t _ t' ht => ?_
    obtain ⟨-, -, heq⟩ := timer?_eq_some ht
    have hdeadline : t'.deadline = t.deadline := (congrArg Timer.deadline heq).trans rfl
    exact congrArg (Option.any fun d => decide (d ≤ now)) hdeadline
  have hscheduled := moved.enqueueAll
    ((w.timers.filter fun t => t.deadline.any fun d => d ≤ now).map fun t => Task.timer t.id) ?_
  · rw [htasks] at hscheduled
    rw [World.moveClock_eq, World.moveClock_eq]
    exact hscheduled
  · intro t ht
    obtain ⟨u, hu, rfl⟩ := List.mem_map.1 ht
    exact h.timerIds u (List.mem_of_mem_filter hu)

/-! ## Taking tasks from their queues -/

theorem below_queue (h : x.Shows n w w') {queue : Queue} (ht : t ∈ w.queue queue) : t.Below w := by
  cases queue with
  | ready => exact h.below t (.inl ht)
  | arrivals => exact h.below t (.inr (.inl ht))

theorem queue (h : x.Shows n w w') (queue : Queue) :
    w'.queue queue = (w.queue queue).filterMap (x.task? n) := by
  cases queue with
  | ready => exact h.ready
  | arrivals => exact h.arrivals

theorem below_dequeue (h : x.Shows n w w') (queue : Queue) (i : Nat) (u : Task)
    (hu : u ∈ (w.dequeue queue i).ready ∨ u ∈ (w.dequeue queue i).arrivals ∨ w.running = some u) :
    u.Below w := by
  cases queue with
  | ready => exact h.below u (hu.imp_left List.mem_of_mem_eraseIdx)
  | arrivals => exact h.below u (hu.imp_right (Or.imp_left List.mem_of_mem_eraseIdx))

/-- A task of the excerpt stands in both queues. -/
theorem dequeue_own {queue : Queue} {i : Nat} (h : x.Shows n w w')
    (hi : (w.queue queue)[i]? = some t) (ht : x.task? n t = some t') :
    ∃ i' ≤ i, (w'.queue queue)[i']? = some t' ∧
      x.Shows n (w.dequeue queue i) (w'.dequeue queue i') := by
  obtain ⟨i', hle, hi', heq⟩ := filterMap_eraseIdx_some hi ht
  rw [← h.queue] at hi' heq
  refine ⟨i', hle, hi', ?_⟩
  cases queue with
  | ready => exact { h with ready := heq.symm, below := h.below_dequeue .ready i }
  | arrivals => exact { h with arrivals := heq.symm, below := h.below_dequeue .arrivals i }

theorem dequeue_foreign {queue : Queue} {i : Nat} (h : x.Shows n w w')
    (hi : (w.queue queue)[i]? = some t) (ht : x.task? n t = none) :
    x.Shows n (w.dequeue queue i) w' := by
  have heq := (h.queue queue).trans (filterMap_eraseIdx_none hi ht).symm
  cases queue with
  | ready => exact { h with ready := heq, below := h.below_dequeue .ready i }
  | arrivals => exact { h with arrivals := heq, below := h.below_dequeue .arrivals i }

/-- A task of the excerpt is run in both worlds. -/
theorem begin_own (h : x.Shows n w w') (ht : x.task? n t = some t') :
    x.Shows n { w with running := some t, rewoken := false }
      { w' with running := some t', rewoken := false } := by
  have hb := below_of_task? h ht
  refine { h with running := ht.symm, rewoken := rfl, below := fun u hu => ?_ }
  rcases hu with hu | hu | hu
  · exact h.below u (.inl hu)
  · exact h.below u (.inr (.inl hu))
  · cases hu
    exact hb

/-- Another task is run, while the world of the excerpt rests. -/
theorem begin_foreign (h : x.Shows n w w') (hidle : w.running = none) (ht : x.task? n t = none)
    (hb : t.Below w) : x.Shows n { w with running := some t, rewoken := false } w' where
  __ := h
  running := by
    rw [h.running, hidle]
    exact ht.symm
  rewoken := by rw [h.rewoken, h.running, hidle]; exact Bool.and_false _
  below u hu := by
    rcases hu with hu | hu | hu
    · exact h.below u (.inl hu)
    · exact h.below u (.inr (.inl hu))
    · cases hu
      exact hb

end Shows

end Excerpt

end Rundown
