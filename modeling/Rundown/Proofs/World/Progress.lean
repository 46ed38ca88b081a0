import Rundown.Proofs.World.Tasks

/-!
# Progress in the world

Two things only become fewer: the actions that have not begun and those that have not settled.
`World.Spends` is how work on a playlist may go on for ever only if it stops changing anything: with
every piece of it an action begins, or the work that is left becomes less, or nothing happens.
-/

namespace Rundown.World

/-- The number of actions that have not begun. -/
def unstarted (w : World) : Nat := w.instances.countP fun i => !i.started

/-- The number of actions that have not settled. -/
def unsettled (w : World) : Nat := w.instances.countP fun i => i.settlement.isNone

/-- An action began, or only tasks were made ready and less work is left: `m` and `m'` count it, what
comes first being more important. -/
def Spent (w : World) (m : Nat × Nat) (w' : World) (m' : Nat × Nat) : Prop :=
  w'.unstarted < w.unstarted ∨
    (Requeued w w' ∧ (m'.1 < m.1 ∨ (m'.1 = m.1 ∧ m'.2 < m.2)))

/-- Either something was spent, or nothing happened and nobody was woken. -/
def Spends (w : World) (m : Nat × Nat) (w' : World) (m' : Nat × Nat) (woke : Bool) : Prop :=
  Spent w m w' m' ∨ (w' = w ∧ m' = m ∧ woke = false)

variable {w w' w'' : World} {m m' m'' : Nat × Nat} {woke woke' : Bool} {a : ActionId} {v : Json}

theorem Requeued.unstarted (h : Requeued w w') : w'.unstarted = w.unstarted := by
  obtain ⟨_, _, _, _, rfl⟩ := h
  rfl

/-! ## Work -/

theorem Spent.spends (h : Spent w m w' m') : Spends w m w' m' woke := .inl h

theorem Spends.refl (w : World) (m : Nat × Nat) : Spends w m w m false := .inr ⟨rfl, rfl, rfl⟩

theorem Spent.trans (h : Spent w m w' m') (h' : Spent w' m' w'' m'') : Spent w m w'' m'' := by
  rcases h with h | ⟨hq, h⟩ <;> rcases h' with h' | ⟨hq', h'⟩
  · exact .inl (Nat.lt_trans h' h)
  · exact .inl (hq'.unstarted ▸ h)
  · exact .inl (hq.unstarted ▸ h')
  · exact .inr ⟨hq.trans hq', by omega⟩

theorem Spent.requeue (h : Spent w m w' m') (hq : Requeued w' w'') : Spent w m w'' m' := by
  rcases h with h | ⟨hq', h⟩
  · exact .inl (hq.unstarted ▸ h)
  · exact .inr ⟨hq'.trans hq, h⟩

theorem Spends.trans_spent (h : Spends w m w' m' woke) (h' : Spent w' m' w'' m'') :
    Spent w m w'' m'' := by
  rcases h with h | ⟨rfl, rfl, -⟩
  · exact h.trans h'
  · exact h'

theorem Spends.trans (h : Spends w m w' m' woke) (h' : Spends w' m' w'' m'' woke') :
    Spends w m w'' m'' (woke || woke') := by
  rcases h' with h' | ⟨rfl, rfl, rfl⟩
  · exact (h.trans_spent h').spends
  · rcases h with h | ⟨rfl, rfl, rfl⟩
    · exact h.spends
    · exact .refl _ _

/-- Somebody may not notice that he was woken. -/
theorem Spends.hush (h : Spends w m w' m' woke) (hw : woke' = true → woke = true) :
    Spends w m w' m' woke' := by
  rcases h with h | ⟨rfl, rfl, rfl⟩
  · exact h.spends
  · exact .inr ⟨rfl, rfl, Bool.eq_false_iff.2 fun hn => Bool.false_ne_true (hw hn)⟩

/-- Work beside. -/
theorem Spends.add (h : Spends w m w' m' woke) (n : Nat × Nat) :
    Spends w (m.1 + n.1, m.2 + n.2) w' (m'.1 + n.1, m'.2 + n.2) woke := by
  rcases h with (h | ⟨hq, h⟩) | ⟨rfl, rfl, rfl⟩
  · exact .inl (.inl h)
  · exact .inl (.inr ⟨hq, by dsimp only; omega⟩)
  · exact .refl _ _

/-- Work inside a group, which notes that it was woken: an entry counts half as much as one
inside. -/
theorem Spends.inside (h : Spends w m w' m' woke) {n n' : Nat}
    (hn : n' = n ∨ (woke = true ∧ n' ≤ n + 1)) :
    Spends w (m.1, n + 2 * m.2) w' (m'.1, n' + 2 * m'.2) woke := by
  rcases h with (h | ⟨hq, h⟩) | ⟨rfl, rfl, rfl⟩
  · exact .inl (.inl h)
  · exact .inl (.inr ⟨hq, by dsimp only; omega⟩)
  · obtain rfl := hn.resolve_right fun hn => Bool.false_ne_true hn.1
    exact .refl _ _

/-- If nothing began, no more stages are ahead than before. -/
theorem Spends.begins_or (h : Spends w m w' m' woke) :
    w'.unstarted < w.unstarted ∨ (Requeued w w' ∧ m'.1 ≤ m.1) := by
  rcases h with (h | ⟨hq, h⟩) | ⟨rfl, rfl, -⟩
  · exact .inl h
  · exact .inr ⟨hq, by omega⟩
  · exact .inr ⟨.refl _, Nat.le_refl _⟩

/-! ## Begins -/

theorem countP_modify {α : Type} (p : α → Bool) {f : α → α} (hf : ∀ x, p (f x) = p x)
    (l : List α) (n : Nat) : (l.modify n f).countP p = l.countP p := by
  induction l generalizing n with
  | nil => simp
  | cons x rest ih => cases n <;> simp [List.countP_cons, hf, ih]

theorem countP_modify_lt {α : Type} (p : α → Bool) {f : α → α} {l : List α} {n : Nat} {x : α}
    (hx : l[n]? = some x) (hp : p x = true) (hf : p (f x) = false) :
    (l.modify n f).countP p < l.countP p := by
  induction l generalizing n with
  | nil => cases hx
  | cons y rest ih =>
    cases n with
    | zero =>
      cases hx
      simp [hp, hf]
    | succ n => simpa [List.countP_cons] using ih hx

theorem countP_modify_le {α : Type} (p : α → Bool) {f : α → α}
    (hf : ∀ x, p (f x) = true → p x = true) (l : List α) (n : Nat) :
    (l.modify n f).countP p ≤ l.countP p := by
  induction l generalizing n with
  | nil => simp
  | cons x rest ih =>
    cases n with
    | zero =>
      simp only [List.modify_zero_cons, List.countP_cons]
      have := hf x
      cases hx : p x <;> cases hfx : p (f x) <;> simp_all
    | succ n => simpa [List.countP_cons] using ih n

theorem unstarted_modifyInstance (w : World) (a : ActionId) {f : Instance → Instance}
    (hf : ∀ i, (f i).started = i.started) : (w.modifyInstance a f).unstarted = w.unstarted :=
  countP_modify _ (fun i => by rw [hf]) w.instances a

/-- The effects of beginning an action begin nothing more. -/
theorem Effected.unstarted (h : Effected a w w') : w'.unstarted = w.unstarted := by
  obtain ⟨f, hf, hi⟩ := h.instances
  rw [World.unstarted, hi]
  exact unstarted_modifyInstance w a fun i => (hf i).2

/-- Beginning an action takes one away from those that have not begun. -/
theorem unstarted_beginAction (v : Json) (h : w.started? a = some false) :
    (w.beginAction a v).1.unstarted < w.unstarted := by
  rw [beginAction_eq_effects v h]
  obtain ⟨i, hi, hs⟩ := Option.map_eq_some_iff.1 h
  rw [(performAll_effected a _ _).unstarted]
  exact countP_modify_lt _ hi (by rw [hs]; rfl) rfl

theorem beginAction_spends (a : ActionId) (v : Json) (w : World) (m : Nat × Nat) :
    Spends w m (w.beginAction a v).1 m false := by
  by_cases ha : w.started? a = some false
  · exact .inl (.inl (unstarted_beginAction v ha))
  · rw [beginAction_refused v ha]
    exact .refl w m

/-! ## Timers and listeners -/

/-- What is left to be done by others than the playlists. -/
def unfinished (w : World) : Nat :=
  w.unsettled + w.timers.countP (fun t => t.deadline.isNone) + w.timers.length + w.listeners.length

/-- The tasks that wait are the same, and the running one has been woken or not as before. -/
def SameTasks (w w' : World) : Prop :=
  w'.ready = w.ready ∧ w'.arrivals = w.arrivals ∧ w'.rewoken = w.rewoken

theorem Requeued.unfinished (h : Requeued w w') : w'.unfinished = w.unfinished := by
  obtain ⟨_, _, _, _, rfl⟩ := h
  rfl

theorem unsettled_settle_le (w : World) (a : ActionId) (s : Settlement) :
    (w.settle a s).1.unsettled ≤ w.unsettled := by
  unfold settle
  split
  · exact Nat.le_refl _
  · exact countP_modify_le _ (fun _ h => by cases h) _ _

theorem release_le (w : World) (a : ActionId) : (w.release a).unsettled ≤ w.unsettled ∧
    (w.release a).unstarted = w.unstarted ∧ (w.release a).timers = w.timers ∧
      (w.release a).listeners = w.listeners := by
  refine ⟨countP_modify_le _ (fun i h => ?_) _ _, unstarted_modifyInstance w a fun _ => rfl,
    rfl, rfl⟩
  cases hs : i.settlement with
  | none => rfl
  | some o => simp [hs] at h

theorem settle_rest (w : World) (a : ActionId) (s : Settlement) :
    (w.settle a s).1.timers = w.timers ∧ (w.settle a s).1.listeners = w.listeners := by
  unfold settle
  split <;> exact ⟨rfl, rfl⟩

/-- The task of a timer or a listener has less left to do afterwards, or it has done nothing that
anybody is waiting for. -/
def Wanes (w : World) (result : World × Option ActionId) : Prop :=
  result.1.unstarted = w.unstarted ∧ (result.1.unfinished < w.unfinished ∨
    (result.1.unfinished ≤ w.unfinished ∧ SameTasks w result.1 ∧ result.2 = none))

theorem countP_filter_lt {α : Type} (p q : α → Bool) {l : List α} {x : α} (hx : x ∈ l)
    (hp : p x = true) (hq : q x = false) : (l.filter q).countP p < l.countP p := by
  induction l with
  | nil => cases hx
  | cons y rest ih =>
    have hle : (rest.filter q).countP p ≤ rest.countP p := List.filter_sublist.countP_le
    rw [List.filter_cons, List.countP_cons]
    rcases List.mem_cons.1 hx with rfl | hx
    · rw [if_neg (by rw [hq]; exact Bool.false_ne_true), if_pos hp]
      omega
    · have := ih hx
      split
      · rw [List.countP_cons]
        omega
      · omega

theorem length_filter_lt {α : Type} (q : α → Bool) {l : List α} {x : α} (hx : x ∈ l)
    (hq : q x = false) : (l.filter q).length < l.length :=
  List.length_filter_lt_length_iff_exists.2 ⟨x, hx, by rw [hq]; exact Bool.false_ne_true⟩

/-- A completion settles, perhaps, and loses a holder, while timers or listeners become fewer. -/
theorem settled_wanes (w₀ : World) (a : ActionId) (s : Settlement) (answer : Option ActionId)
    (hi : w₀.instances = w.instances) (htimers : w₀.timers.Sublist w.timers)
    (hlisteners : w₀.listeners.Sublist w.listeners)
    (hfewer : w₀.timers.length < w.timers.length ∨ w₀.listeners.length < w.listeners.length) :
    w.Wanes (((w₀.settle a s).1.release a), answer) := by
  obtain ⟨hunsettled, hunstarted, ht, hl⟩ := release_le (w₀.settle a s).1 a
  obtain ⟨ht', hl'⟩ := settle_rest w₀ a s
  have hsettle := unsettled_settle_le w₀ a s
  have hsame : w₀.unsettled = w.unsettled := by rw [unsettled, unsettled, hi]
  have hundated : w₀.timers.countP (fun t => t.deadline.isNone) ≤
      w.timers.countP (fun t => t.deadline.isNone) := htimers.countP_le
  have hlength := htimers.length_le
  have hlength' := hlisteners.length_le
  refine ⟨?_, .inl ?_⟩
  · exact hunstarted.trans ((settle_effected w₀ a s).unstarted.trans (by rw [unstarted, unstarted, hi]))
  · simp only [unfinished, ht, hl, ht', hl']
    omega

theorem runTimer_wanes (w : World) (id : TimerId) : w.Wanes (w.runTimer id) := by
  unfold runTimer
  split
  · exact ⟨rfl, .inr ⟨Nat.le_refl _, ⟨rfl, rfl, rfl⟩, rfl⟩⟩
  next t ht =>
    have hmem := List.mem_of_find?_eq_some ht
    have hid : (t.id != id) = false := by simpa using List.find?_some ht
    have hlength := length_filter_lt (fun t => t.id != id) hmem hid
    dsimp only
    split
    · exact settled_wanes { w with timers := w.timers.filter fun t => t.id != id } t.action
        (.ok t.value) _ rfl List.filter_sublist (.refl _) (.inl hlength)
    · split
      · exact ⟨rfl, .inr ⟨Nat.le_refl _, ⟨rfl, rfl, rfl⟩, rfl⟩⟩
      next hnone =>
        have hundated :=
          countP_filter_lt (fun t : Timer => t.deadline.isNone) (fun t => t.id != id) hmem
          (by simpa using hnone) hid
        refine ⟨rfl, .inl ?_⟩
        simp only [unfinished, List.countP_append, List.length_append, List.length_singleton,
          List.countP_singleton, Option.isNone_some, Bool.false_eq_true, if_false]
        have hsame : unsettled { w with timers := (w.timers.filter fun t => t.id != id) ++
            [{ t with deadline := some (t.deadline.getD (w.clock + t.delay.timerMillis)) }] } =
              w.unsettled := rfl
        omega

theorem runListener_wanes (w : World) (r : ReceiverId) : w.Wanes (w.runListener r) := by
  unfold runListener
  split
  · exact ⟨rfl, .inr ⟨Nat.le_refl _, ⟨rfl, rfl, rfl⟩, rfl⟩⟩
  next l hl =>
    have hmem := List.mem_of_find?_eq_some hl
    have hid : (l.receiver != r) = false := by simpa using List.find?_some hl
    obtain rfl : l.receiver = r := by simpa using List.find?_some hl
    have hlength := length_filter_lt (fun other : Listener => other.receiver != l.receiver) hmem hid
    -- Leaving the bus and settling may come in either order.
    have finish (w₁ : World) (s : Settlement) (hi : w₁.instances = w.instances)
        (ht : w₁.timers = w.timers) (hls : w₁.listeners = w.listeners) (answer : Option ActionId) :
        w.Wanes (((w₁.settle l.action s).1.dropListener l).release l.action, answer) := by
      have heq : (w₁.settle l.action s).1.dropListener l =
          ((w₁.dropListener l).settle l.action s).1 := by
        unfold settle
        have : (w₁.dropListener l).isSettled l.action = w₁.isSettled l.action := rfl
        rw [this]
        split <;> rfl
      rw [heq]
      exact settled_wanes (w₁.dropListener l) l.action s answer hi (by rw [← ht]; exact .refl _)
        (by rw [← hls]; exact List.filter_sublist)
        (.inr (by simp only [dropListener, hls]; exact hlength))
    dsimp only
    split
    · obtain ⟨hunsettled, hunstarted, ht, hls⟩ := release_le (w.dropListener l) l.action
      refine ⟨hunstarted, .inl ?_⟩
      simp only [unfinished, ht, hls]
      have hsame : (w.dropListener l).unsettled = w.unsettled := rfl
      simp only [dropListener] at *
      omega
    · split
      · exact finish { w with bus := (w.bus.receiveKept l.receiver).1 } _ rfl rfl rfl _
      · exact finish { w with bus := (w.bus.receiveKept l.receiver).1 } _ rfl rfl rfl _
      · refine ⟨rfl, .inr ⟨?_, ⟨rfl, rfl, rfl⟩, rfl⟩⟩
        simp only [unfinished, List.length_append, List.length_singleton]
        have hsame : unsettled { w with
            bus := (w.bus.receiveKept l.receiver).1
            listeners := (w.listeners.filter fun other => other.receiver != l.receiver) ++ [l] } =
              w.unsettled := rfl
        omega

end Rundown.World
