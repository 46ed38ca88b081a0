import Rundown.Proofs.World.Frame

/-!
# What settles a completion

Timers, listeners and callers settle completions.  `World.Settles r w w'` says that a change settled
at most the completion of the action `r` and began nothing; the tasks of the world and everything
that callers do to it have this form.
-/

namespace Rundown.World

/-- `w'` follows `w`; nothing was begun, and at most the action `answer` settled. -/
structure Settles (answer : Option ActionId) (w w' : World) : Prop where
  keeps : Keeps (fun a => answer = some a) w w'
  log : w'.begun = w.begun
  started : ∀ a, w'.started? a = w.started? a
  settled : ∀ a, answer = some a → w.started? a = some true → w'.settlement? a ≠ none

namespace Settles

variable {answer : Option ActionId} {w w' w'' : World}

theorem refl (w : World) : Settles none w w :=
  ⟨.refl w, rfl, fun _ => rfl, fun _ h => by cases h⟩

/-- A change that leaves instances and log alone settles nothing. -/
theorem of_frame (hk : Keeps (fun _ => False) w w') (hb : w'.begun = w.begun)
    (hi : w'.instances = w.instances) : Settles none w w' :=
  ⟨hk.mono fun _ h => h.elim, hb, fun _ => by simp only [started?, hi], fun _ h => by cases h⟩

/-- A change of clock, timers, listeners or bus settles nothing. -/
theorem of_unqueued (hi : w'.instances = w.instances) (hb : w'.begun = w.begun)
    (hr : w'.running = w.running) (hq : w'.ready = w.ready) (ha : w'.arrivals = w.arrivals)
    (hw : w'.rewoken = w.rewoken) : Settles none w w' :=
  of_frame (.of_unqueued hi hb hr hq ha hw) hb hi

theorem then_frame (h : Settles answer w w') (h' : Settles none w' w'') : Settles answer w w'' where
  keeps := h.keeps.trans h'.keeps fun _ hn => by cases hn
  log := h'.log.trans h.log
  started a := (h'.started a).trans (h.started a)
  settled a ha hs := by
    obtain ⟨s, hs'⟩ := Option.ne_none_iff_exists'.1 (h.settled a ha hs)
    rw [h'.keeps.settled a s hs']
    exact Option.some_ne_none s

theorem after_frame (h : Settles none w w') (h' : Settles answer w' w'') :
    Settles answer w w'' where
  keeps := (h.keeps.mono fun _ hn => by cases hn).trans h'.keeps fun _ hn => hn
  log := h'.log.trans h.log
  started a := (h'.started a).trans (h.started a)
  settled a ha hs := h'.settled a ha ((h.started a).trans hs)

end Settles

theorem scheduleAll_settles (w : World) (ts : List Task) : Settles none w (w.scheduleAll ts) :=
  .of_frame (scheduleAll_keeps _ ts w) (scheduleAll_begun ts w) (scheduleAll_instances ts w)

theorem emit_settles (w : World) (s : Signal) : Settles none w (w.emit s).1 :=
  .of_frame (emit_keeps w s _) (emit_begun w s) (emit_instances w s)

/-- A completion of a begun action has settled once somebody settles it. -/
theorem settlement?_settle {w : World} {a : ActionId} (s : Settlement)
    (h : w.started? a = some true) : (w.settle a s).1.settlement? a ≠ none := by
  obtain ⟨i, hi, -⟩ := Option.map_eq_some_iff.1 h
  unfold settle
  split
  next hs => simpa [isSettled, Option.isSome_iff_ne_none] using hs
  · simp [settlement?_modifyInstance_self, hi]

theorem settle_settles (w : World) (a : ActionId) (s : Settlement) :
    Settles (if (w.settle a s).2 then some a else none) w (w.settle a s).1 := by
  by_cases hs : w.isSettled a = true
  · simp only [settle, if_pos hs]
    exact .refl w
  · have h2 : (w.settle a s).2 = true := by simp only [settle, if_neg hs]
    rw [h2, if_pos rfl]
    refine ⟨(settle_keeps w a s).mono ?_, settle_begun w a s, fun b => started?_settle w a b s, ?_⟩
    · rintro b rfl
      rfl
    · rintro b hb hst
      cases hb
      exact settlement?_settle s hst

/-! ## Giving up a completion -/

theorem started?_release (w : World) (a b : ActionId) : (w.release a).started? b = w.started? b :=
  started?_modifyInstance w a b _ fun _ => rfl

theorem release_keeps (w : World) (a : ActionId) : Keeps (· = a) w (w.release a) := by
  refine modifyInstance_keeps w a _ (fun _ => rfl) ?_
  intro i s hi
  simp [hi]

/-- A completion that has settled has nothing to lose. -/
theorem release_settled {w : World} {a : ActionId}
    (h : w.isSettled a = true ∨ w.instances[a]? = none) : Settles none w (w.release a) := by
  refine ⟨{ release_keeps w a with same := fun b _ => ⟨started?_release w a b, ?_⟩ }, rfl,
    started?_release w a, fun _ hn => by cases hn⟩
  by_cases hb : b = a
  · subst hb
    rcases h with h | h
    · obtain ⟨s, hs⟩ := Option.isSome_iff_exists.1 h
      rw [hs]
      exact (release_keeps w b).settled b s hs
    · exact (settlement?_modifyInstance_self w b _).trans (by simp [settlement?, h])
  · exact settlement?_modifyInstance_ne w _ hb

/-- After an attempt to settle it, a completion has settled or does not exist. -/
theorem isSettled_settle (w : World) (a : ActionId) (s : Settlement) :
    (w.settle a s).1.isSettled a = true ∨ (w.settle a s).1.instances[a]? = none := by
  by_cases hs : w.isSettled a = true
  · have he : w.settle a s = (w, false) := if_pos hs
    rw [he]
    exact .inl hs
  · have he : w.settle a s = (w.modifyInstance a fun i => { i with settlement := some s }, true) :=
      if_neg hs
    rw [he]
    cases hi : w.instances[a]? with
    | none => exact .inr (by simp [modifyInstance, hi])
    | some i => exact .inl (by simp [isSettled, settlement?_modifyInstance_self, hi])

/-- Giving up a completion settles it or changes nothing that anybody can see. -/
theorem release_settles (w : World) (a : ActionId) :
    Settles (if !w.isSettled a && (w.release a).isSettled a then some a else none) w
      (w.release a) := by
  by_cases hs : w.isSettled a = true
  · simp only [hs, Bool.not_true, Bool.false_and, Bool.false_eq_true, if_false]
    exact release_settled (.inl hs)
  · have hnone := isSettled_eq_false hs
    rw [Bool.not_eq_true] at hs
    by_cases hr : (w.release a).isSettled a = true
    · simp only [hs, hr, Bool.not_false, Bool.and_self, if_true]
      refine ⟨(release_keeps w a).mono ?_, rfl, started?_release w a, ?_⟩
      · rintro b rfl
        rfl
      · rintro b hb -
        cases hb
        exact Option.isSome_iff_ne_none.1 hr
    · simp only [hr, Bool.and_false, Bool.false_eq_true, if_false]
      refine ⟨{ release_keeps w a with same := fun b _ => ⟨started?_release w a b, ?_⟩ }, rfl,
        started?_release w a, fun _ hn => by cases hn⟩
      by_cases hb : b = a
      · subst hb
        rw [hnone, isSettled_eq_false hr]
      · exact settlement?_modifyInstance_ne w _ hb

/-! ## Timers and listeners -/

theorem runTimer_settles (w : World) (id : TimerId) :
    Settles (w.runTimer id).2 w (w.runTimer id).1 := by
  unfold runTimer
  split
  · exact .refl w
  next t _ =>
    dsimp only
    split
    · let stopped : World := { w with timers := w.timers.filter fun t => t.id != id }
      have hstop : Settles none w stopped := .of_unqueued rfl rfl rfl rfl rfl rfl
      have hset := settle_settles stopped t.action (.ok t.value)
      exact (hstop.after_frame hset).then_frame (release_settled (isSettled_settle stopped _ _))
    · split
      · exact .refl w
      · exact .of_unqueued rfl rfl rfl rfl rfl rfl

theorem dropListener_settles (w : World) (l : Listener) : Settles none w (w.dropListener l) :=
  .of_unqueued rfl rfl rfl rfl rfl rfl

/-- Settling the action of a listener that goes away. -/
theorem finishListener_settles (w : World) (l : Listener) (s : Settlement) :
    Settles (if (w.settle l.action s).2 then some l.action else none) w
      (((w.settle l.action s).1.dropListener l).release l.action) :=
  ((settle_settles w l.action s).then_frame (dropListener_settles _ l)).then_frame
    (release_settled (isSettled_settle w l.action s))

theorem runListener_settles (w : World) (r : ReceiverId) :
    Settles (w.runListener r).2 w (w.runListener r).1 := by
  unfold runListener
  split
  · exact .refl w
  next l _ =>
    dsimp only
    split
    · exact (dropListener_settles w l).after_frame (release_settles (w.dropListener l) l.action)
    · have hread : Settles none w { w with bus := (w.bus.receiveKept r).1 } :=
        .of_unqueued rfl rfl rfl rfl rfl rfl
      split
      · exact hread.after_frame (finishListener_settles _ l _)
      · exact hread.after_frame (finishListener_settles _ l _)
      · exact .of_unqueued rfl rfl rfl rfl rfl rfl

/-! ## Callers and the clock -/

theorem enqueue_frame (w : World) (t : Task) :
    (w.enqueue t).instances = w.instances ∧ (w.enqueue t).begun = w.begun ∧
      (w.enqueue t).running = w.running := by
  unfold enqueue
  split <;> exact ⟨rfl, rfl, rfl⟩

theorem enqueueAll_settles (ts : List Task) (w : World) :
    Settles none w (ts.foldl enqueue w) := by
  induction ts generalizing w with
  | nil => exact .refl w
  | cons t ts ih =>
    obtain ⟨hi, hb, -⟩ := enqueue_frame w t
    exact (Settles.of_frame (push_keeps w t _ .ready) hb hi).then_frame (ih (w.enqueue t))

theorem moveClock_settles (w : World) (now : Nat) : Settles none w (w.moveClock now) :=
  have hmoved : Settles none w { w with clock := now } := .of_unqueued rfl rfl rfl rfl rfl rfl
  hmoved.then_frame (enqueueAll_settles _ _)

theorem endAction_settles (w : World) (a : ActionId) : Settles none w (w.endAction a) :=
  have htold : Settles none w { w with
      listeners := w.listeners.map fun l =>
        if l.action == a then { l with ended := true } else l } :=
    .of_unqueued rfl rfl rfl rfl rfl rfl
  htold.then_frame (scheduleAll_settles _ _)

theorem releaseBus_settles (w : World) : Settles none w w.releaseBus := by
  unfold releaseBus
  split
  · have hclosed : Settles none w { w with busHolders := 0, bus := w.bus.close } :=
      .of_unqueued rfl rfl rfl rfl rfl rfl
    exact hclosed.then_frame (scheduleAll_settles _ _)
  · exact .of_unqueued rfl rfl rfl rfl rfl rfl

end Rundown.World
