import Rundown.Proofs.Playlist.Acts

/-!
# What lasts through looks

A look leaves alone what has begun (`World.Spares`).  A property of a launched step that is kept by
looks at the step itself is therefore kept by looks at the playlist around it, whichever of its
groups are looked at (`Step.Lasting.pollPlace`).
-/

namespace Rundown

/-- `w'` follows `w`, and whatever had begun has stayed as it was. -/
structure World.Spares (w w' : World) : Prop where
  started : ∀ a, w.started? a = some true → w'.started? a = some true
  settled : ∀ a, w.started? a = some true → w'.settlement? a = w.settlement? a

namespace World.Spares

variable {w w' w'' : World} {touched : ActionId → Prop}

theorem refl (w : World) : Spares w w := ⟨fun _ h => h, fun _ _ => rfl⟩

theorem trans (h : Spares w w') (h' : Spares w' w'') : Spares w w'' where
  started a ha := h'.started a (h.started a ha)
  settled a ha := (h'.settled a (h.started a ha)).trans (h.settled a ha)

theorem of_keeps (h : Keeps touched w w')
    (htouched : ∀ a, w.started? a = some true → ¬touched a) : Spares w w' where
  started := h.started
  settled a ha := (h.same a (htouched a ha)).2

/-- A change of anything but the instances. -/
theorem of_same (hi : w'.instances = w.instances) : Spares w w' where
  started a ha := by rwa [started?, hi]
  settled a _ := by rw [settlement?, settlement?, hi]

theorem schedule (w : World) (t : Task) : Spares w (w.schedule t) :=
  .of_same (schedule_instances w t)

theorem scheduleAll (w : World) (ts : List Task) : Spares w (w.scheduleAll ts) :=
  .of_keeps (scheduleAll_keeps (fun _ => False) ts w) fun _ _ h => h

theorem beginAction (w : World) (a : ActionId) (v : Json) : Spares w (w.beginAction a v).1 :=
  .of_keeps (w.beginAction_keeps a v) fun _ hb h => h.2 hb

end World.Spares

/-- What each act of a group keeps is kept by all that it does. -/
theorem Group.Works.induction {look : Look} {launch : Launch} {height : Nat}
    {r r' : List Step × World} (h : Group.Works look launch height r r')
    {Q : List Step × World → Prop} (hr : Q r)
    (hacts : ∀ r r', Group.Acts look launch height r r' → Q r → Q r') : Q r' := by
  induction h with
  | refl => exact hr
  | tail _ hact ih => exact hacts _ _ hact ih

namespace Step

variable {s t : Step} {steps : List Step} {w w' : World} {height i : Nat} {place : List Nat}

/-! ## Looks leave alone what has begun -/

theorem launch_spares (site : Site) (v : Json) (s : Step) (w : World) :
    w.Spares (s.launch site v w).2 := by
  cases s with
  | leaf slot a => exact .beginAction w a v
  | group slot g steps =>
    unfold launch
    dsimp only
    split
    · exact .schedule w _
    · exact .refl w

theorem lookBelow_spares {site : Site} {tasks : List Task}
    (h : w.Spares (pollWithin height (site.child tasks i) (some .parent) s w).world) :
    w.Spares (lookBelow height site tasks i s w).world := by
  unfold lookBelow
  split
  · exact .refl w
  · exact h

theorem pollWithin_spares (site : Site) (waiter : Option Waiter) (w : World) (h : s.Arrayed)
    (hheight : s.height ≤ height) : w.Spares (pollWithin height site waiter s w).world := by
  induction height generalizing s site waiter w with
  | zero => exact .refl w
  | succ height ih =>
    cases s with
    | leaf slot a => exact .refl w
    | group slot g steps =>
      obtain ⟨tasks, g', steps', hhandles⟩ :=
        pollWithin_acts site waiter w h (Nat.le_of_succ_le_succ hheight)
      refine hhandles.worked.works.induction (Q := fun r => w.Spares r.2) (.refl w) ?_
      intro r r' hacts hspares
      cases hacts with
      | launches v w => exact hspares.trans (launch_spares _ v _ w)
      | looks w _ hheight harrayed =>
        exact hspares.trans (lookBelow_spares (ih _ _ w harrayed hheight))
      | takes | forgets => exact hspares
      | wakes _ w t => exact hspares.trans (.schedule w t)

theorem pollPlace_spares (place : List Nat) (site : Site) (w : World) (h : s.Arrayed) :
    w.Spares (s.pollPlace place site w).world := by
  induction place generalizing s site with
  | nil => exact pollWithin_spares site _ w h (Nat.le_refl _)
  | cons i place ih =>
    cases s with
    | leaf => exact .refl w
    | group slot g steps =>
      unfold pollPlace
      split
      · exact .refl w
      next t hi => exact ih _ ((arrayed_group.1 h).2 t (List.mem_of_getElem? hi))

/-! ## Lasting properties -/

/-- What holds of a launched step lasts: how the group around sees the step does not matter, nor
does what happens elsewhere, and a look at the step, or at one below, keeps it. -/
structure Lasting (R : Step → World → Prop) : Prop where
  launched : ∀ {s w}, R s w → ¬s.Fresh
  withSlot : ∀ {s w} (slot : Slot), R s w → R (s.withSlot slot) w
  forgotten : ∀ {s w}, R s w → R s.forgotten w
  spared : ∀ {s w w'}, R s w → w.Spares w' → R s w'
  looked : ∀ {height : Nat} (site : Site) (waiter : Option Waiter) {s : Step} {w : World},
    s.height ≤ height → R s w →
      R (pollWithin height site waiter s w).step (pollWithin height site waiter s w).world
  lookedBelow : ∀ (site : Site) (i : Nat) (below : List Nat) {s : Step} {w : World}, R s w →
    R (s.pollPlace (i :: below) site w).step (s.pollPlace (i :: below) site w).world

/-- The property holds of the step that is reached by the given indices. -/
def HoldsAt (R : Step → World → Prop) (place : List Nat) (s : Step) (w : World) : Prop :=
  ∃ t, s.at? place = some t ∧ R t w

namespace Lasting

variable {R : Step → World → Prop} (hR : Lasting R)

include hR

theorem holdsAt_spared (h : HoldsAt R place s w) (hw : w.Spares w') : HoldsAt R place s w' :=
  h.imp fun _ ht => ⟨ht.1, hR.spared ht.2 hw⟩

theorem holdsAt_withSlot (h : HoldsAt R place s w) (slot : Slot) :
    HoldsAt R place (s.withSlot slot) w := by
  obtain ⟨t, hat, ht⟩ := h
  cases place with
  | nil =>
    cases hat
    exact ⟨_, rfl, hR.withSlot slot ht⟩
  | cons i place =>
    cases s with
    | leaf => cases hat
    | group => exact ⟨t, hat, ht⟩

theorem holdsAt_forgotten (h : HoldsAt R place s w) : HoldsAt R place s.forgotten w := by
  obtain ⟨t, hat, ht⟩ := h
  cases place with
  | nil =>
    cases hat
    exact ⟨_, rfl, hR.forgotten ht⟩
  | cons i place =>
    cases s with
    | leaf => cases hat
    | group => exact ⟨t, hat, ht⟩

/-- A step inside one of the steps of a group: that one may change if the property is kept, the
others as they like. -/
theorem holdsAt_set {j : Nat} {s' u : Step} (hi : steps[i]? = some s) (h : HoldsAt R place s w)
    (hj : steps[j]? = some u) (hw : w.Spares w')
    (hsame : j = i → HoldsAt R place u w → HoldsAt R place s' w') :
    ∃ t, (steps.set j s')[i]? = some t ∧ HoldsAt R place t w' := by
  by_cases hij : j = i
  · subst hij
    cases hi.symm.trans hj
    exact ⟨s', (getElem?_set_of hi).2 (.inl ⟨rfl, rfl⟩), hsame rfl h⟩
  · exact ⟨s, (getElem?_set_of hj).2 (.inr ⟨Ne.symm hij, hi⟩), hR.holdsAt_spared h hw⟩

/-- One act of a group keeps what lasts inside one of its steps. -/
theorem holdsAt_acts {site : Site} {tasks : List Task} {r r' : List Step × World}
    (hlook : ∀ (j : Nat) (u : Step) (w : World), u.Arrayed → u.height ≤ height →
      HoldsAt R place u w → HoldsAt R place
        (pollWithin height (site.child tasks j) (some .parent) u w).step
        (pollWithin height (site.child tasks j) (some .parent) u w).world)
    (hacts : Group.Acts (lookBelow height site tasks) (launchBelow site tasks) height r r')
    (h : ∃ s, r.1[i]? = some s ∧ HoldsAt R place s r.2) :
    ∃ s, r'.1[i]? = some s ∧ HoldsAt R place s r'.2 := by
  obtain ⟨s, hi, hs⟩ := h
  cases hacts with
  | launches v w hj hfresh =>
    refine hR.holdsAt_set hi hs hj (launch_spares _ v _ w) fun _ ⟨t, hat, ht⟩ => ?_
    exact absurd (hfresh.at? hat) (hR.launched ht)
  | looks w hj hheight harrayed hl ha =>
    refine hR.holdsAt_set hi hs hj
      (lookBelow_spares (pollWithin_spares _ _ w harrayed hheight)) fun _ hu => ?_
    unfold lookBelow
    split
    · exact hu
    · exact hlook _ _ w harrayed hheight hu
  | takes hj ha ho =>
    exact hR.holdsAt_set hi hs hj (.refl _) fun _ hu => hR.holdsAt_withSlot hu _
  | forgets steps w =>
    exact ⟨s.forgotten, by rw [List.getElem?_map, hi]; rfl, hR.holdsAt_forgotten hs⟩
  | wakes steps w t => exact ⟨s, hi, hR.holdsAt_spared hs (.schedule w t)⟩

/-- A look keeps what lasts, wherever inside. -/
theorem pollWithin (place : List Nat) (site : Site) (waiter : Option Waiter) (w : World)
    (harrayed : s.Arrayed) (hheight : s.height ≤ height) (h : HoldsAt R place s w) :
    HoldsAt R place (Step.pollWithin height site waiter s w).step
      (Step.pollWithin height site waiter s w).world := by
  induction height generalizing place site waiter s w with
  | zero => exact absurd hheight (Nat.not_le.2 s.height_pos)
  | succ height ih =>
    obtain ⟨t, hat, ht⟩ := h
    cases place with
    | nil =>
      cases hat
      exact ⟨_, rfl, hR.looked site waiter hheight ht⟩
    | cons i place =>
      cases s with
      | leaf => cases hat
      | group slot g steps =>
        obtain ⟨u, hi, hat⟩ := Option.bind_eq_some_iff.1 hat
        obtain ⟨tasks, g', steps', hhandles⟩ :=
          pollWithin_acts site waiter w harrayed (Nat.le_of_succ_le_succ hheight)
        obtain ⟨u', hi', t', hat', ht'⟩ := hhandles.worked.works.induction
          (Q := fun r => ∃ s, r.1[i]? = some s ∧ HoldsAt R place s r.2) ⟨u, hi, t, hat, ht⟩
          fun r r' => hR.holdsAt_acts fun j u w => ih place (site.child tasks j) _ w
        rw [hhandles.step]
        exact ⟨t', by rw [at?, show steps'[i]? = some u' from hi']; exact hat', ht'⟩

/-- The look that the task of a group takes keeps what lasts, wherever inside. -/
theorem pollPlace (below place : List Nat) (site : Site) (w : World) (harrayed : s.Arrayed)
    (h : HoldsAt R place s w) :
    HoldsAt R place (s.pollPlace below site w).step (s.pollPlace below site w).world := by
  induction below generalizing place s site with
  | nil => exact hR.pollWithin place site _ w harrayed (Nat.le_refl _) h
  | cons j below ih =>
    obtain ⟨t, hat, ht⟩ := h
    cases place with
    | nil =>
      cases hat
      exact ⟨_, rfl, hR.lookedBelow site j below ht⟩
    | cons i place =>
      cases s with
      | leaf => cases hat
      | group slot g steps =>
        obtain ⟨u, hi, hat⟩ := Option.bind_eq_some_iff.1 hat
        unfold Step.pollPlace
        split
        · exact ⟨t, by rw [at?, hi]; exact hat, ht⟩
        next v hj =>
          have hv := (arrayed_group.1 harrayed).2 v (List.mem_of_getElem? hj)
          obtain ⟨u', hi', t', hat', ht'⟩ := hR.holdsAt_set hi ⟨t, hat, ht⟩ hj
            (pollPlace_spares below _ w hv) fun _ hu => ih place _ hv hu
          exact ⟨t', by rw [at?, hi']; exact hat', ht'⟩

end Lasting

/-! ## Properties that a look may change -/

/-- `Q` holds of a step that was played, whatever settles, until looks make of it what lasts:
`R`. -/
structure Advances (Q R : Step → World → Prop) : Prop where
  lasting : Lasting R
  imp : ∀ {s w}, Q s w → R s w
  played : ∀ {s w}, Q s w → s.stage ≠ .created
  mono : ∀ {s w w'}, Q s w → (∀ a, w.started? a = some true → w'.started? a = some true) →
    (∀ a o, w.settlement? a = some o → w'.settlement? a = some o) → Q s w'
  wake : ∀ {s w}, Q s w → ∀ (a : ActionId) (site : Site) (w' : World), Q (s.wake a site w').1 w

theorem wakeList_getElem? (a : ActionId) (site : Nat → Site) (width : Nat)
    (hi : steps[i]? = some s) (index : Nat) (g : Group) (w : World) :
    ∃ site' w', (wakeList a site width index g steps w).2.1[i]? = some (s.wake a site' w').1 := by
  induction steps generalizing i index g w with
  | nil => cases hi
  | cons t rest ih =>
    unfold wakeList
    cases i with
    | zero =>
      cases hi
      exact ⟨_, _, rfl⟩
    | succ i => exact ih hi _ _ _

/-- What is inside a step is woken with it. -/
theorem wake_at? (a : ActionId) (hat : s.at? place = some t) (site : Site) (w : World) :
    ∃ site' w', (s.wake a site w).1.at? place = some (t.wake a site' w').1 := by
  induction place generalizing s site w with
  | nil =>
    cases hat
    exact ⟨site, w, rfl⟩
  | cons i place ih =>
    cases s with
    | leaf => cases hat
    | group slot g steps =>
      obtain ⟨u, hi, hat⟩ := Option.bind_eq_some_iff.1 hat
      obtain ⟨site', w', hi'⟩ := wakeList_getElem? a
        (site.child (g.wakes site.above site.task)) steps.length hi 0 g w
      obtain ⟨site'', w'', ht⟩ := ih hat site' w'
      refine ⟨site'', w'', ?_⟩
      rw [Step.wake]
      dsimp only
      rw [at?, hi']
      exact ht

/-- A wake keeps what holds until a look, wherever inside. -/
theorem Advances.holdsAt_wake {Q R : Step → World → Prop} (hQ : Advances Q R)
    (h : HoldsAt Q place s w) (a : ActionId) (site : Site) (w' : World) :
    HoldsAt Q place (s.wake a site w').1 w := by
  obtain ⟨t, hat, ht⟩ := h
  obtain ⟨site', w'', hat'⟩ := wake_at? a hat site w'
  exact ⟨_, hat', hQ.wake ht a site' w''⟩

/-- The step is a group that has ended with the given outcome. -/
def Ended (o : Outcome) (s : Step) (_ : World) : Prop := s.stage = .finished o

/-- With what a group has ended does not change. -/
theorem ended_lasting (o : Outcome) : Lasting (Ended o) where
  launched {s w} h hfresh := by
    cases s with
    | leaf => cases h
    | group =>
      have hcreated : Stage.created = .finished o := hfresh.2.1.symm.trans h
      cases hcreated
  withSlot {s w} slot h := by
    cases s <;> exact h
  forgotten {s w} h := by
    cases s <;> exact h
  spared h _ := h
  looked {height} site waiter {s w} _ h := by
    cases s with
    | leaf => cases h
    | group slot g steps =>
      have hs : g.stage = .finished o := h
      cases height with
      | zero => exact hs
      | succ height =>
        simp only [Step.pollWithin, hs, Stage.outcome?]
        exact hs
  lookedBelow site i below {s w} h := by
    cases s with
    | leaf => cases h
    | group slot g steps =>
      unfold Step.pollPlace
      split
      · exact h
      · exact (g.noteWake_stage i steps.length _).trans h

theorem ended_advances (o : Outcome) : Advances (Ended o) (Ended o) where
  lasting := ended_lasting o
  imp h := h
  played h hs := by
    cases h.symm.trans hs
  mono h _ _ := h
  wake h a site w' := (wake_stage a site _ w').trans h

end Step

end Rundown
