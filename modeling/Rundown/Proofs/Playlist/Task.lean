import Rundown.Proofs.Playlist.Revise

/-!
# The look of a group's own task

`Step.pollPlace_revised`: when the task of a group deep inside a step runs, the step and all groups
around that group are left as `Step.Revised` says.
-/

namespace Rundown

/-- The scene after the task `t` has run; if that ended it, it is not due any more. -/
def Scene.once (x : Scene) (w : World) (t : Task) (ended : Bool) : Scene :=
  x.amid w fun u => w.Due u ∧ (u = t → ended = false)

theorem Scene.Follows.once {x : Scene} {place : List Nat} {actions : List ActionId} {w : World}
    {t : Task} {ended : Bool} (ht : ∀ below, t ≠ .group x.playlist (place ++ below)) :
    Scene.Follows place actions (x.after w) (x.once w t ended) :=
  .of_due fun below hd => ⟨hd, fun heq => absurd heq.symm (ht below)⟩

/-- What happens while the task of another group runs. -/
theorem Scene.Follows.during_once {x : Scene} {place : List Nat} {actions actions' : List ActionId}
    {w w' : World} {t : Task} {ended : Bool}
    (ht : ∀ below, t ≠ .group x.playlist (place ++ below)) (h : World.Evolves actions' w w')
    (hsep : ∀ a ∈ actions, x.sole a → a ∉ actions') :
    Scene.Follows place actions (x.during w t) (x.once w' t ended) :=
  .of_keeps h.keeps
    (fun below hd => ⟨h.keeps.due _ (hd.resolve_right fun heq => ht below heq.symm),
      fun heq => absurd heq.symm (ht below)⟩)
    (fun _ _ hs hn => hn.2 hs) fun a ha hx _ hn => hsep a ha hx hn.1

/-- The task of a group is not that of a group elsewhere below the group around it. -/
theorem Task.group_ne_beside (playlist : PlaylistId) (place below : List Nat) {index i : Nat}
    (rest : List Nat) (hi : i ≠ index) :
    Task.group playlist (place ++ index :: rest) ≠ .group playlist (place ++ [i] ++ below) := by
  intro heq
  have := (Task.group.inj heq).2
  rw [List.append_assoc, List.append_cancel_left_eq] at this
  exact hi (List.cons.inj this).1.symm

namespace Step

variable {x : Scene} {place rest : List Nat} {v : Json} {s : Step} {w : World} {t : Task}

/-- The step has been launched, or it has not been. -/
def Known (x : Scene) (place : List Nat) (s : Step) : Prop :=
  (∃ v, s.Entered x place v) ∨ s.Untouched x ∨ s.Dormant x

theorem EnteredInOrder.known {index : Nat} {o : Option Outcome} {steps : List Step}
    (h : EnteredInOrder x place index v o steps) {i : Nat} (hi : steps[i]? = some s) :
    s.Known x (place ++ [index + i]) := by
  induction steps generalizing index v i with
  | nil => cases hi
  | cons u us ih =>
    obtain ⟨hu, -, htaken⟩ := h
    cases i with
    | zero =>
      cases hi
      exact .inl ⟨v, hu⟩
    | succ i =>
      rw [List.getElem?_cons_succ] at hi
      split at htaken
      · exact .inr (.inl (htaken.2 s (List.mem_of_getElem? hi)))
      · exact .inr (.inl (htaken.2 s (List.mem_of_getElem? hi)))
      · have := ih htaken hi
        rwa [Nat.add_assoc, Nat.add_comm 1 i] at this

theorem Known.child {slot : Slot} {g : Group} {steps : List Step}
    (h : (Step.group slot g steps).Known x place) {i : Nat} (hi : steps[i]? = some s) :
    s.Known x (place ++ [i]) := by
  have hm := List.mem_of_getElem? hi
  rcases h with ⟨v, h⟩ | h | h
  · have hr : g.Runs x place v steps _ _ := h
    have hstarted : g.stage.isStarted = true → s.Known x (place ++ [i]) := by
      intro hs
      by_cases hk : g.kind = .sequence
      · have := (hr.inOrder hs hk).known hi
        rwa [Nat.zero_add] at this
      · have := (enteredAll_iff.1 (hr.together hs hk) i s hi).1
        rw [Nat.zero_add] at this
        exact .inl ⟨v, this⟩
    cases hs : g.stage with
    | created => exact absurd hs hr.created
    | expired => exact absurd hs hr.expired
    | triggered input => exact .inr (.inl ((hr.triggered input hs).2.2 s hm))
    | running | finished => exact hstarted (by rw [hs]; rfl)
  · exact .inr (.inl (h.child s hm))
  · exact .inr (.inl (h.2.2.2.2 s hm))

theorem Known.at? {root : Step} {below : List Nat} (h : root.Known x place)
    (hat : root.at? below = some s) : s.Known x (place ++ below) := by
  induction below generalizing root place with
  | nil =>
    cases hat
    rwa [List.append_nil]
  | cons i below ih =>
    cases root with
    | leaf => cases hat
    | group slot g steps =>
      obtain ⟨t, hi, hat⟩ := Option.bind_eq_some_iff.1 hat
      have := ih (h.child hi) hat
      rwa [List.append_assoc] at this

/-- A group that is not as it was created has been entered. -/
theorem Known.entered {slot : Slot} {g : Group} {steps : List Step}
    (h : (Step.group slot g steps).Known x place) (hs : g.stage.state ≠ .created) :
    ∃ v, (Step.group slot g steps).Entered x place v := by
  rcases h with h | h | h
  · exact h
  · rw [h.1.2.1] at hs
    exact absurd rfl hs
  · rcases h.2.1 with h | h <;> rw [h] at hs <;> exact absurd rfl hs

/-- A group one of whose steps has been launched has been entered. -/
theorem Known.entered_of_child {slot : Slot} {g : Group} {steps : List Step}
    (h : (Step.group slot g steps).Known x place) (hm : s ∈ steps) (hs : ¬s.Fresh) :
    ∃ v, (Step.group slot g steps).Entered x place v := by
  rcases h with h | h | h
  · exact h
  · exact absurd (h.child s hm).1 hs
  · exact absurd (h.2.2.2.2 s hm).1 hs

/-- A look at a group that is not running changes at most who awaits it. -/
theorem poll_unplayed (slot : Slot) {g : Group} (steps : List Step) (site : Site)
    (waiter : Option Waiter) (w : World) (h : g.stage = .created ∨ g.stage = .expired) :
    ∃ waiters o, (Step.group slot g steps).poll site waiter w =
      ⟨.group slot { g with waiters := waiters } steps, w, o, false⟩ := by
  obtain ⟨waiters, hg, -⟩ := g.awaited waiter
  rcases h with h | h
  · exact ⟨waiters, none, by simp only [poll, height, pollWithin, hg, h, Stage.outcome?]⟩
  · have hend : g.stage.outcome? = some (.error .neverStarted) := by rw [h]; rfl
    exact ⟨g.waiters, some (.error .neverStarted), by
      simp only [poll, height, pollWithin, hend]⟩

theorem poll_finished {slot : Slot} {g : Group} {steps : List Step} {site : Site}
    {waiter : Option Waiter} {o : Outcome} (h : g.stage.outcome? = some o) :
    (Step.group slot g steps).poll site waiter w = ⟨.group slot g steps, w, some o, false⟩ := by
  simp only [poll, height, pollWithin, h]

/-- What is due does not matter to a leaf. -/
theorem Revised.leaf {slot : Slot} {a : ActionId} {due due' : Task → Prop} :
    Revised (x.amid w due) (x.amid w due') place (.leaf slot a) (.leaf slot a) false where
  reset := rfl
  slot := rfl
  entered _ h := by cases slot <;> exact h
  untouched h := h
  dormant h := h
  tied h := h
  answer _ h := h
  quiet _ h := .inr h
  ready _ _ h := by cases h

/-- The task of a group stops after its look. -/
theorem Entered.once {ended : Bool} (h : s.Entered (x.after w) place v)
    (hended : ended = (s.answer? w).isSome) :
    s.Entered (x.once w (.group x.playlist place) ended) place v := by
  cases s with
  | leaf slot a => cases slot <;> exact h
  | group slot g steps =>
    have hr : g.Runs (x.after w) place v steps _ _ := h
    refine h.of_below (fun index => .once fun below =>
      Task.group_ne_below x.playlist place index below) ?_
    have halert := hr.alert
    unfold Group.Alert at halert ⊢
    cases hs : g.stage with
    | created | expired | finished o => trivial
    | triggered input =>
      simp only [hs] at halert ⊢
      exact ⟨halert, fun _ => by rw [hended, answer?, hs]; rfl⟩
    | running =>
      simp only [hs] at halert ⊢
      exact halert.imp_left fun hd => ⟨hd, fun _ => by rw [hended, answer?, hs]; rfl⟩

/-- What the look of a step's own task does to it. -/
theorem poll_revised {site : Site} (hsite : site.playlist = x.playlist) (hapart : x.Apart s.leaves)
    (hknown : s.Known (x.during w site.task) site.place) {p : Polled}
    (hp : s.poll site (some .task) w = p) :
    World.Evolves s.leaves w p.world ∧
      Revised (x.during w site.task) (x.once p.world site.task p.outcome.isSome) site.place s
        p.step p.signalled ∧
      (p.signalled = true → ∀ u ∈ site.above, p.world.Due u) := by
  obtain ⟨playlist, place, above⟩ := site
  obtain rfl : playlist = x.playlist := hsite
  cases s with
  | leaf slot a =>
    subst hp
    exact ⟨.refl w, .leaf, fun h => (by cases h)⟩
  | group slot g steps =>
    by_cases hstage : g.stage = .created ∨ g.stage = .expired
    · obtain ⟨waiters, o, heq⟩ :=
        poll_unplayed slot steps ⟨x.playlist, place, above⟩ (some .task) w hstage
      obtain rfl := heq.symm.trans hp
      refine ⟨.refl w,
        ⟨rfl, rfl, ?_, fun h => h, fun h => h, fun h => h, fun _ h => h, ?_, fun h => (by cases h)⟩,
        fun h => (by cases h)⟩
      · intro v h
        exact (hstage.elim (Group.Runs.created h) (Group.Runs.expired h)).elim
      · intro ha _
        obtain rfl : slot = .idle := by
          rcases hknown with ⟨v, h⟩ | h | h
          · exact (hstage.elim (Group.Runs.created h) (Group.Runs.expired h)).elim
          · exact h.1.1
          · exact h.1
        cases ha
    · have hlooked (v : Json)
          (h : (Step.group slot g steps).Entered (x.during w (.group x.playlist place)) place v) :
          (Step.group slot g steps).Looked x place v above w p :=
        hp ▸ (pollWithin_looked ⟨x.playlist, place, above⟩ (some .task) rfl (Nat.le_refl _) hapart h
          (.inl rfl)).1
      obtain ⟨v, h⟩ : ∃ v, (Step.group slot g steps).Entered
          (x.during w (.group x.playlist place)) place v := by
        rcases hknown with h | h | h
        · exact h
        · exact absurd (.inl h.1.2.1) hstage
        · exact absurd h.2.1 hstage
      have hl := hlooked v h
      have hfinished (o : Outcome) (ho : g.stage.outcome? = some o) :
          ⟨.group slot g steps, w, some o, false⟩ = p :=
        (poll_finished ho).symm.trans hp
      refine ⟨hl.evolves, ⟨hl.reset, hl.slot, ?_, fun h => absurd (.inl h.1.2.1) hstage,
        fun h => absurd h.2.1 hstage, ?_, ?_, fun _ hq => hl.wakes hq, fun h => (by cases h)⟩,
        hl.signalled⟩
      · intro v h
        have hl := hlooked v h
        exact hl.entered.once (by rw [hl.answer])
      · intro ht
        rcases ht with hs | ⟨o, hs, ho⟩
        · refine tied_of_isAwaited (s := .group slot g steps) (.inl hs) ?_ hl.slot hl.reset
          rw [isAwaited, show (Step.group slot g steps).slot = .waiting from hs]
        · rw [← hfinished o (by rw [ho]; rfl)]
          exact .inr ⟨o, hs, ho⟩
      · intro o ho
        rw [← hfinished o ho]
        exact ho

theorem pollPlace_revised (site : Site) (hsite : site.playlist = x.playlist)
    (hapart : x.Apart s.leaves) (ht : t = .group x.playlist (site.place ++ rest))
    (hknown : s.Known (x.during w t) site.place) {p : Polled}
    (hp : pollPlace rest site s w = p) :
    World.Evolves s.leaves w p.world ∧
      Revised (x.during w t) (x.once p.world t p.outcome.isSome) site.place s p.step p.signalled ∧
      (p.signalled = true → ∀ u ∈ site.above, p.world.Due u) := by
  induction rest generalizing site s p with
  | nil =>
    obtain rfl : t = site.task := by rw [ht, List.append_nil, ← hsite]; rfl
    exact poll_revised hsite hapart hknown hp
  | cons index rest ih =>
    cases s with
    | leaf slot a =>
      subst hp
      exact ⟨.refl w, .leaf, fun h => (by cases h)⟩
    | group slot g steps =>
      have hne (i : Nat) (hi : i ≠ index) (below : List Nat) :
          t ≠ .group x.playlist (site.place ++ [i] ++ below) :=
        ht ▸ Task.group_ne_beside x.playlist site.place below rest hi
      have hown : Task.group x.playlist site.place ≠ t := by
        rw [ht, ← List.singleton_append, ← List.append_assoc]
        exact Task.group_ne_below x.playlist site.place index rest
      cases hi : steps[index]? with
      | none =>
        simp only [pollPlace, hi] at hp
        subst hp
        refine ⟨.refl w, Revised.group slot false (.refl steps.length) ⟨rfl, ?_⟩ rfl
          (fun _ h => h) (fun _ h => h) (fun _ _ h => h)
          (fun hd => ⟨hd.resolve_right hown, fun heq => absurd heq hown⟩)
          (fun _ ⟨_, h⟩ => (by cases h)), fun h => (by cases h)⟩
        intro i s s' hs hs'
        obtain rfl := Option.some.inj (hs.symm.trans hs')
        have hdiffer : i ≠ index := by
          rintro rfl
          rw [hi] at hs
          cases hs
        rw [Nat.zero_add]
        exact .of_follows (.during_once (hne i hdiffer) (.refl w) fun a _ _ => List.not_mem_nil)
      | some s =>
        simp only [pollPlace, hi] at hp
        have hm := List.mem_of_getElem? hi
        obtain ⟨hevolves, hrevised, hsignalled⟩ :=
          ih (site.child (g.wakes site.above site.task) index) hsite (hapart.of_mem hm)
            (by rw [ht]; simp [Site.child]) (hknown.child hi) rfl
        generalize pollPlace rest (site.child (g.wakes site.above site.task) index) s w = q
          at hp hevolves hrevised hsignalled
        subst hp
        have htask : site.task = .group x.playlist site.place := by rw [← hsite]; rfl
        refine ⟨hevolves.mono (leaves_subset hm), Revised.group slot _
          (Group.noteWake_rewoken index steps.length q.signalled) ⟨List.length_set, ?_⟩ rfl
          (fun _ h => h) (fun _ h => h) hevolves.keeps.settled
          (fun hd => ⟨hevolves.keeps.due _ (hd.resolve_right hown), fun heq => absurd heq hown⟩)
          (fun htw ⟨i, hsig⟩ => ⟨?_, fun heq => absurd heq hown⟩), ?_⟩
        · intro i u u' hu hu'
          rw [Nat.zero_add]
          rcases (getElem?_set_of hi).1 hu' with ⟨rfl, rfl⟩ | ⟨hdiffer, hu'⟩
          · obtain rfl := Option.some.inj (hi.symm.trans hu)
            rw [beq_self_eq_true, Bool.true_and]
            exact hrevised
          · obtain rfl := Option.some.inj (hu.symm.trans hu')
            rw [beq_eq_false_iff_ne.2 hdiffer, Bool.false_and]
            exact .of_follows (.during_once (hne i hdiffer) hevolves fun _ ha hx =>
              hapart.of_ne hu hi hdiffer hx ha)
        · exact hsignalled (Bool.and_eq_true_iff.1 hsig).2 _ (htask ▸ Group.mem_wakes_own htw)
        · intro hsig u hu
          rw [Bool.and_eq_true_iff, Group.wakesParent_iff] at hsig
          exact hsignalled hsig.1 u (Group.mem_wakes_above hsig.2 hu)

end Step

end Rundown
