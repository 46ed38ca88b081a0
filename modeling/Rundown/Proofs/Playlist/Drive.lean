import Rundown.Proofs.Playlist.Launch

/-!
# Driving steps in order

What a look at a step guarantees (`Step.Looked`), and what it makes of a group that goes through its
steps from left to right: a sequence (`Group.driveSequence_driven`) and a parallel group that looks
at every branch (`Group.driveEach_driven`).
-/

namespace Rundown

namespace Step

/-- What a look at the step at `place` leads to, which was launched with the input `v`; `tasks` are
those that a wake of the group around it makes ready. -/
structure Looked (x : Scene) (place : List Nat) (v : Json) (tasks : List Task) (s : Step)
    (w : World) (p : Polled) : Prop where
  reset : p.step.reset = s.reset
  slot : p.step.slot = s.slot
  evolves : World.Evolves s.leaves w p.world
  entered : p.step.Entered (x.after p.world) place v
  answer : p.outcome = p.step.answer? p.world
  wakes : s.Quiet w → p.signalled = true ∨ p.step.Quiet p.world
  silent : s.isLeaf = true → p.signalled = false
  signalled : p.signalled = true → ∀ t ∈ tasks, p.world.Due t

variable {x : Scene} {place : List Nat} {v : Json} {s : Step} {w : World}

theorem isDone_congr {s t : Step} (h : s.slot = t.slot) : s.isDone = t.isDone := by
  unfold isDone
  rw [h]

theorem isAwaited_congr {s t : Step} (h : s.slot = t.slot) : s.isAwaited = t.isAwaited := by
  unfold isAwaited
  rw [h]

theorem isDone_eq_false_of_isAwaited {s : Step} (h : s.isAwaited = true) : s.isDone = false := by
  cases hd : s.isDone with
  | false => rfl
  | true =>
    rw [isAwaited_eq_false_of_isDone hd] at h
    cases h

/-- A step that was launched and is not done is awaited. -/
theorem Entered.isAwaited (h : s.Entered x place v) (ht : s.Tied) (hd : s.isDone = false) :
    s.isAwaited = true := by
  cases s with
  | leaf slot a =>
    cases slot with
    | idle => exact h.elim
    | waiting | refused e => rfl
    | done o => cases hd
  | group slot g steps =>
    rcases ht with rfl | ⟨o, rfl, -⟩
    · rfl
    · cases hd

theorem tied_of_isAwaited {s t : Step} (h : s.Tied) (ha : s.isAwaited = true)
    (hs : t.slot = s.slot) (hr : t.reset = s.reset) : t.Tied := by
  cases s with
  | leaf slot a =>
    cases t with
    | leaf => trivial
    | group => cases hr
  | group slot g steps =>
    cases t with
    | leaf => trivial
    | group slot' g' steps' =>
      obtain rfl : slot' = slot := hs
      rcases h with rfl | ⟨o, rfl, -⟩
      · exact .inl rfl
      · cases ha

@[simp] theorem taken?_withSlot (s : Step) (o : Outcome) :
    (s.withSlot (.done o)).taken? = some o := by
  simp only [taken?, slot_withSlot]

@[simp] theorem isDone_withSlot (s : Step) (o : Outcome) :
    (s.withSlot (.done o)).isDone = true := by
  simp only [isDone, slot_withSlot]

@[simp] theorem isAwaited_withSlot (s : Step) (o : Outcome) :
    (s.withSlot (.done o)).isAwaited = false :=
  isAwaited_eq_false_of_isDone (isDone_withSlot s o)

theorem taken?_eq_none_of_isAwaited {s : Step} (h : s.isAwaited = true) : s.taken? = none :=
  taken?_eq_none_iff.2 (isDone_eq_false_of_isAwaited h)

theorem isDone_of_taken? {s : Step} {o : Outcome} (h : s.taken? = some o) : s.isDone = true := by
  cases hd : s.isDone with
  | true => rfl
  | false =>
    rw [taken?_eq_none_iff.2 hd] at h
    cases h

end Step

/-- The group at `place` looks at its steps as their own specification says. -/
def Look.Sound (x : Scene) (place : List Nat) (tasks : List Task) (height : Nat) (look : Look) :
    Prop :=
  ∀ (i : Nat) (s : Step) (w : World) (v : Json), s.height ≤ height → x.Apart s.leaves →
    s.Entered (x.after w) (place ++ [i]) v → s.Tied → s.isAwaited = true →
    s.Looked x (place ++ [i]) v tasks w (look i s w) ∧
      ((look i s w).outcome = none → (look i s w).step.Quiet (look i s w).world)

/-- The group at `place` launches its steps as their own specification says. -/
def Launch.Sound (x : Scene) (place : List Nat) (launch : Launch) : Prop :=
  ∀ (i : Nat) (s : Step) (w : World) (v : Json), s.Untouched (x.after w) →
    s.Launched x (place ++ [i]) v w (launch i v s w)

namespace Group

open Step

variable {x : Scene} {place : List Nat} {tasks : List Task} {height : Nat} {look : Look}
  {launch : Launch} {g : Group}

/-! ## Sequences -/

/-- What driving the steps of a sequence leads to, from the one with the given index on, which was
launched or is to be launched with the input `v`. -/
structure DrivenInOrder (x : Scene) (place : List Nat) (tasks : List Task) (g : Group)
    (index : Nat) (v : Json) (steps : List Step) (w : World) (d : Drive) : Prop where
  group : d.group = g
  reset : resetList d.steps = resetList steps
  evolves : World.Evolves (leavesList steps) w d.world
  entered : EnteredInOrder (x.after d.world) place index v d.outcome d.steps
  quiet : d.outcome = none → ∀ s ∈ d.steps, s.isAwaited = true → s.Quiet d.world
  signalled : d.signalled = true → ∀ t ∈ tasks, d.world.Due t

variable {index : Nat} {v : Json} {rest : List Step} {s : Step} {w : World}

theorem DrivenInOrder.cons {u : Json} {d : Drive} {signalled : Bool}
    (h : DrivenInOrder x place tasks g (index + 1) u rest w d)
    (hapart : x.Apart (s.leaves ++ leavesList rest))
    (hs : s.Entered (x.after w) (place ++ [index]) v) (ht : s.Tied)
    (htaken : s.taken? = some (.ok u)) (hsig : signalled = true → ∀ t ∈ tasks, w.Due t) :
    DrivenInOrder x place tasks g index v (s :: rest) w (d.cons s signalled) where
  group := h.group
  reset := by
    show s.reset :: resetList d.steps = _
    rw [h.reset]
    rfl
  evolves := h.evolves.mono (List.subset_append_right _ _)
  entered := by
    refine ⟨hs.mono (.of_evolves h.evolves fun a ha hx => hapart.notMem hx ha), ht, ?_⟩
    rw [htaken]
    exact h.entered
  quiet ho := by
    refine List.forall_mem_cons.2 ⟨?_, h.quiet ho⟩
    intro ha
    rw [isAwaited_eq_false_of_isDone (isDone_of_taken? htaken)] at ha
    cases ha
  signalled hsg t htm := by
    rcases Bool.or_eq_true_iff.1 hsg with hsg | hsg
    · exact h.evolves.keeps.due t (hsig hsg t htm)
    · exact h.signalled hsg t htm

/-- What `driveSequence` makes of its current step. -/
def driveCurrent (g : Group) (look : Look) (launch : Launch) (index : Nat) (s : Step)
    (rest : List Step) (w : World) : Drive :=
  let p := look index s w
  match p.outcome with
  | none => ⟨g, p.step :: rest, p.world, none, p.signalled⟩
  | some (.error e) =>
    ⟨g, p.step.withSlot (.done (.error e)) :: rest, p.world, some (.error e), p.signalled⟩
  | some (.ok v) =>
    (g.driveSequence look launch (index + 1) (some v) rest p.world).cons
      (p.step.withSlot (.done (.ok v))) p.signalled

theorem driveSequence_launch (input : Json) :
    g.driveSequence look launch index (some input) (s :: rest) w =
      g.driveCurrent look launch index (launch index input s w).1 rest
        (launch index input s w).2 := rfl

theorem driveSequence_skip (h : s.isDone = true) :
    g.driveSequence look launch index none (s :: rest) w =
      (g.driveSequence look launch (index + 1) none rest w).cons s false := by
  simp only [driveSequence, h]
  rfl

theorem driveSequence_current (h : s.isDone = false) :
    g.driveSequence look launch index none (s :: rest) w =
      g.driveCurrent look launch index s rest w := by
  simp only [driveSequence, h]
  rfl

theorem driveCurrent_driven (hlook : look.Sound x place tasks height)
    (hheight : s.height ≤ height) (hapart : x.Apart (s.leaves ++ leavesList rest))
    (hs : s.Entered (x.after w) (place ++ [index]) v) (ht : s.Tied) (ha : s.isAwaited = true)
    (hrest : ∀ t ∈ rest, t.Untouched (x.after w))
    (ih : ∀ (u : Json) (w' : World), (∀ t ∈ rest, t.Untouched (x.after w')) →
      DrivenInOrder x place tasks g (index + 1) u rest w'
        (g.driveSequence look launch (index + 1) (some u) rest w')) :
    DrivenInOrder x place tasks g index v (s :: rest) w
      (g.driveCurrent look launch index s rest w) := by
  obtain ⟨hl, hquiet⟩ := hlook index s w v hheight hapart.left hs ht ha
  unfold driveCurrent
  generalize look index s w = p at hl hquiet
  have hleaves : p.step.leaves = s.leaves := leaves_congr hl.reset
  have hfollow : ∀ t ∈ rest, t.Untouched (x.after p.world) := fun t htm =>
    (hrest t htm).of_evolves hl.evolves fun a ha hx => hapart.notMem' hx (leaves_subset htm ha)
  have hev : World.Evolves (leavesList (s :: rest)) w p.world :=
    hl.evolves.mono (List.subset_append_left _ _)
  have hreset (slot : Slot) : resetList (p.step.withSlot slot :: rest) = resetList (s :: rest) := by
    simp only [resetList, reset_withSlot, hl.reset]
  have hslot : p.step.isAwaited = true := (isAwaited_congr hl.slot).trans ha
  have hnotDone := isDone_eq_false_of_isAwaited hslot
  dsimp only
  cases ho : p.outcome with
  | none =>
    refine ⟨rfl, ?_, hev, ⟨hl.entered, tied_of_isAwaited ht ha hl.slot hl.reset, ?_⟩, ?_,
      hl.signalled⟩
    · simp only [resetList, hl.reset]
    · rw [taken?_eq_none_of_isAwaited hslot]
      exact ⟨rfl, hfollow⟩
    · intro _
      refine List.forall_mem_cons.2 ⟨fun _ => hquiet ho, ?_⟩
      intro t htm hta
      rw [(hfollow t htm).1.isAwaited_eq] at hta
      cases hta
  | some o =>
    have hans : p.step.answer? p.world = some o := hl.answer.symm.trans ho
    have hdone := hl.entered.take hans hnotDone
    have htied := hl.entered.tied_take hans
    cases o with
    | error e =>
      refine ⟨rfl, hreset _, hev, ⟨hdone, htied, ?_⟩, fun h => (by cases h), hl.signalled⟩
      rw [taken?_withSlot]
      exact ⟨rfl, hfollow⟩
    | ok u =>
      have hapart' : x.Apart ((p.step.withSlot (.done (.ok u))).leaves ++ leavesList rest) := by
        rwa [leaves_withSlot, hleaves]
      have hd := (ih u p.world hfollow).cons hapart' hdone htied (taken?_withSlot _ _) hl.signalled
      refine ⟨hd.group, hd.reset.trans (hreset _), hev.trans ?_, hd.entered, hd.quiet, hd.signalled⟩
      have hsub := hd.evolves
      simp only [leavesList, leaves_withSlot, hleaves] at hsub ⊢
      exact hsub

/-- Launching and driving the steps of a sequence that nobody has touched. -/
theorem driveSequence_driven (hlook : look.Sound x place tasks height)
    (hlaunch : launch.Sound x place) {steps : List Step} (hheight : heightList steps ≤ height)
    (hapart : x.Apart (leavesList steps)) (h : ∀ s ∈ steps, s.Untouched (x.after w)) :
    DrivenInOrder x place tasks g index v steps w
      (g.driveSequence look launch index (some v) steps w) := by
  induction steps generalizing index v w with
  | nil => exact ⟨rfl, rfl, .refl w, rfl, fun h => (by cases h), fun h => (by cases h)⟩
  | cons s rest ih =>
    have hl := hlaunch index s w v (h s List.mem_cons_self)
    rw [driveSequence_launch]
    generalize launch index v s w = r at hl
    have hleaves : r.1.leaves = s.leaves := leaves_congr hl.reset
    have hrest : ∀ t ∈ rest, t.Untouched (x.after r.2) := fun t ht =>
      (h t (List.mem_cons_of_mem _ ht)).of_evolves hl.evolves fun a ha hx =>
        hapart.notMem' hx (leaves_subset ht ha)
    have hd := driveCurrent_driven (g := g) hlook
      (by rw [height_congr hl.reset]; exact Nat.le_trans (Nat.le_max_left _ _) hheight)
      (by rw [hleaves]; exact hapart) hl.entered hl.tied hl.awaited hrest
      fun u w' hu => ih (Nat.le_trans (Nat.le_max_right _ _) hheight) hapart.right hu
    refine ⟨hd.group, ?_, ?_, hd.entered, hd.quiet, hd.signalled⟩
    · rw [hd.reset, resetList, resetList, hl.reset]
    · have hev := hd.evolves
      simp only [leavesList, hleaves] at hev ⊢
      exact (hl.evolves.mono (List.subset_append_left _ _)).trans hev

/-- Driving the steps of a sequence that goes on. -/
theorem driveSequence_resumed (hlook : look.Sound x place tasks height)
    (hlaunch : launch.Sound x place) {steps : List Step} (hheight : heightList steps ≤ height)
    (hapart : x.Apart (leavesList steps))
    (h : EnteredInOrder (x.after w) place index v none steps) :
    DrivenInOrder x place tasks g index v steps w
      (g.driveSequence look launch index none steps w) := by
  induction steps generalizing index v with
  | nil => cases h
  | cons s rest ih =>
    obtain ⟨hs, ht, htaken⟩ := h
    have hheight' : heightList rest ≤ height := Nat.le_trans (Nat.le_max_right _ _) hheight
    cases hd : s.isDone with
    | true =>
      rw [driveSequence_skip hd]
      split at htaken
      next hnone =>
        rw [taken?_eq_none_iff.1 hnone] at hd
        cases hd
      · cases htaken.1
      next u htk =>
        exact (ih hheight' hapart.right htaken).cons hapart hs ht htk fun h => (by cases h)
    | false =>
      rw [driveSequence_current hd]
      rw [taken?_eq_none_iff.2 hd] at htaken
      exact driveCurrent_driven hlook (Nat.le_trans (Nat.le_max_left _ _) hheight) hapart hs ht
        (hs.isAwaited ht hd) htaken.2
        fun u w' hu => driveSequence_driven hlook hlaunch hheight' hapart.right hu

/-! ## Looking at every branch -/

/-- What looking at every branch leads to, from the one with the given index on. -/
structure DrivenEach (x : Scene) (place : List Nat) (tasks : List Task) (g : Group)
    (index : Nat) (v : Json) (steps : List Step) (w : World) (d : Drive) : Prop where
  group : d.group = g
  reset : resetList d.steps = resetList steps
  evolves : World.Evolves (leavesList steps) w d.world
  entered : EnteredAll (x.after d.world) place index v d.steps
  quiet : d.outcome = none → ∀ s ∈ d.steps, s.isAwaited = true → s.Quiet d.world
  fine : d.outcome = none → ∀ e, ¬TookFailure d.steps e
  failed : ∀ o, d.outcome = some o → ∃ e, o = .error e ∧ TookFailure d.steps e
  signalled : d.signalled = true → ∀ t ∈ tasks, d.world.Due t

theorem tookFailure_cons {e : PlaylistError} :
    TookFailure (s :: rest) e ↔ s.taken? = some (.error e) ∨ TookFailure rest e := by
  simp only [TookFailure, List.exists_mem_cons_iff]

/-- A step in front of the others, which have been looked at after it. -/
theorem DrivenEach.cons {w' : World} {s' : Step} {d : Drive} {signalled : Bool}
    (h : DrivenEach x place tasks g (index + 1) v rest w' d)
    (hapart : x.Apart (s.leaves ++ leavesList rest)) (hreset : s'.reset = s.reset)
    (hev : World.Evolves s.leaves w w')
    (hs : s'.Entered (x.after w') (place ++ [index]) v) (ht : s'.Tied)
    (hquiet : s'.isAwaited = true → s'.Quiet w') (hfine : ∀ e, s'.taken? ≠ some (.error e))
    (hsig : signalled = true → ∀ t ∈ tasks, w'.Due t) :
    DrivenEach x place tasks g index v (s :: rest) w (d.cons s' signalled) := by
  have hfollow : Scene.Follows (place ++ [index]) s'.leaves (x.after w') (x.after d.world) :=
    .of_evolves h.evolves fun a ha hx => hapart.notMem hx (leaves_congr hreset ▸ ha)
  refine ⟨h.group, ?_, ?_, ⟨⟨hs.mono hfollow, ht⟩, h.entered⟩, ?_, ?_, ?_, ?_⟩
  · show s'.reset :: resetList d.steps = _
    rw [h.reset, hreset]
    rfl
  · exact (hev.mono (List.subset_append_left _ _)).trans
      (h.evolves.mono (List.subset_append_right _ _))
  · intro ho
    exact List.forall_mem_cons.2 ⟨fun ha => (hquiet ha).mono hfollow, h.quiet ho⟩
  · intro ho e he
    rcases tookFailure_cons.1 he with he | he
    · exact hfine e he
    · exact h.fine ho e he
  · intro o ho
    obtain ⟨e, rfl, he⟩ := h.failed o ho
    exact ⟨e, rfl, tookFailure_cons.2 (.inr he)⟩
  · intro hsg t htm
    rcases Bool.or_eq_true_iff.1 hsg with hsg | hsg
    · exact h.evolves.keeps.due t (hsig hsg t htm)
    · exact h.signalled hsg t htm

theorem driveEach_driven (hlook : look.Sound x place tasks height) {steps : List Step}
    (hheight : heightList steps ≤ height) (hapart : x.Apart (leavesList steps))
    (h : EnteredAll (x.after w) place index v steps) (hfine : ∀ e, ¬TookFailure steps e) :
    DrivenEach x place tasks g index v steps w (g.driveEach look index steps w) := by
  induction steps generalizing index w with
  | nil =>
    exact ⟨rfl, rfl, .refl w, trivial, fun _ _ h => (by cases h), fun _ => hfine,
      fun _ h => (by cases h), fun h => (by cases h)⟩
  | cons s rest ih =>
    obtain ⟨⟨hs, ht⟩, hrest⟩ := h
    have hheight' : heightList rest ≤ height := Nat.le_trans (Nat.le_max_right _ _) hheight
    have hfine' : ∀ e, ¬TookFailure rest e := fun e he => hfine e (tookFailure_cons.2 (.inr he))
    have hfineS : ∀ e, s.taken? ≠ some (.error e) := fun e he =>
      hfine e (tookFailure_cons.2 (.inl he))
    cases hd : s.isDone with
    | true =>
      simp only [driveEach, hd, if_true]
      refine (ih hheight' hapart.right hrest hfine').cons hapart rfl (.refl w) hs ht ?_ hfineS
        fun h => (by cases h)
      intro ha
      rw [isAwaited_eq_false_of_isDone hd] at ha
      cases ha
    | false =>
      have ha := hs.isAwaited ht hd
      obtain ⟨hl, hquiet⟩ := hlook index s w v (Nat.le_trans (Nat.le_max_left _ _) hheight)
        hapart.left hs ht ha
      simp only [driveEach, hd, Bool.false_eq_true, if_false]
      generalize look index s w = p at hl hquiet
      have hfollow : EnteredAll (x.after p.world) place (index + 1) v rest :=
        enteredAll_mono (fun _ _ _ _ h hf => h.mono hf)
          (fun _ => .of_evolves hl.evolves fun a ha hx => hapart.notMem' hx ha) hrest
      have hslot : p.step.isAwaited = true := (isAwaited_congr hl.slot).trans ha
      have hnotDone := isDone_eq_false_of_isAwaited hslot
      cases ho : p.outcome with
      | none =>
        refine (ih hheight' hapart.right hfollow hfine').cons hapart hl.reset hl.evolves hl.entered
          (tied_of_isAwaited ht ha hl.slot hl.reset) (fun _ => hquiet ho) ?_ hl.signalled
        intro e he
        rw [taken?_eq_none_of_isAwaited hslot] at he
        cases he
      | some o =>
        have hans : p.step.answer? p.world = some o := hl.answer.symm.trans ho
        have hdone := hl.entered.take hans hnotDone
        have htied := hl.entered.tied_take hans
        cases o with
        | error e =>
          refine ⟨rfl, ?_, hl.evolves.mono (List.subset_append_left _ _), ⟨⟨hdone, htied⟩, hfollow⟩,
            fun h => (by cases h), fun h => (by cases h), ?_, hl.signalled⟩
          · simp only [resetList, reset_withSlot, hl.reset]
          · rintro o ho
            cases ho
            exact ⟨e, rfl, tookFailure_cons.2 (.inl (taken?_withSlot _ _))⟩
        | ok u =>
          refine (ih hheight' hapart.right hfollow hfine').cons hapart
            ((reset_withSlot _ _).trans hl.reset) hl.evolves hdone htied ?_ ?_ hl.signalled
          · intro ha
            rw [isAwaited_withSlot] at ha
            cases ha
          · intro e he
            rw [taken?_withSlot] at he
            cases he

end Group

end Rundown
