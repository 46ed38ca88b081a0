import Mathlib.Data.List.Flatten
import Rundown.Proofs.Playlist.Acts

/-!
# Branches of a group that is entered

A parallel group that is entered launches all of its branches before it looks at any.  Its leaves
begin as they are launched, one after another (`Step.launchAll_fresh`).  A nested branch only gets
the input, and begins something when it is looked at; the group looks at its branches in order, up
to the one at which it stops (`Group.Opened`).  It stops at a failure, or to give way to other tasks
(`Group.driveParallel_opened`).
-/

namespace Rundown

namespace World

/-- In the log, the first of the actions `sooner` comes before the first of the actions `later`, or
none of `later` is there. -/
def Precedes (sooner later : List ActionId) : List (ActionId × Json) → Prop
  | [] => True
  | b :: rest => b.1 ∈ sooner ∨ (b.1 ∉ later ∧ Precedes sooner later rest)

instance decidablePrecedes (sooner later : List ActionId) :
    (log : List (ActionId × Json)) → Decidable (Precedes sooner later log)
  | [] => inferInstanceAs (Decidable True)
  | b :: rest =>
    have := decidablePrecedes sooner later rest
    inferInstanceAs (Decidable (b.1 ∈ sooner ∨ (b.1 ∉ later ∧ Precedes sooner later rest)))

variable {sooner later : List ActionId} {log log' : List (ActionId × Json)}

theorem precedes_of_notMem (h : ∀ b ∈ log, b.1 ∉ later) : Precedes sooner later log := by
  induction log with
  | nil => trivial
  | cons b rest ih =>
    rw [List.forall_mem_cons] at h
    exact .inr ⟨h.1, ih h.2⟩

/-- Before something in the log precedes it, it does so in what follows. -/
theorem precedes_append (h : ∀ b ∈ log, b.1 ∉ later) (h' : Precedes sooner later log') :
    Precedes sooner later (log ++ log') := by
  induction log with
  | nil => exact h'
  | cons b rest ih =>
    rw [List.forall_mem_cons] at h
    exact .inr ⟨h.1, ih h.2⟩

/-- Once one of the earlier actions is there, the rest of the log does not matter. -/
theorem Precedes.append (h : Precedes sooner later log) (hm : ∃ b ∈ log, b.1 ∈ sooner)
    (log' : List (ActionId × Json)) : Precedes sooner later (log ++ log') := by
  induction log with
  | nil =>
    obtain ⟨b, hb, -⟩ := hm
    cases hb
  | cons b rest ih =>
    rcases h with h | ⟨hb, h⟩
    · exact .inl h
    · by_cases hs : b.1 ∈ sooner
      · exact .inl hs
      · obtain ⟨c, hc, hm⟩ := hm
        rcases List.mem_cons.1 hc with rfl | hc
        · exact absurd hm hs
        · exact .inr ⟨hb, ih h ⟨c, hc, hm⟩⟩

end World

/-! ## What looks begin -/

/-- A look at a step begins actions below that step only. -/
def Look.Confined (look : Look) (height : Nat) : Prop :=
  ∀ (i : Nat) (s : Step) (w : World), s.height ≤ height → s.Arrayed → s.IsLaunched →
    s.isAwaited = true → World.Evolves s.leaves w (look i s w).world

/-- Launching a step begins actions below that step only. -/
def Launch.Confined (launch : Launch) : Prop :=
  ∀ (i : Nat) (v : Json) (s : Step) (w : World), World.Evolves s.leaves w (launch i v s w).2

namespace Step

variable {s : Step} {steps steps' : List Step} {look : Look} {launch : Launch} {height : Nat}
  {w w' : World} {site : Site}

theorem launch_evolves (site : Site) (v : Json) (s : Step) (w : World) :
    World.Evolves s.leaves w (s.launch site v w).2 := by
  cases s with
  | leaf slot a => exact .begins v (List.mem_singleton.2 rfl) (.refl w)
  | group slot g steps =>
    unfold launch
    dsimp only
    split
    · exact .schedule _ (.refl w)
    · exact .refl w

/-- One act changes one step of the group, or nothing that matters to leaves. -/
theorem acts_evolves (hlook : look.Confined height) (hfair : look.Fair height)
    (hlaunch : launch.Confined) (hlfair : launch.Fair)
    (h : Group.Acts look launch height (steps, w) (steps', w')) :
    resetList steps' = resetList steps ∧ World.Evolves (leavesList steps) w w' := by
  cases h with
  | launches v w hi hfresh =>
    refine ⟨resetList_set hi (hlfair _ v _ w hfresh).2.2.2, ?_⟩
    exact (hlaunch _ v _ w).mono (leaves_subset (List.mem_of_getElem? hi))
  | looks w hi hheight harrayed hs ha =>
    refine ⟨resetList_set hi (hfair _ _ w hheight harrayed hs ha).reset, ?_⟩
    exact (hlook _ _ w hheight harrayed hs ha).mono (leaves_subset (List.mem_of_getElem? hi))
  | takes hi => exact ⟨resetList_set hi (reset_withSlot _ _), .refl w⟩
  | forgets => exact ⟨resetList_forgotten steps, .refl w⟩
  | wakes => exact ⟨rfl, .schedule _ (.refl w)⟩

theorem works_evolves (hlook : look.Confined height) (hfair : look.Fair height)
    (hlaunch : launch.Confined) (hlfair : launch.Fair)
    (h : Group.Works look launch height (steps, w) (steps', w')) :
    resetList steps' = resetList steps ∧ World.Evolves (leavesList steps) w w' := by
  suffices hwhole : ∀ r, Group.Works look launch height (steps, w) r →
      resetList r.1 = resetList steps ∧ World.Evolves (leavesList steps) w r.2 from hwhole _ h
  intro r h
  induction h with
  | refl => exact ⟨rfl, .refl w⟩
  | tail _ hacts ih =>
    obtain ⟨hreset, hev⟩ := acts_evolves hlook hfair hlaunch hlfair hacts
    rw [leavesList_of_resetList ih.1] at hev
    exact ⟨hreset.trans ih.1, ih.2.trans hev⟩

theorem launchBelow_confined (site : Site) (tasks : List Task) :
    (launchBelow site tasks).Confined :=
  fun _ v s w => launch_evolves _ v s w

/-- A look at a step begins only actions below it. -/
theorem pollWithin_evolves (site : Site) (waiter : Option Waiter) (w : World) (h : s.Arrayed)
    (hheight : s.height ≤ height) :
    World.Evolves s.leaves w (pollWithin height site waiter s w).world := by
  induction height generalizing s site waiter w with
  | zero => exact .refl w
  | succ height ih =>
    cases s with
    | leaf slot a => exact .refl w
    | group slot g steps =>
      obtain ⟨tasks, g', steps', hhandles⟩ :=
        pollWithin_acts site waiter w h (Nat.le_of_succ_le_succ hheight)
      refine (works_evolves ?_ (lookBelow_fair height site tasks) (launchBelow_confined site tasks)
        (launchBelow_fair site tasks) hhandles.worked.works).2
      intro i s w hheight harrayed _ _
      unfold lookBelow
      split
      · exact .refl w
      · exact ih _ _ w harrayed hheight

theorem lookBelow_confined (height : Nat) (site : Site) (tasks : List Task) :
    (lookBelow height site tasks).Confined height := by
  intro i s w hheight harrayed _ _
  unfold lookBelow
  split
  · exact .refl w
  · exact pollWithin_evolves _ _ w harrayed hheight

end Step

/-! ## Launching branches -/

namespace Step

mutual

/-- Following first steps down from the step leads to a leaf. -/
def opensWithLeaf : Step → Bool
  | leaf _ _ => true
  | .group _ _ steps => opensWithLeafList steps

/-- The first of the steps opens with a leaf. -/
def opensWithLeafList : List Step → Bool
  | [] => false
  | s :: _ => s.opensWithLeaf

end

/-- The actions of the leaves among the steps. -/
def ownLeaves (steps : List Step) : List ActionId :=
  steps.filterMap fun
    | leaf _ a => some a
    | .group _ _ _ => none

/-- What becomes of a step that is launched with the input `v`, and not refused. -/
def launchedWith (v : Json) : Step → Step
  | leaf _ a => leaf .waiting a
  | .group _ g steps => .group .waiting { g with stage := .triggered v } steps

/-- Nothing of the steps has been launched, they share no actions, and those of nested groups can
begin. -/
structure Pristine (steps : List Step) (w : World) : Prop where
  fresh : ∀ s ∈ steps, s.Fresh
  nodup : (leavesList steps).Nodup
  logged : w.Logged
  unbegun : ∀ s ∈ steps, s.isLeaf = false → ∀ a ∈ s.leaves, w.started? a = some false

variable {s t : Step} {steps : List Step} {w w' : World} {site : Site} {tasks : List Task}
  {v : Json} {i j k : Nat} {a : ActionId}

@[simp] theorem ownLeaves_leaf (slot : Slot) (a : ActionId) (steps : List Step) :
    ownLeaves (leaf slot a :: steps) = a :: ownLeaves steps := rfl

@[simp] theorem ownLeaves_group (slot : Slot) (g : Group) (steps rest : List Step) :
    ownLeaves (.group slot g steps :: rest) = ownLeaves rest := rfl

theorem mem_ownLeaves : a ∈ ownLeaves steps ↔ ∃ slot, leaf slot a ∈ steps := by
  induction steps with
  | nil => simp [ownLeaves]
  | cons s rest ih =>
    cases s with
    | leaf slot b =>
      rw [ownLeaves_leaf, List.mem_cons, ih]
      constructor
      · rintro (rfl | ⟨slot', h⟩)
        · exact ⟨slot, List.mem_cons_self⟩
        · exact ⟨slot', List.mem_cons_of_mem _ h⟩
      · rintro ⟨slot', h⟩
        rcases List.mem_cons.1 h with h | h
        · cases h
          exact .inl rfl
        · exact .inr ⟨slot', h⟩
    | group => simp [ih]

/-- Steps that share no actions. -/
theorem notMem_of_ne (h : (leavesList steps).Nodup) (hi : steps[i]? = some s)
    (hj : steps[j]? = some t) (hne : i ≠ j) (ha : a ∈ s.leaves) : a ∉ t.leaves :=
  notMem_of_count_le (List.nodup_iff_count_le_one.1 h a) hi hj hne ha

theorem notMem_leavesList_take (h : (leavesList steps).Nodup) (hj : steps[j]? = some t)
    (hkj : k ≤ j) (ha : a ∈ t.leaves) : a ∉ leavesList (steps.take k) := by
  rw [leavesList_eq, List.mem_flatMap]
  rintro ⟨s, hs, hm⟩
  obtain ⟨i, hi⟩ := List.mem_iff_getElem?.1 hs
  obtain ⟨hlt, -⟩ := List.getElem?_eq_some_iff.1 hi
  rw [List.length_take] at hlt
  rw [List.getElem?_take_of_lt (by omega)] at hi
  exact notMem_of_ne h hi hj (by omega) hm ha

theorem ownLeaves_sublist (steps : List Step) :
    (ownLeaves steps).Sublist (leavesList steps) := by
  induction steps with
  | nil => exact .slnil
  | cons s rest ih =>
    cases s with
    | leaf slot a => exact ih.cons_cons a
    | group slot g steps => exact ih.trans (List.sublist_append_right _ _)

theorem leaves_subset_take (hi : steps[i]? = some s) (h : i < k) :
    s.leaves ⊆ leavesList (steps.take k) := by
  refine leaves_subset (List.mem_of_getElem? (i := i) ?_)
  rw [List.getElem?_take_of_lt h, hi]

theorem leavesList_take_subset (h : j ≤ k) :
    leavesList (steps.take j) ⊆ leavesList (steps.take k) := by
  rw [leavesList_eq, leavesList_eq]
  exact ((List.take_sublist_take_left h).flatMap leaves).subset

theorem notMem_ownLeaves (h : (leavesList steps).Nodup) (hs : s ∈ steps) (hl : s.isLeaf = false)
    (ha : a ∈ s.leaves) : a ∉ ownLeaves steps := by
  intro hm
  obtain ⟨slot, ht⟩ := mem_ownLeaves.1 hm
  obtain ⟨i, hi⟩ := List.mem_iff_getElem?.1 hs
  obtain ⟨j, hj⟩ := List.mem_iff_getElem?.1 ht
  refine notMem_of_ne h hi hj ?_ ha (List.mem_singleton.2 rfl)
  rintro rfl
  obtain rfl := Option.some.inj (hi.symm.trans hj)
  cases hl

@[simp] theorem reset_launchedWith (v : Json) (s : Step) : (s.launchedWith v).reset = s.reset := by
  cases s <;> rfl

theorem isDone_launchedWith (v : Json) (s : Step) : (s.launchedWith v).isDone = false := by
  cases s <;> rfl

theorem launchedWith_fair (h : s.Fresh) (v : Json) :
    (s.launchedWith v).Arrayed ∧ (s.launchedWith v).IsLaunched := by
  cases s with
  | leaf slot a => exact ⟨arrayed_leaf, fun h => by cases h⟩
  | group slot g steps =>
    have hsteps := h.child
    exact ⟨arrayed_group.2 ⟨hsteps, fun s hm => (hsteps s hm).arrayed⟩,
      .inl ⟨rfl, fun h => (by cases h), fun h => (by cases h)⟩⟩

theorem launchBelow_leaf (index : Nat) (v : Json) (h : w.started? a = some false) :
    launchBelow site tasks index v (leaf .idle a) w =
      ((leaf .idle a).launchedWith v, (w.beginAction a v).1) := by
  simp only [launchBelow, launch, (World.beginAction_began v h).1, if_true, launchedWith]

theorem launchBelow_group {slot : Slot} {g : Group} (index : Nat) (v : Json)
    (h : (Step.group slot g steps).Fresh) :
    launchBelow site tasks index v (.group slot g steps) w =
      ((Step.group slot g steps).launchedWith v, w.schedule (site.child tasks index).task) := by
  simp only [launchBelow, launch, h.2.1, launchedWith]

/-- Leaves begin one after another as the steps are launched, and the tasks of groups are made
ready. -/
theorem launchAll_fresh (site : Site) (tasks : List Task) (v : Json) (index : Nat)
    (h : ∀ s ∈ steps, s.Fresh)
    (hnodup : (ownLeaves steps).Nodup)
    (hunbegun : ∀ a ∈ ownLeaves steps, w.started? a = some false) :
    (launchAll (launchBelow site tasks) v index steps w).1 = steps.map (launchedWith v) ∧
      (launchAll (launchBelow site tasks) v index steps w).2.begun =
        w.begun ++ (ownLeaves steps).map (·, v) ∧
      World.Evolves (ownLeaves steps) w (launchAll (launchBelow site tasks) v index steps w).2 ∧
      ∀ i s, steps[i]? = some s → s.isLeaf = false →
        (launchAll (launchBelow site tasks) v index steps w).2.Due
          (site.child tasks (index + i)).task := by
  induction steps generalizing index w with
  | nil => exact ⟨rfl, (List.append_nil _).symm, .refl w, fun i s hi => by cases hi⟩
  | cons s rest ih =>
    rw [List.forall_mem_cons] at h
    cases s with
    | leaf slot a =>
      obtain rfl : slot = .idle := h.1
      rw [ownLeaves_leaf, List.nodup_cons] at hnodup
      rw [ownLeaves_leaf, List.forall_mem_cons] at hunbegun
      have hlog := (World.beginAction_began v hunbegun.1).2.2
      have hbegins : World.Evolves [a] w (w.beginAction a v).1 :=
        .begins v (List.mem_singleton.2 rfl) (.refl w)
      have hstill (b : ActionId) (hb : b ∈ ownLeaves rest) :
          (w.beginAction a v).1.started? b = some false := by
        refine (hbegins.started?_eq fun hm => ?_).trans (hunbegun.2 b hb)
        exact hnodup.1 (List.mem_singleton.1 hm ▸ hb)
      obtain ⟨hsteps, hbegun, hev, hdue⟩ :=
        ih (w := (w.beginAction a v).1) (index + 1) h.2 hnodup.2 hstill
      simp only [launchAll, launchBelow_leaf index v hunbegun.1]
      refine ⟨congrArg _ hsteps, ?_, ?_, ?_⟩
      · rw [hbegun, hlog, List.append_assoc]
        rfl
      · exact (hbegins.mono (by simp)).trans (hev.mono (List.subset_cons_self _ _))
      · intro i s hi hl
        cases i with
        | zero =>
          cases hi
          cases hl
        | succ i =>
          have := hdue i s hi hl
          rwa [Nat.add_right_comm, Nat.add_assoc] at this
    | group slot g steps =>
      obtain ⟨hsteps, hbegun, hev, hdue⟩ := ih (w := w.schedule (site.child tasks index).task)
        (index + 1) h.2 hnodup fun b hb => ((World.schedule_keeps w _ fun _ => False).same b
          not_false).1.trans (hunbegun b hb)
      simp only [launchAll, launchBelow_group index v h.1]
      refine ⟨congrArg _ hsteps, ?_, ?_, ?_⟩
      · rw [hbegun, World.schedule_begun, ownLeaves_group]
      · exact (World.Evolves.schedule _ (.refl w)).trans hev
      · intro i s hi hl
        cases i with
        | zero => exact hev.keeps.due _ (World.due_schedule w _)
        | succ i =>
          have := hdue i s hi hl
          rwa [Nat.add_right_comm, Nat.add_assoc] at this

end Step

/-! ## Looking at branches -/

/-- A nested group that has just been launched, and that opens with a leaf, begins something when it
is looked at. -/
def Look.Opens (look : Look) (height : Nat) : Prop :=
  ∀ (i : Nat) (v : Json) (s : Step) (w : World), s.height ≤ height → s.isLeaf = false → s.Fresh →
    s.leaves.Nodup → w.Logged → (∀ a ∈ s.leaves, w.started? a = some false) →
    s.opensWithLeaf = true → ∃ b ∈ (look i (s.launchedWith v) w).world.begun, b.1 ∈ s.leaves

/-- What is known of the looks of a group at its steps. -/
structure Look.Onward (look : Look) (height : Nat) : Prop where
  fair : look.Fair height
  confined : look.Confined height
  opens : look.Opens height

namespace Group

open Step

/-- The first `k` of the branches have been looked at since the group launched all of them, and no
other.  Each of them that opens with a leaf has begun something, and in the order of the
branches. -/
structure Opened (v : Json) (steps : List Step) (w : World) (k : Nat) (steps' : List Step)
    (w' : World) : Prop where
  reset : resetList steps' = resetList steps
  fair : ∀ s ∈ steps', s.Arrayed ∧ s.IsLaunched
  unlooked : ∀ j, k ≤ j → steps'[j]? = steps[j]?.map (launchedWith v)
  evolves : World.Evolves (leavesList (steps.take k)) w w'
  begins : ∀ (i : Nat) (s : Step), i < k → steps[i]? = some s → s.isLeaf = false →
    s.opensWithLeaf = true → ∃ b ∈ w'.begun, b.1 ∈ s.leaves
  order : ∀ (i j : Nat) (s t : Step), i < j → steps[i]? = some s → steps[j]? = some t →
    s.isLeaf = false → t.isLeaf = false → s.opensWithLeaf = true →
      World.Precedes s.leaves t.leaves w'.begun

variable {v : Json} {steps steps' front rest : List Step} {w w' : World} {k m j : Nat} {s t : Step}
  {look : Look} {height : Nat} {g : Group} {tasks : List Task}

/-- The world is only changed by making tasks ready. -/
theorem Opened.scheduleAll (h : Opened v steps w k steps' w') (ts : List Task) :
    Opened v steps w k steps' (w'.scheduleAll ts) where
  reset := h.reset
  fair := h.fair
  unlooked := h.unlooked
  evolves := h.evolves.scheduleAll ts
  begins := by simpa only [World.scheduleAll_begun] using h.begins
  order := by simpa only [World.scheduleAll_begun] using h.order

/-- Nothing below a nested branch that has not been looked at can have begun. -/
theorem Opened.unbegun (h : Opened v steps w k steps' w') (hp : Pristine steps w) (hkj : k ≤ j)
    (hj : steps[j]? = some t) (hl : t.isLeaf = false) :
    ∀ a ∈ t.leaves, w'.started? a = some false := fun a ha =>
  (h.evolves.started?_eq (notMem_leavesList_take hp.nodup hj hkj ha)).trans
    (hp.unbegun t (List.mem_of_getElem? hj) hl a ha)

theorem Opened.not_begun (h : Opened v steps w k steps' w') (hp : Pristine steps w) (hkj : k ≤ j)
    (hj : steps[j]? = some t) (hl : t.isLeaf = false) : ∀ b ∈ w'.begun, b.1 ∉ t.leaves :=
  fun _ hb ha => (h.evolves.logged hp.logged).notMem hb (h.unbegun hp hkj hj hl _ ha)

/-- The branches as they have been launched. -/
theorem Opened.launched (hp : Pristine steps w) (v : Json) :
    Opened v steps w 0 (steps.map (launchedWith v)) w where
  reset := by simp [resetList_eq, Function.comp_def]
  fair s hs := by
    obtain ⟨t, ht, rfl⟩ := List.mem_map.1 hs
    exact launchedWith_fair (hp.fresh t ht) v
  unlooked j _ := List.getElem?_map
  evolves := .refl w
  begins i s hi := absurd hi (Nat.not_lt_zero i)
  order i j s t _ _ hj _ hl _ := World.precedes_of_notMem fun b hb ha =>
    hp.logged.notMem hb (hp.unbegun t (List.mem_of_getElem? hj) hl b.1 ha)

/-- The next branch is looked at, or one that has been looked at before. -/
theorem Opened.looks (h : Opened v steps w k steps' w') (hp : Pristine steps w)
    (hlook : look.Onward height) (hheight : heightList steps ≤ height) (hm : m ≤ k)
    (hs : steps'[m]? = some s) (ha : s.isAwaited = true)
    (ht : t = (look m s w').step ∨
      ∃ o, (look m s w').outcome = some o ∧ t = (look m s w').step.withSlot (.done o)) :
    Opened v steps w (max k (m + 1)) (steps'.set m t) (look m s w').world := by
  obtain ⟨harrayed, hlaunched⟩ := h.fair s (List.mem_of_getElem? hs)
  have hlow : s.height ≤ height :=
    heightList_le (heightList_of_resetList h.reset ▸ hheight) s (List.mem_of_getElem? hs)
  have hseen := hlook.fair m s w' hlow harrayed hlaunched ha
  have hconfined := hlook.confined m s w' hlow harrayed hlaunched ha
  have hreset : t.reset = s.reset := by
    rcases ht with rfl | ⟨o, -, rfl⟩
    · exact hseen.reset
    · exact hseen.reset_take o
  have htfair : t.Arrayed ∧ t.IsLaunched := by
    rcases ht with rfl | ⟨o, ho, rfl⟩
    · exact ⟨hseen.arrayed, hseen.launched hlaunched⟩
    · exact ⟨hseen.arrayed.withSlot _, hseen.take hlaunched ha ho⟩
  obtain ⟨s₀, hs₀, hsame⟩ := getElem?_of_resetList h.reset.symm hs
  obtain ⟨log, hlog, -⟩ := hconfined.exists_log
  have hgrown {b : ActionId × Json} (hb : b ∈ w'.begun) : b ∈ (look m s w').world.begun :=
    hlog ▸ List.mem_append_left log hb
  have hevolves : World.Evolves (leavesList (steps.take (max k (m + 1)))) w
      (look m s w').world := by
    refine (h.evolves.mono ?_).trans (hconfined.mono ?_)
    · exact leavesList_take_subset (Nat.le_max_left k (m + 1))
    · rw [← leaves_congr hsame]
      exact leaves_subset_take hs₀ (Nat.le_max_right k (m + 1))
  have hbegins (i : Nat) (u : Step) (hi : i < max k (m + 1)) (hu : steps[i]? = some u)
      (hl : u.isLeaf = false) (hopens : u.opensWithLeaf = true) :
      ∃ b ∈ (look m s w').world.begun, b.1 ∈ u.leaves := by
    by_cases hik : i < k
    · obtain ⟨b, hb, hbu⟩ := h.begins i u hik hu hl hopens
      exact ⟨b, hgrown hb, hbu⟩
    · -- This is the branch that is looked at now, for the first time.
      obtain rfl : i = m := by omega
      have hfirst := h.unlooked i (Nat.not_lt.1 hik)
      rw [hs, hu] at hfirst
      obtain rfl := Option.some.inj hfirst
      have hmem := List.mem_of_getElem? hu
      exact hlook.opens i v u w' (heightList_le hheight u hmem) hl (hp.fresh u hmem)
        (hp.nodup.sublist (leaves_sublist hmem)) (h.evolves.logged hp.logged)
        (h.unbegun hp (Nat.not_lt.1 hik) hu hl) hopens
  refine ⟨(resetList_set hs hreset).trans h.reset, ?_, ?_, hevolves, hbegins, ?_⟩
  · intro u hu
    rcases List.mem_or_eq_of_mem_set hu with hu | rfl
    · exact h.fair u hu
    · exact htfair
  · intro j hj
    rw [List.getElem?_set_ne (by omega)]
    exact h.unlooked j (by omega)
  · intro i j u u' hij hu hu' hl hl' hopens
    by_cases hj : max k (m + 1) ≤ j
    · refine World.precedes_of_notMem fun b hb hm => ?_
      refine (hevolves.logged hp.logged).notMem hb ?_
      exact (hevolves.started?_eq (notMem_leavesList_take hp.nodup hu' hj hm)).trans
        (hp.unbegun u' (List.mem_of_getElem? hu') hl' b.1 hm)
    · have hik : i < k := by omega
      rw [hlog]
      exact (h.order i j u u' hij hu hu' hl hl' hopens).append (h.begins i u hik hu hl hopens) log

theorem Opened.length (h : Opened v steps w k steps' w') : steps'.length = steps.length :=
  length_of_resetList h.reset

/-- A branch that has not been looked at is awaited. -/
theorem Opened.isAwaited (h : Opened v steps w k steps' w') (hs : steps'[k]? = some s) :
    s.isAwaited = true := by
  have hs' := h.unlooked k (Nat.le_refl k)
  rw [hs] at hs'
  obtain ⟨s₀, -, rfl⟩ := Option.map_eq_some_iff.1 hs'.symm
  exact (h.fair _ (List.mem_of_getElem? hs)).2.isAwaited (isDone_launchedWith v s₀)

/-! ## Looking at every branch -/

/-- A group that looks at every branch stops at the first failure only. -/
theorem driveEach_opened (hp : Pristine steps w) (hlook : look.Onward height)
    (hheight : heightList steps ≤ height) (h : Opened v steps w front.length (front ++ rest) w') :
    ∃ k, Opened v steps w k (front ++ (g.driveEach look front.length rest w').steps)
        (g.driveEach look front.length rest w').world ∧ (0 < steps.length → 0 < k) ∧
      (((g.driveEach look front.length rest w').outcome = none ∧ steps.length ≤ k) ∨
        ∃ i e s, i < k ∧ (g.driveEach look front.length rest w').outcome = some (.error e) ∧
          (front ++ (g.driveEach look front.length rest w').steps)[i]? = some s ∧
          s.taken? = some (.error e)) := by
  induction rest generalizing front w' with
  | nil =>
    have hlength := h.length
    rw [List.append_nil] at hlength
    exact ⟨front.length, h, fun hpos => hlength ▸ hpos, .inl ⟨rfl, hlength.ge⟩⟩
  | cons s rest ih =>
    have ha := h.isAwaited getElem?_middle
    have hlooks {t : Step} := h.looks (t := t) hp hlook hheight (Nat.le_refl _) getElem?_middle ha
    rw [Nat.max_eq_right (Nat.le_succ _)] at hlooks
    simp only [set_middle] at hlooks
    have onwards {t : Step} (ht : Opened v steps w (front.length + 1) (front ++ t :: rest)
        (look front.length s w').world) := @ih (front ++ [t]) (look front.length s w').world
          (by rwa [List.length_append, List.length_singleton, ← append_cons_assoc])
    simp only [List.length_append, List.length_singleton, ← append_cons_assoc] at onwards
    simp only [driveEach, isDone_eq_false_of_isAwaited ha, Bool.false_eq_true, if_false]
    cases ho : (look front.length s w').outcome with
    | none => exact onwards (hlooks (.inl rfl))
    | some o =>
      have htaken := hlooks (.inr ⟨o, ho, rfl⟩)
      cases o with
      | ok u => exact onwards htaken
      | error e =>
        exact ⟨front.length + 1, htaken, fun _ => Nat.succ_pos _, .inr ⟨front.length, e, _,
          Nat.lt_succ_self _, rfl, getElem?_middle, taken?_withSlot _ _⟩⟩

/-! ## Looking at woken branches -/

/-- The branches in the queue of a group of width `n` that has just been entered: those from `k` on,
which have not been looked at, and behind them others that have woken the group again. -/
def Queued (n k : Nat) (woken : List Nat) : Prop :=
  ∃ again, woken = List.range' k (n - k) ++ again ∧ ∀ m ∈ again, m < k

theorem Queued.mem {n : Nat} {woken : List Nat} (h : Queued n k woken) (hk : k ≤ j) (hj : j < n) :
    j ∈ woken := by
  obtain ⟨again, rfl, -⟩ := h
  refine List.mem_append_left _ (List.mem_range'_1.2 ⟨hk, ?_⟩)
  omega

/-- The head of the queue is the next branch, or all branches have been looked at. -/
theorem Queued.tail {n : Nat} {woken : List Nat} (h : Queued n k (m :: woken)) (hk : k ≤ n) :
    Queued n (max k (m + 1)) woken ∧ ((m = k ∧ k < n) ∨ (m < k ∧ k = n)) := by
  obtain ⟨again, heq, hagain⟩ := h
  rcases Nat.lt_or_eq_of_le hk with hlt | rfl
  · obtain ⟨d, hd⟩ : ∃ d, n - k = d + 1 := ⟨n - k - 1, by omega⟩
    rw [hd, List.range'_succ, List.cons_append] at heq
    obtain ⟨rfl, rfl⟩ := List.cons.inj heq
    rw [Nat.max_eq_right (Nat.le_succ m)]
    refine ⟨⟨again, by rw [show n - (m + 1) = d by omega], fun i hi => ?_⟩, .inl ⟨rfl, hlt⟩⟩
    exact Nat.lt_succ_of_lt (hagain i hi)
  · rw [Nat.sub_self, List.range'_zero, List.nil_append] at heq
    subst heq
    rw [List.forall_mem_cons] at hagain
    rw [Nat.max_eq_left hagain.1]
    exact ⟨⟨woken, by simp, hagain.2⟩, .inr ⟨hagain.1, rfl⟩⟩

theorem Queued.requeued {n : Nat} {rest : List Nat} (h : Queued n k rest) (hm : m < k) (g : Group)
    (woken : Bool) : Queued n k (g.requeued m rest woken).woken := by
  unfold Group.requeued
  split
  · unfold Group.enqueue
    split
    · exact h
    · obtain ⟨again, rfl, hagain⟩ := h
      refine ⟨again ++ [m], List.append_assoc .., fun i hi => ?_⟩
      rcases List.mem_append.1 hi with hi | hi
      · exact hagain i hi
      · exact List.mem_singleton.1 hi ▸ hm
  · exact h

/-- The branches of a group of this kind have been looked at in order, and `d` is what this has made
of the group.  If not all of them have been looked at, then the group has a verdict, or it gives way
and whoever awaits it is woken. -/
def SweptInOrder (v : Json) (steps : List Step) (w : World) (tasks : List Task) (kind : GroupKind)
    (d : Drive) : Prop :=
  ∃ k, Opened v steps w k d.steps d.world ∧ (0 < steps.length → 0 < k) ∧ d.group.kind = kind ∧
    (k < steps.length →
      (d.outcome = none ∧ (∀ j, k ≤ j → j < steps.length → j ∈ d.group.woken) ∧
        ∀ t ∈ tasks, d.world.Due t) ∨
      ∃ o, d.outcome = some o ∧ d.group.verdict d.steps = some o)

/-- With every round one more branch has been looked at, until there is none that has not. -/
theorem Opened.turn {d : Drive} {rest : List Nat} {p : Polled}
    (h : Opened v steps w k d.steps d.world) (hp : Pristine steps w) (hlook : look.Onward height)
    (hheight : heightList steps ≤ height) (hqueued : Queued steps.length k d.group.woken)
    (hk : k ≤ steps.length) (ht : Turn look d j rest s p) :
    Queued steps.length (max k (j + 1)) (d.group.requeued j rest p.signalled).woken ∧
      (k < steps.length → k < max k (j + 1)) ∧ max k (j + 1) ≤ steps.length ∧
      (∀ t, (t = p.step ∨ ∃ o, p.outcome = some o ∧ t = p.step.withSlot (.done o)) →
        Opened v steps w (max k (j + 1)) (d.steps.set j t) p.world) := by
  rw [ht.woken] at hqueued
  obtain ⟨hrest, hwhere⟩ := hqueued.tail hk
  have ha := (h.fair s (List.mem_of_getElem? ht.step)).2.isAwaited ht.undone
  refine ⟨hrest.requeued (by omega) d.group p.signalled, by omega, by omega, fun t => ?_⟩
  have hlooks := h.looks (t := t) hp hlook hheight (by omega) ht.step ha
  rw [ht.looked] at hlooks
  exact hlooks

theorem Rounds.opened {fuel live looked again : Nat} {d d' : Drive} (hp : Pristine steps w)
    (hlook : look.Onward height) (hheight : heightList steps ≤ height)
    (hr : Rounds look tasks fuel live looked again d d')
    (h : Opened v steps w k d.steps d.world) (hqueued : Queued steps.length k d.group.woken)
    (hk : k ≤ steps.length) (hfuel : steps.length - k ≤ fuel) :
    SweptInOrder v steps w tasks d.group.kind d' := by
  have still {d : Drive} {k : Nat} (h : Opened v steps w k d.steps d.world)
      (hall : k = steps.length) : SweptInOrder v steps w tasks d.group.kind d :=
    ⟨k, h, fun hpos => hall ▸ hpos, rfl, fun hlt => absurd hall (Nat.ne_of_lt hlt)⟩
  induction hr generalizing k with
  | exhausted => exact still h (by omega)
  | idle hwoken =>
    refine still h ?_
    by_contra hne
    have := hqueued.mem (Nat.le_refl k) (by omega)
    rw [hwoken] at this
    cases this
  | @stale _ _ _ _ j rest d _ hwoken hdone _ ih =>
    rw [hwoken] at hqueued
    obtain ⟨hrest, hwhere⟩ := hqueued.tail hk
    -- A branch that has not been looked at is not done.
    have hjk : j < k := by
      refine hwhere.elim (fun hj => ?_) And.left
      obtain ⟨rfl, hlt⟩ := hj
      obtain ⟨s, hs⟩ : ∃ s, d.steps[j]? = some s :=
        ⟨_, List.getElem?_eq_getElem (by rw [h.length]; exact hlt)⟩
      have hopen := isDone_eq_false_of_isAwaited (h.isAwaited hs)
      rw [hdone _ hs] at hopen
      cases hopen
    rw [Nat.max_eq_left hjk] at hrest
    exact ih h hrest hk (by omega)
  | pauses ht ho =>
    obtain ⟨hrequeued, -, -, hlooked⟩ := h.turn hp hlook hheight hqueued hk ht
    refine ⟨_, (hlooked _ (.inl rfl)).scheduleAll tasks, fun _ => by omega, requeued_kind,
      fun _ => .inl ⟨rfl, fun i hi hlt => hrequeued.mem hi hlt, fun t => World.due_scheduleAll _⟩⟩
  | passes ht ho _ _ ih =>
    obtain ⟨hrequeued, hnext, hle, hlooked⟩ := h.turn hp hlook hheight hqueued hk ht
    have := ih (hlooked _ (.inl rfl)) hrequeued hle (by omega)
    rwa [Drive.passing, requeued_kind] at this
  | @decides _ _ _ _ _ _ _ _ _ o verdict ht ho hv =>
    obtain ⟨-, -, -, hlooked⟩ := h.turn hp hlook hheight hqueued hk ht
    exact ⟨_, hlooked _ (.inr ⟨o, ho, rfl⟩), fun _ => by omega,
      (note_kind o).trans requeued_kind, fun _ => .inr ⟨verdict, rfl, hv⟩⟩
  | @takes _ _ _ _ _ _ _ _ _ _ o ht ho hv _ ih =>
    obtain ⟨hrequeued, hnext, hle, hlooked⟩ := h.turn hp hlook hheight hqueued hk ht
    have := ih (hlooked _ (.inr ⟨o, ho, rfl⟩)) ((note_woken o).symm ▸ hrequeued) hle (by omega)
    rwa [Drive.taking, note_kind, requeued_kind] at this

/-- While a branch is not done, a group has a verdict only if it ends at the first failure and a
branch before that one has failed. -/
theorem failed_of_verdict {o : Outcome} (hj : steps[j]? = some t) (hd : t.isDone = false)
    (hv : g.verdict steps = some o) : (∃ keys, g.kind = .parallel keys .failFast) ∧
      ∃ i e s, i < j ∧ steps[i]? = some s ∧ s.taken? = some (.error e) ∧ o = .error e := by
  have htaken : t.taken? = none := taken?_eq_none_iff.2 hd
  unfold verdict at hv
  cases hk : g.kind with
  | sequence =>
    rw [hk] at hv
    cases hv
  | parallel keys policy =>
    cases policy with
    | settleAll =>
      have hall : steps.all isDone = false := by
        rw [List.all_eq_false]
        exact ⟨t, List.mem_of_getElem? hj, by rw [hd]; exact Bool.false_ne_true⟩
      simp only [hk, hall, Bool.false_eq_true, if_false] at hv
      cases hv
    | failFast =>
      simp only [hk, takenInOrder_eq] at hv
      refine ⟨⟨keys, rfl⟩, ?_⟩
      have hopen : t.succeeded = false := by
        rw [succeeded, htaken]
        rfl
      cases hfind : steps.find? fun s => !s.succeeded with
      | none =>
        have := List.find?_eq_none.1 hfind t (List.mem_of_getElem? hj)
        rw [hopen] at this
        exact absurd rfl this
      | some s =>
        rw [hfind] at hv
        obtain ⟨hs, i, hlt, hi, hbefore⟩ := List.find?_eq_some_iff_getElem.1 hfind
        have hi : steps[i]? = some s := List.getElem?_eq_some_iff.2 ⟨hlt, hi⟩
        have hv : s.taken? = some o := hv
        cases o with
        | ok u =>
          rw [succeeded_iff.2 ⟨u, hv⟩] at hs
          cases hs
        | error e =>
          refine ⟨i, e, s, ?_, hi, hv, rfl⟩
          rcases Nat.lt_trichotomy i j with h | rfl | h
          · exact h
          · rw [Option.some.inj (hi.symm.trans hj), htaken] at hv
            cases hv
          · have hj' := hbefore j h
            rw [(List.getElem?_eq_some_iff.1 hj).2, hopen] at hj'
            cases hj'

/-- Why a group that has been entered has not looked at a branch: it ends at the first failure, and
a branch before that one has failed at once; or it keeps track of wakes and gives way, with the
branch in its queue and everybody woken who awaits it. -/
inductive Withheld (tasks : List Task) (kind : GroupKind) (j : Nat) (d : Drive) : Prop
  | fails {keys : List String} {i : Nat} {e : PlaylistError} {s : Step} :
      kind = .parallel keys .failFast → i < j → d.steps[i]? = some s →
      s.taken? = some (.error e) → d.outcome = some (.error e) → Withheld tasks kind j d
  | yields : d.group.tracksWakes d.steps.length = true → d.outcome = none → j ∈ d.group.woken →
      (∀ t ∈ tasks, d.world.Due t) → Withheld tasks kind j d

/-- The branches that a group looks at when it is entered come before those that it does not look
at. -/
theorem driveParallel_opened (tasks : List Task) (hp : Pristine steps w)
    (hlook : look.Onward height)
    (hheight : heightList steps ≤ height) (hk : g.kind ≠ .sequence) :
    ∃ k, Opened v steps w k
        ((g.launched steps.length).driveParallel look tasks (steps.map (launchedWith v)) w).steps
        ((g.launched steps.length).driveParallel look tasks (steps.map (launchedWith v)) w).world ∧
      (0 < steps.length → 0 < k) ∧ ∀ j, k ≤ j → j < steps.length → Withheld tasks g.kind j
        ((g.launched steps.length).driveParallel look tasks (steps.map (launchedWith v)) w) := by
  have hlaunched := Opened.launched hp v
  have hnone (hpos : 0 < steps.length) :
      (g.launched steps.length).verdict (steps.map (launchedWith v)) = none := by
    cases hv : (g.launched steps.length).verdict (steps.map (launchedWith v)) with
    | none => rfl
    | some o =>
      have hfirst : (steps.map (launchedWith v))[0]? = some (steps[0].launchedWith v) := by
        rw [List.getElem?_map, List.getElem?_eq_getElem hpos]
        rfl
      obtain ⟨-, i, -, -, hi, -⟩ := failed_of_verdict hfirst (isDone_launchedWith v _) hv
      exact absurd hi (Nat.not_lt_zero i)
  unfold driveParallel
  split
  next o hv =>
    refine ⟨0, hlaunched, fun hpos => ?_, fun j _ hj => ?_⟩
    · rw [hnone hpos] at hv
      cases hv
    · rw [hnone (Nat.zero_lt_of_lt hj)] at hv
      cases hv
  next =>
    rw [List.length_map]
    have htracks : (g.launched steps.length).tracksWakes steps.length =
        g.tracksWakes steps.length := tracksWakes_congr rfl _
    cases ht : g.tracksWakes steps.length with
    | false =>
      simp only [htracks, ht, Bool.false_eq_true, if_false]
      have hfront : Opened v steps w ([] : List Step).length ([] ++ steps.map (launchedWith v)) w :=
        hlaunched
      obtain ⟨k, hopened, hpos, hstop⟩ :=
        driveEach_opened (g := g.launched steps.length) hp hlook hheight hfront
      refine ⟨k, hopened, hpos, fun j hkj hj => ?_⟩
      rcases hstop with ⟨-, hle⟩ | ⟨i, e, s, hi, ho, hs, he⟩
      · omega
      · obtain ⟨keys, hkind⟩ : ∃ keys, g.kind = .parallel keys .failFast := by
          unfold tracksWakes at ht
          cases hkind : g.kind with
          | sequence => exact absurd hkind hk
          | parallel keys policy =>
            cases policy with
            | failFast => exact ⟨keys, rfl⟩
            | settleAll =>
              rw [hkind] at ht
              cases ht
        exact .fails hkind (Nat.lt_of_lt_of_le hi hkj) hs he (Option.or_eq_some_iff.2 (.inl ho))
    | true =>
      simp only [htracks, ht, if_true]
      obtain ⟨k, hopened, hpos, hkind, hstop⟩ := (driveWoken_rounds look tasks
        ((steps.length + 2) * (steps.length + 2) + (g.launched steps.length).woken.length)
        ((steps.map (launchedWith v)).filter fun s => !s.isDone).length 0 0
        ⟨g.launched steps.length, steps.map (launchedWith v), w, none, false⟩).opened hp hlook
        hheight hlaunched ⟨[], by simp [launched, ht, List.range_eq_range'], by simp⟩
        (Nat.zero_le _) (by
          have := Nat.le_mul_self (steps.length + 2)
          omega)
      refine ⟨k, hopened, hpos, fun j hkj hj => ?_⟩
      rcases hstop (Nat.lt_of_le_of_lt hkj hj) with ⟨ho, hwoken, hdue⟩ | ⟨o, ho, hv⟩
      · refine .yields ?_ ho (hwoken j hkj hj) hdue
        rw [hopened.length, tracksWakes_congr hkind]
        exact htracks.trans ht
      · have hkth := hopened.unlooked k (Nat.le_refl k)
        rw [List.getElem?_eq_getElem (Nat.lt_of_le_of_lt hkj hj), Option.map_some] at hkth
        obtain ⟨⟨keys, hfast⟩, i, e, s, hi, hs, he, rfl⟩ :=
          failed_of_verdict hkth (isDone_launchedWith v _) hv
        exact .fails (hkind.symm.trans hfast) (Nat.lt_of_lt_of_le hi hkj) hs he ho

end Group

end Rundown
