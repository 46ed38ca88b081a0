import Rundown.Proofs.Engine.FailFast
import Rundown.Proofs.Engine.FailureSource
import Rundown.Proofs.Engine.InOrder
import Rundown.Proofs.Engine.Lasting

/-!
# The life cycles of groups inside one another

Every group of a playlist has a state of its own, which its own task and the looks of the groups
around it write.  `Production.nestedStates_spec` says how these states agree at any time, whatever
order tasks run in: nothing below a group that is as it was created has been launched, everything
below a completed group has completed, the nested groups of a sequence run one after another, and
those of a parallel group have all been played once it was looked at.
-/

namespace Rundown

namespace Step

variable {x : Scene} {place : List Nat} {v u : Json} {s t : Step} {slot slot' : Slot}
  {g g' : Group} {steps steps' : List Step} {o : Outcome}

/-- A group whose outcome the group around it has taken has ended with that. -/
theorem Tied.finished (h : (group slot g steps).Tied)
    (ht : (group slot g steps).taken? = some o) : g.stage = .finished o := by
  rcases h with rfl | ⟨o', rfl, hs⟩
  · cases ht
  · cases ht
    exact hs

/-- Entered groups show that they have been played. -/
theorem Entered.state_ne_created (h : (group slot g steps).Entered x place v) :
    g.stage.state ≠ .created := fun hs =>
  (Stage.state_eq_created.1 hs).elim (Group.Runs.created h) (Group.Runs.expired h)

/-- The step has failed: the group has, or what the group around a leaf gets from it is a
failure. -/
def FailedItself (w : World) : Step → Prop
  | leaf slot a => (leaf slot a).Failed w
  | .group _ g _ => g.stage.state = .failed

instance (w : World) : DecidablePred (FailedItself w)
  | leaf slot a => inferInstanceAs (Decidable ((leaf slot a).Failed w))
  | .group _ g _ => inferInstanceAs (Decidable (g.stage.state = .failed))

/-! ## Downwards -/

/-- Below a group that shows that it has not been played, nothing has been launched. -/
theorem Known.fresh_below (h : (group slot g steps).Known x place)
    (hs : g.stage.state = .created) {i : Nat} {below : List Nat}
    (hat : (group slot g steps).at? (i :: below) = some s) : s.Fresh := by
  obtain ⟨t, hi, hat⟩ := Option.bind_eq_some_iff.1 hat
  obtain ⟨-, -, -, hu⟩ := Engine.Known.unplayed h (Stage.state_eq_created.1 hs)
  exact (hu t (List.mem_of_getElem? hi)).1.at? hat

/-- Every group below one that has ended with a value has done so too. -/
theorem Entered.completed_below {below : List Nat} (h : (group slot g steps).Entered x place v)
    (hs : g.stage = .finished (.ok u))
    (hat : (group slot g steps).at? below = some (.group slot' g' steps')) :
    g'.stage.state = .completed := by
  induction below generalizing slot g steps place v u with
  | nil =>
    cases hat
    exact Stage.state_eq_completed.2 ⟨u, hs⟩
  | cons i below ih =>
    obtain ⟨t, hi, hat⟩ := Option.bind_eq_some_iff.1 hat
    obtain ⟨_, _, _, ht, htied, htaken⟩ := h.all_taken hs t (List.mem_of_getElem? hi)
    cases t with
    | leaf => cases below <;> cases hat
    | group => exact ih ht (htied.finished htaken) hat

theorem Known.completed_below {below : List Nat} (h : (group slot g steps).Known x place)
    (hs : g.stage.state = .completed)
    (hat : (group slot g steps).at? below = some (.group slot' g' steps')) :
    g'.stage.state = .completed := by
  obtain ⟨v, hent⟩ := h.entered (by rw [hs]; exact fun h => by cases h)
  obtain ⟨u, hu⟩ := Stage.state_eq_completed.1 hs
  exact hent.completed_below hu hat

/-! ## Side by side -/

/-- A nested group of a sequence is played only after those before it have completed. -/
theorem Known.completed_before {i j : Nat} (h : (group slot g steps).Known x place)
    (hk : g.kind = .sequence) (hij : i < j) (hi : steps[i]? = some s) (hs : s.isLeaf = false)
    (hj : steps[j]? = some t) (ht : t.stage.state ≠ .created) : s.stage.state = .completed := by
  rcases h.untouched_or_taken hk hij hi hj with hu | ⟨_, _, u, -, htied, htaken⟩
  · cases t with
    | leaf => exact absurd rfl ht
    | group slot' g' steps' =>
      rw [stage, hu.1.2.1] at ht
      exact absurd rfl ht
  · cases s with
    | leaf => cases hs
    | group => exact Stage.state_eq_completed.2 ⟨u, htied.finished htaken⟩

/-- At most one nested group of a sequence runs. -/
theorem Known.running_unique {i j : Nat} (h : (group slot g steps).Known x place)
    (hk : g.kind = .sequence) (hi : steps[i]? = some s) (hj : steps[j]? = some t)
    (hs : s.stage.state = .running) (ht : t.stage.state = .running) : i = j := by
  have hgroup {r : Step} (hr : r.stage.state = .running) : r.isLeaf = false := by
    cases r with
    | leaf => cases hr
    | group => rfl
  have hearlier {i j : Nat} {s t : Step} (hij : i < j) (hi : steps[i]? = some s)
      (hj : steps[j]? = some t) (hs : s.stage.state = .running)
      (ht : t.stage.state = .running) : False := by
    have hcompleted := h.completed_before hk hij hi (hgroup hs) hj
      (by rw [ht]; exact fun h => by cases h)
    cases hs.symm.trans hcompleted
  rcases Nat.lt_trichotomy i j with hij | hij | hij
  · exact (hearlier hij hi hj hs ht).elim
  · exact hij
  · exact (hearlier hij hj hi ht hs).elim

/-- Once a parallel group was looked at, all its nested groups have been played. -/
theorem Known.played_together (h : (group slot g steps).Known x place) (hk : g.kind ≠ .sequence)
    (hstarted : g.stage.isStarted = true) (hm : s ∈ steps) (hs : s.isLeaf = false) :
    s.stage.state ≠ .created := by
  have hne : g.stage.state ≠ .created := fun hc => by
    rcases Stage.state_eq_created.1 hc with hc | hc <;> rw [hc] at hstarted <;> cases hstarted
  obtain ⟨v, hent⟩ := h.entered hne
  have hr : g.Runs x place v steps _ _ := hent
  obtain ⟨i, hi⟩ := List.mem_iff_getElem?.1 hm
  have ht := (enteredAll_iff.1 (hr.together hstarted hk) i s hi).1
  cases s with
  | leaf => cases hs
  | group slot' g' steps' => exact ht.state_ne_created

end Step

namespace Production

open Engine Step

variable {P : Production} {place : List Nat} {slot : Slot} {g : Group} {steps : List Step}
  {s t : Step} {earlier later : List Event}

/-- Steps inside a step are reached by way of it. -/
theorem at?_below (hat : P.at? place = some s) (below : List Nat) :
    P.at? (place ++ below) = s.at? below := by
  obtain ⟨p, hp, hat⟩ := Option.bind_eq_some_iff.1 hat
  rw [at?, hp, Option.bind_some, at?_append, hat]
  rfl

/-- A leaf that had failed is not done with a value. -/
theorem leaf_not_ok_of_failed (hhistory : P.history = earlier ++ later) {slot slot' : Slot}
    {a : ActionId} (hearlier : (P.upTo earlier).at? place = some (.leaf slot a))
    (hfailed : (leaf slot a).Failed (P.upTo earlier).engine.world)
    (hat : P.at? place = some (.leaf slot' a)) (u : Json) : slot' ≠ .done (.ok u) := by
  rintro rfl
  obtain ⟨first, hbefore, hnow⟩ := exists_firstLaunches_upTo hhistory
  -- A leaf with a value was the first to launch its action, so it was never refused.
  have howner : first a = some (P.id, place) := by
    by_contra hother
    rcases hnow.others P.id place _ a hat (fun h => by cases h) hother with h | h <;> cases h
  have hok : P.engine.world.settlement? a = some (.ok u) := by
    rcases hnow.owner P.id place _ a hat howner with h | h | ⟨_ | u', hs, h⟩ <;> cases h
    exact hs
  have hlast (e : ActionError)
      (he : (P.upTo earlier).engine.world.settlement? a = some (.error e)) : False := by
    have hturns := ((P.upTo earlier).sound.after later).2
    rw [P.upTo_after hhistory] at hturns
    cases hok.symm.trans (hturns.settled a _ he)
  obtain ⟨e, he⟩ := hfailed
  have hsettled (he : ((P.upTo earlier).engine.world.settlement? a).map
      (Except.mapError .action) = some (.error e)) : False := by
    obtain ⟨_ | _, hs, he⟩ := Option.map_eq_some_iff.1 he
    · exact hlast _ hs
    · cases he
  rcases hbefore.owner P.id place slot a hearlier howner with rfl | rfl | ⟨_ | u', hs, rfl⟩
  · exact hsettled he
  · exact hsettled he
  · exact hlast _ hs
  · cases he

/-- The value of a step that had failed is never taken. -/
theorem taken?_ne_of_failed (hhistory : P.history = earlier ++ later)
    (hearlier : (P.upTo earlier).at? place = some s)
    (hfailed : s.FailedItself (P.upTo earlier).engine.world)
    (hat : P.at? place = some t) (htied : t.Tied) (u : Json) : t.taken? ≠ some (.ok u) := by
  intro htaken
  have hreset := reset_upTo hhistory hearlier hat
  cases s with
  | group slot g steps =>
    obtain ⟨e, he⟩ := Stage.state_eq_failed.1 hfailed
    obtain ⟨p, hp, hplace⟩ := Option.bind_eq_some_iff.1 hearlier
    have hended := (P.upTo earlier).sound.after_ended (o := .error e) ⟨p, hp, _, hplace, he⟩ later
    rw [P.upTo_after hhistory] at hended
    obtain ⟨p', hp', t', hat', hended⟩ := hended
    obtain rfl : t' = t :=
      Option.some.inj ((Option.bind_eq_some_iff.2 ⟨p', hp', hat'⟩).symm.trans hat)
    cases t' with
    | leaf => cases hended
    | group slot' g' steps' => cases hended.symm.trans (htied.finished htaken)
  | leaf slot a =>
    cases t with
    | group => cases hreset
    | leaf slot' b =>
      cases hreset
      have hok : slot' = .done (.ok u) := by
        cases slot' <;> cases htaken
        rfl
      exact leaf_not_ok_of_failed hhistory hearlier hfailed hat u hok

/-! ## Agreement -/

/-- How the life cycles of the steps below the group at `place` agree with its own. -/
structure Nests (P : Production) (place : List Nat) (g : Group) (steps : List Step) : Prop where
  /-- Every group below one that was not played is as it was created. -/
  created : g.stage.state = .created → ∀ below slot' g' steps',
    P.at? (place ++ below) = some (.group slot' g' steps') → g'.stage.state = .created
  /-- No leaf below it was launched, and what has begun was begun by leaves elsewhere. -/
  unbegun : g.stage.state = .created →
    (∀ below slot' a, P.at? (place ++ below) = some (.leaf slot' a) → slot' = .idle) ∧
    ∃ first, P.engine.FirstLaunches first ∧
      ∀ b ∈ P.engine.world.begun, ∀ below, first b.1 ≠ some (P.id, place ++ below)
  /-- Every group below one that has completed has completed. -/
  completed : g.stage.state = .completed → ∀ below slot' g' steps',
    P.at? (place ++ below) = some (.group slot' g' steps') → g'.stage.state = .completed
  /-- A nested group of a sequence is played when those before it have completed. -/
  inOrder : g.kind = .sequence → ∀ (i j : Nat) (s t : Step), i < j →
    steps[i]? = some s → s.isLeaf = false → steps[j]? = some t →
    t.stage.state ≠ .created → s.stage.state = .completed
  /-- At most one nested group of a sequence runs. -/
  oneRunning : g.kind = .sequence → ∀ (i j : Nat) (s t : Step),
    steps[i]? = some s → steps[j]? = some t →
    s.stage.state = .running → t.stage.state = .running → i = j
  /-- After a step has failed, a nested group or a leaf, no later step of the sequence is launched,
  whatever follows. -/
  afterFailure : g.kind = .sequence → ∀ (earlier later : List Event) (i j : Nat) (s t : Step),
    P.history = earlier ++ later → (P.upTo earlier).at? (place ++ [i]) = some s →
    s.FailedItself (P.upTo earlier).engine.world → i < j → steps[j]? = some t → t.Fresh
  /-- The nested groups of a parallel group are all played when it is first looked at. -/
  together : g.kind ≠ .sequence → g.stage.isStarted = true →
    ∀ s ∈ steps, s.isLeaf = false → s.stage.state ≠ .created

/-- What has begun was begun by leaves elsewhere if no leaf at the place or below was launched. -/
theorem exists_firstLaunches_elsewhere
    (hidle : ∀ below slot a, P.at? (place ++ below) = some (.leaf slot a) → slot = .idle) :
    ∃ first, P.engine.FirstLaunches first ∧
      ∀ b ∈ P.engine.world.begun, ∀ below, first b.1 ≠ some (P.id, place ++ below) := by
  obtain ⟨first, hfirst⟩ := P.exists_firstLaunches
  refine ⟨first, hfirst, fun b hb below heq => ?_⟩
  obtain ⟨id, place', slot, howner, hleaf, hslot⟩ := hfirst.begun b hb
  cases heq.symm.trans howner
  exact hslot (hidle below slot b.1 hleaf)

/-- Once a step of a sequence has failed, no later one is launched. -/
theorem fresh_after_failed (hat : P.at? place = some (.group slot g steps))
    (hk : g.kind = .sequence) (hhistory : P.history = earlier ++ later) {i j : Nat}
    (hearlier : (P.upTo earlier).at? (place ++ [i]) = some s)
    (hfailed : s.FailedItself (P.upTo earlier).engine.world)
    (hij : i < j) (hj : steps[j]? = some t) : t.Fresh := by
  have hlength : i < steps.length := hij.trans (List.getElem?_eq_some_iff.1 hj).1
  have hi : steps[i]? = some steps[i] := List.getElem?_eq_getElem hlength
  rcases (known_at? P.sound hat).1.untouched_or_taken hk hij hi hj with
    hu | ⟨_, _, u, -, htied, htaken⟩
  · exact hu.1
  · exact absurd htaken
      (taken?_ne_of_failed hhistory hearlier hfailed (at?_step hat hi) htied u)

/-- At any time, and whatever order tasks run in, the life cycles of nested groups agree with those
of the groups around them. -/
theorem nestedStates_spec (P : Production) (hat : P.at? place = some (.group slot g steps)) :
    P.Nests place g steps := by
  have hknown := (known_at? P.sound hat).1
  have hbelow := at?_below hat
  have hidle (hs : g.stage.state = .created) (below : List Nat) (slot' : Slot) (a : ActionId)
      (hleaf : P.at? (place ++ below) = some (.leaf slot' a)) : slot' = .idle := by
    rw [hbelow] at hleaf
    cases below with
    | nil => cases hleaf
    | cons i below => exact hknown.fresh_below hs hleaf
  exact {
    created := fun hs below slot' g' steps' hgroup => by
      rw [hbelow] at hgroup
      cases below with
      | nil =>
        cases hgroup
        exact hs
      | cons i below => rw [(hknown.fresh_below hs hgroup).2.1, Stage.state]
    unbegun := fun hs => ⟨hidle hs, exists_firstLaunches_elsewhere (hidle hs)⟩
    completed := fun hs below slot' g' steps' hgroup => by
      rw [hbelow] at hgroup
      exact hknown.completed_below hs hgroup
    inOrder := fun hk i j s t hij hi hs hj ht => hknown.completed_before hk hij hi hs hj ht
    oneRunning := fun hk i j s t hi hj hs ht => hknown.running_unique hk hi hj hs ht
    afterFailure := fun hk earlier later i j s t hhistory hearlier hfailed hij hj =>
      fresh_after_failed hat hk hhistory hearlier hfailed hij hj
    together := fun hk hstarted s hm hs => hknown.played_together hk hstarted hm hs }

/-- Two branches, of which the second is a sequence, before a sequence and one more step.  The first
branch fails, and the second one completes after its parent has failed. -/
def firstSectionFails : Production :=
  ofCompile 1 (List.replicate 4 (.build .inert)) ⟨.empty, .default⟩
    (.sequence [.parallel [("a", .instance 0), ("b", .sequence [.instance 1])],
      .sequence [.instance 2], .instance 3]) 0
    [.play 0 .null true, .run .arrivals 0, .settle 0 (.error (.failed "no")), .run .ready 0,
      .run .arrivals 0, .run .ready 0, .settle 1 (.ok .null), .run .ready 0, .run .arrivals 0]
    (by decide +kernel) (by decide +kernel)

/-- The sequence after the section that has failed is still as it was created. -/
theorem nestedStates_spec_firstSectionFails : ∃ slot g steps t,
    firstSectionFails.at? [] = some (.group slot g steps) ∧
      firstSectionFails.Nests [] g steps ∧
      steps[1]? = some t ∧ t.isLeaf = false ∧ t.Fresh := by
  have hroot : ∃ r ∈ firstSectionFails.at? [], isSequenceOf [[0, 1], [2], [3]] r = true := by
    decide +kernel
  have hfailed : ∃ s ∈ (firstSectionFails.upTo (firstSectionFails.history.take 4)).at? [0],
      s.FailedItself
        (firstSectionFails.upTo (firstSectionFails.history.take 4)).engine.world := by
    decide +kernel
  have hnext : ∃ t ∈ firstSectionFails.at? [1], t.isLeaf = false := by decide +kernel
  obtain ⟨r, hr, hmatch⟩ := hroot
  obtain ⟨s, hs, hfailed⟩ := hfailed
  obtain ⟨t, ht, hgroup⟩ := hnext
  cases r with
  | leaf => cases hmatch
  | group slot g steps =>
    have hnests := nestedStates_spec firstSectionFails hr
    have hj : steps[1]? = some t := by
      have hat := (at?_below hr [1]).symm.trans ht
      obtain ⟨t', hj, hat⟩ := Option.bind_eq_some_iff.1 hat
      cases hat
      exact hj
    have hfresh := hnests.afterFailure (of_decide_eq_true hmatch).1 _ _ 0 1 s t
      (List.take_append_drop 4 _).symm hs hfailed Nat.one_pos hj
    exact ⟨slot, g, steps, t, hr, hnests, hj, hgroup, hfresh⟩

end Production

end Rundown
