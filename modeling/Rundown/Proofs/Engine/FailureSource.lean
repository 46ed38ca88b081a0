import Rundown.Proofs.Engine.FirstLaunch
import Rundown.Proofs.Engine.Performance

/-!
# Where failures come from

A group that has failed has its failure from a leaf below it: the error with which the leaf's action
settled, or the refusal of a leaf whose action another leaf had begun
(`Production.failure_source`).  Playing a nested playlist never fails, and none is given up while
the group around it waits for it, so the other errors of `PlaylistError` never come up.
-/

namespace Rundown

namespace Step

variable {x : Scene} {place : List Nat} {index i : Nat} {v : Json} {o : Option Outcome}
  {s root : Step} {slot : Slot} {g : Group} {steps : List Step} {e : PlaylistError}

/-! ## Steps inside a playlist that was played -/

/-- The group around the step has launched it and sees how it stands, or nobody has touched it. -/
def Placed (x : Scene) (place : List Nat) (s : Step) : Prop :=
  (∃ v, s.Entered x place v ∧ s.Tied) ∨ s.Untouched x

theorem EnteredInOrder.placed (h : EnteredInOrder x place index v o steps)
    (hi : steps[i]? = some s) : s.Placed x (place ++ [index + i]) := by
  induction steps generalizing index v i with
  | nil => cases hi
  | cons t rest ih =>
    obtain ⟨ht, htied, hnext⟩ := h
    cases i with
    | zero =>
      cases hi
      exact .inl ⟨v, ht, htied⟩
    | succ i =>
      rw [List.getElem?_cons_succ] at hi
      split at hnext
      · exact .inr (hnext.2 s (List.mem_of_getElem? hi))
      · exact .inr (hnext.2 s (List.mem_of_getElem? hi))
      · have := ih hnext hi
        rwa [Nat.add_assoc, Nat.add_comm 1 i] at this

theorem Entered.placed_child (h : (group slot g steps).Entered x place v)
    (hi : steps[i]? = some s) : s.Placed x (place ++ [i]) := by
  have hr : g.Runs x place v steps _ _ := h
  have hstarted (hs : g.stage.isStarted = true) : s.Placed x (place ++ [i]) := by
    by_cases hk : g.kind = .sequence
    · have := (hr.inOrder hs hk).placed hi
      rwa [Nat.zero_add] at this
    · have := enteredAll_iff.1 (hr.together hs hk) i s hi
      rw [Nat.zero_add] at this
      exact .inl ⟨v, this⟩
  cases hs : g.stage with
  | created => exact absurd hs hr.created
  | expired => exact absurd hs hr.expired
  | triggered input => exact .inr ((hr.triggered input hs).2.2 s (List.mem_of_getElem? hi))
  | running | finished => exact hstarted (by rw [hs]; rfl)

/-- Every step inside a step that was launched is placed. -/
theorem Entered.placed (h : root.Entered x place v) {below : List Nat} (hbelow : below ≠ [])
    (hat : root.at? below = some s) : s.Placed x (place ++ below) := by
  induction below generalizing root place v with
  | nil => exact absurd rfl hbelow
  | cons i below ih =>
    cases root with
    | leaf => cases hat
    | group slot g steps =>
      obtain ⟨t, hi, hat⟩ := Option.bind_eq_some_iff.1 hat
      have hplace : place ++ i :: below = (place ++ [i]) ++ below := by simp
      have ht := h.placed_child hi
      cases below with
      | nil =>
        cases hat
        exact ht
      | cons j below =>
        rw [hplace]
        rcases ht with ⟨u, ht, -⟩ | hu
        · exact ih ht (List.cons_ne_nil j below) hat
        · refine .inr ⟨hu.1.at? hat, fun a ha => hu.2 a (at?_leaves hat ha)⟩

/-- A nested group is never refused and never given up, and it has been played when it is
awaited. -/
theorem Placed.played (h : (group slot g steps).Placed x place) :
    (∀ e, slot ≠ .refused e) ∧ g.stage ≠ .expired ∧ (slot = .waiting → g.stage ≠ .created) := by
  rcases h with ⟨v, hent, htied⟩ | hu
  · have hr : g.Runs x place v steps _ _ := hent
    refine ⟨?_, hr.expired, fun _ => hr.created⟩
    rintro e rfl
    rcases htied with h | ⟨o, h, -⟩ <;> cases h
  · obtain ⟨rfl, hstage, -⟩ := hu.1
    refine ⟨fun e h => (by cases h), ?_, fun h => by cases h⟩
    rw [hstage]
    exact fun h => by cases h

/-! ## Failures -/

/-- A failure that was taken from a step was taken from a leaf below it. -/
theorem Entered.failed_below (h : s.Entered x place v) (ht : s.Tied)
    (hs : s.taken? = some (.error e)) :
    ∃ below a, s.at? below = some (.leaf (.done (.error e)) a) := by
  induction s using induction generalizing place v with
  | leaf slot a =>
    cases slot with
    | done o =>
      cases hs
      exact ⟨[], a, rfl⟩
    | idle | waiting | refused => cases hs
  | group slot g steps ih =>
    rcases ht with rfl | ⟨o, rfl, hfinished⟩
    · cases hs
    · cases hs
      obtain ⟨t, hm, place', v', ht, htied, htaken⟩ := h.took_error hfinished
      obtain ⟨i, hi⟩ := List.mem_iff_getElem?.1 hm
      obtain ⟨below, a, hat⟩ := ih t hm ht htied htaken
      exact ⟨i :: below, a, by rw [at?, hi]; exact hat⟩

/-- A group that has failed has its failure from a leaf below it. -/
theorem Entered.failed_from_below (h : (group slot g steps).Entered x place v)
    (hs : g.stage = .finished (.error e)) :
    ∃ below a, (group slot g steps).at? below = some (.leaf (.done (.error e)) a) := by
  obtain ⟨t, hm, place', v', ht, htied, htaken⟩ := h.took_error hs
  obtain ⟨i, hi⟩ := List.mem_iff_getElem?.1 hm
  obtain ⟨below, a, hat⟩ := ht.failed_below htied htaken
  exact ⟨i :: below, a, by rw [at?, hi]; exact hat⟩

end Step

namespace Production

open Engine Step

variable {P : Production} {input : Json}

/-- A production is a history of an engine. -/
theorem engine_eq_after (P : Production) : P.engine =
    (ofCapacity P.capacity).after
      (P.before ++ .compile P.compiler P.descriptor :: P.history) := by
  rw [after_append, after_cons, engine]
  have hcompiles := P.compiles
  have hknows := P.knows
  simp only [Engine.apply, hcompiles, if_pos hknows]

/-- Who has launched which action first, at an earlier time and now. -/
theorem exists_firstLaunches_upTo {earlier later : List Event}
    (hhistory : P.history = earlier ++ later) : ∃ first,
      (P.upTo earlier).engine.FirstLaunches first ∧ P.engine.FirstLaunches first := by
  obtain ⟨first, hledger, hearlier⟩ := exists_ledger P.capacity
    (P.before ++ .compile P.compiler P.descriptor :: P.history)
  obtain ⟨own, hext, hown⟩ := hearlier
    (P.before ++ .compile P.compiler P.descriptor :: earlier) later (by simp [hhistory])
  rw [← engine_eq_after] at hledger
  have hengine := (P.upTo earlier).engine_eq_after.symm
  have hown : Seat.Ledger own (P.upTo earlier).engine.seats (P.upTo earlier).engine.world :=
    hengine ▸ hown
  exact ⟨first, firstLaunches_of_ledger hown (P.upTo earlier).sound.logged hext,
    firstLaunches_of_ledger hledger P.sound.logged (.refl first)⟩

/-- Who has launched which action first. -/
theorem exists_firstLaunches (P : Production) : ∃ first, P.engine.FirstLaunches first := by
  obtain ⟨first, -, hfirst⟩ := exists_firstLaunches_upTo (P.history.append_nil).symm
  exact ⟨first, hfirst⟩

/-- A leaf that has failed in the eyes of the group around it failed with the error of its action,
or it was refused because another leaf had begun the action. -/
theorem failed_leaf (P : Production) {place : List Nat} {a : ActionId} {e : PlaylistError}
    (hat : P.at? place = some (.leaf (.done (.error e)) a)) :
    ∃ err, e = .action err ∧ (∃ v, (a, v) ∈ P.engine.world.begun) ∧
      (P.settled a = some (.error err) ∨ (err = .alreadyStarted ∧
        ∃ id place' slot, (id, place') ≠ (P.id, place) ∧
          P.engine.at? id place' = some (.leaf slot a) ∧ slot ≠ .idle)) := by
  obtain ⟨first, hfirst⟩ := P.exists_firstLaunches
  obtain ⟨v, hv⟩ := hfirst.launched P.id place _ a hat fun h => by cases h
  by_cases howner : first a = some (P.id, place)
  · rcases hfirst.owner P.id place _ a hat howner with h | h | ⟨s, hs, h⟩
    · cases h
    · cases h
    · cases s with
      | ok u => cases h
      | error err =>
        cases h
        exact ⟨err, rfl, ⟨v, hv⟩, .inl hs⟩
  · rcases hfirst.others P.id place _ a hat (fun h => by cases h) howner with h | h
    · cases h
    · cases h
      obtain ⟨id, place', slot, hother, hat', hs⟩ := hfirst.begun (a, v) hv
      refine ⟨.alreadyStarted, rfl, ⟨v, hv⟩, .inr ⟨rfl, id, place', slot, ?_, hat', hs⟩⟩
      rintro heq
      exact howner (heq ▸ hother)

/-- A group of a playlist that was played, if it is not as it was compiled, has been launched. -/
theorem Played.entered_group (h : P.Played input) {place : List Nat} {slot : Slot} {g : Group}
    {steps : List Step} (hat : P.at? place = some (.group slot g steps)) :
    (∃ v, (group slot g steps).Entered (P.engine.scene (fun _ => False) P.id) place v) ∨
      g.stage = .created := by
  obtain ⟨p, hp, hent⟩ := entered h
  rw [at?, hp] at hat
  by_cases hplace : place = []
  · subst hplace
    have hroot : p.root = .group slot g steps := Option.some.inj hat
    rw [hroot] at hent
    exact .inl ⟨input, hent⟩
  · rcases hent.placed hplace hat with ⟨v, hgroup, -⟩ | hu
    · exact .inl ⟨v, hgroup⟩
    · exact .inr hu.1.2.1

/-- In a playlist that was played, a group that resolves with a failure has it from a leaf below
that has begun: the failure is the error of the leaf's action, or `alreadyStarted` where another
leaf had begun that action.  No nested group is refused, or given up while it is awaited.  So a
group none of whose leaves has failed does not fail. -/
theorem failure_source (P : Production) (hplayed : P.Played input) {place : List Nat} {slot : Slot}
    {g : Group} {steps : List Step} (hat : P.at? place = some (.group slot g steps)) :
    (∀ e, g.stage.outcome? = some (.error e) → ∃ below a err,
      P.at? (place ++ below) = some (.leaf (.done (.error e)) a) ∧ e = .action err ∧
      (∃ v, (a, v) ∈ P.engine.world.begun) ∧
      (P.settled a = some (.error err) ∨ (err = .alreadyStarted ∧
        ∃ id place' slot', (id, place') ≠ (P.id, place ++ below) ∧
          P.engine.at? id place' = some (.leaf slot' a) ∧ slot' ≠ .idle))) ∧
    (place ≠ [] → (∀ e, slot ≠ .refused e) ∧ g.stage ≠ .expired ∧
      (slot = .waiting → g.stage ≠ .created)) ∧
    ((∀ below slot' a, P.at? (place ++ below) = some (.leaf slot' a) → slot' ≠ .idle →
      ¬(leaf slot' a).Failed P.engine.world) → ∀ e, g.stage.outcome? ≠ some (.error e)) := by
  have hsource (e : PlaylistError) (he : g.stage.outcome? = some (.error e)) :
      ∃ below a, P.at? (place ++ below) = some (.leaf (.done (.error e)) a) := by
    rcases hplayed.entered_group hat with ⟨v, hent⟩ | hcreated
    · obtain ⟨below, a, hleaf⟩ := hent.failed_from_below (finished_of_outcome? hent he)
      obtain ⟨p, hp, hat⟩ := Option.bind_eq_some_iff.1 hat
      refine ⟨below, a, ?_⟩
      rw [at?, hp, Option.bind_some, at?_append, hat]
      exact hleaf
    · rw [hcreated] at he
      cases he
  refine ⟨?_, ?_, ?_⟩
  · intro e he
    obtain ⟨below, a, hleaf⟩ := hsource e he
    obtain ⟨err, herr, hbegun, hcause⟩ := P.failed_leaf hleaf
    exact ⟨below, a, err, hleaf, herr, hbegun, hcause⟩
  · intro hplace
    obtain ⟨p, hp, hent⟩ := entered hplayed
    rw [at?, hp] at hat
    exact (hent.placed hplace hat).played
  · intro hnone e he
    obtain ⟨below, a, hleaf⟩ := hsource e he
    exact hnone below _ a hleaf (fun h => by cases h) ⟨e, rfl⟩

/-- Whether the step is a group that has been rejected with this error. -/
def isRejected (err : ActionError) : Step → Bool
  | .group _ g _ => decide (g.stage.outcome? = some (.error (.action err)))
  | .leaf _ _ => false

/-- The failure of the first branch has reached the root. -/
theorem failure_source_firstBranchFails : firstBranchFails.Played .null ∧
    ∃ slot g steps, firstBranchFails.at? [] = some (.group slot g steps) ∧
      g.stage.outcome? = some (.error (.action (.failed "no"))) ∧ ∃ below a,
        firstBranchFails.at? below =
          some (.leaf (.done (.error (.action (.failed "no")))) a) := by
  have hplayed : firstBranchFails.Played .null := ⟨[], _, rfl, rfl⟩
  have hroot : ∃ r ∈ firstBranchFails.at? [], isRejected (.failed "no") r = true := by
    decide +kernel
  obtain ⟨r, hr, hrejected⟩ := hroot
  cases r with
  | leaf => cases hrejected
  | group slot g steps =>
    have houtcome := of_decide_eq_true hrejected
    obtain ⟨hsource, -⟩ := failure_source firstBranchFails hplayed hr
    obtain ⟨below, a, -, hleaf, -⟩ := hsource (.action (.failed "no")) houtcome
    exact ⟨hplayed, slot, g, steps, hr, houtcome, below, a, hleaf⟩

end Production

end Rundown
