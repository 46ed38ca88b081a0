import Rundown.Proofs.Engine.Lasting
import Rundown.Proofs.Engine.SettleAll
import Rundown.Proofs.Playlist.Foremost

/-!
# Which failure ends a group at once

A group that ends at the first failure should end with the failure of the branch that has failed
first, as a group that waits for every branch does.  With at most `Group.smallWidth` branches it
looks at them one by one, and it ends with the failure of the foremost one that has failed by then
(`Engine.Sound.exists_ending`).  These are two different failures if a branch fails and then one
before it, with no look in between (`Production.later_failure_reported`).
`Production.foremost_failure_spec` says exactly when they are the same.
-/

namespace Rundown

/-- The parallel groups that end at the first failure. -/
def GroupKind.EndsAtFailure : GroupKind → Prop
  | .parallel _ .failFast => True
  | .sequence | .parallel _ .settleAll => False

instance : DecidablePred GroupKind.EndsAtFailure
  | .parallel _ .failFast => inferInstanceAs (Decidable True)
  | .sequence | .parallel _ .settleAll => inferInstanceAs (Decidable False)

namespace Step

/-- A leaf that the group around it awaits, and that has not settled. -/
def Pending (w : World) : Step → Prop
  | leaf .waiting a => w.settlement? a = none
  | _ => False

instance (w : World) : DecidablePred (Pending w)
  | leaf .waiting a => inferInstanceAs (Decidable (w.settlement? a = none))
  | leaf .idle _ | leaf (.refused _) _ | leaf (.done _) _ | .group _ _ _ =>
    inferInstanceAs (Decidable False)

/-- A running group that ends at the first failure and looks at each of its branches, all of them
pending leaves. -/
def Poised (w : World) : Step → Prop
  | leaf _ _ => False
  | .group _ g steps => g.stage = .running ∧ g.kind.EndsAtFailure ∧
      steps.length ≤ Group.smallWidth ∧ ∀ s ∈ steps, s.Pending w

instance (w : World) : DecidablePred (Poised w)
  | leaf _ _ => inferInstanceAs (Decidable False)
  | .group _ g steps => inferInstanceAs (Decidable (g.stage = .running ∧ g.kind.EndsAtFailure ∧
      steps.length ≤ Group.smallWidth ∧ ∀ s ∈ steps, s.Pending w))

variable {x : Scene} {place : List Nat} {s : Step} {w : World}

theorem Poised.pending (h : s.Poised w) : ∀ a ∈ s.leaves, w.settlement? a = none := by
  cases s with
  | leaf => exact h.elim
  | group slot g steps =>
    intro a ha
    rw [leaves, leavesList_eq] at ha
    obtain ⟨t, hm, ha⟩ := List.mem_flatMap.1 ha
    have ht := h.2.2.2 t hm
    cases t with
    | group => exact ht.elim
    | leaf slot b =>
      obtain rfl := List.mem_singleton.1 ha
      cases slot with
      | waiting => exact ht
      | idle | refused | done => exact ht.elim

/-- A group of pending leaves looks at each of them. -/
theorem Known.scanning (h : s.Known x place) (hpoised : s.Poised x.world) :
    s.Scanning x.world := by
  cases s with
  | leaf => exact hpoised.elim
  | group slot g steps =>
    obtain ⟨hs, hends, hnarrow, hpending⟩ := hpoised
    obtain ⟨keys, hk⟩ : ∃ keys, g.kind = .parallel keys .failFast := by
      unfold GroupKind.EndsAtFailure at hends
      split at hends
      next keys hk => exact ⟨keys, hk⟩
      all_goals exact hends.elim
    obtain ⟨v, hent⟩ := h.entered (by
      rw [hs]
      exact fun h => by cases h)
    have hr : g.Runs x place v steps _ _ := hent
    have hbranches := enteredAll_iff.1 (hr.together (by rw [hs]; rfl) (by
      rw [hk]
      exact fun h => by cases h))
    have hfine : ∀ s ∈ steps, s.isLeaf = true ∧ s.Unfailed x.world ∧
        ∀ a ∈ s.leaves, x.world.started? a = some true := by
      intro s hm
      obtain ⟨i, hi⟩ := List.mem_iff_getElem?.1 hm
      have hbranch := (hbranches i s hi).1
      have hs := hpending s hm
      cases s with
      | group => exact hs.elim
      | leaf slot a =>
        cases slot with
        | idle | refused | done => exact hs.elim
        | waiting =>
          have hbegan : x.world.Began a v := hbranch
          exact ⟨rfl, ⟨hbegan.2, .inl rfl⟩, fun b hb => List.mem_singleton.1 hb ▸ hbegan.2⟩
    refine ⟨⟨⟨keys, hk⟩, hnarrow, fun s hm => (hfine s hm).1, ?_,
      .inl ⟨hs, fun s hm => (hfine s hm).2.1⟩⟩, hs⟩
    intro a ha
    rw [leavesList_eq] at ha
    obtain ⟨s, hm, ha⟩ := List.mem_flatMap.1 ha
    exact (hfine s hm).2.2 a ha

end Step

namespace Engine

open Step

variable {lead : ActionId → Prop} {e : Engine} {id : PlaylistId} {place : List Nat} {o o' : Outcome}

theorem HoldsAt.ended_unique (h : e.HoldsAt (Ended o) id place)
    (h' : e.HoldsAt (Ended o') id place) : o = o' := by
  obtain ⟨p, hp, t, hat, ht⟩ := h
  obtain ⟨p', hp', t', hat', ht'⟩ := h'
  cases hp.symm.trans hp'
  cases hat.symm.trans hat'
  cases ht.symm.trans ht'
  rfl

/-- When a group that looks at each of its leaves has ended, one event has ended it, with the
foremost failure after that event. -/
theorem Sound.exists_ending (h : Sound lead e) (hs : e.HoldsAt Scanning id place)
    (history : List Event) (hended : (e.after history).HoldsAt (Ended o) id place) :
    ∃ earlier event later, history = earlier ++ event :: later ∧
      (e.after earlier).HoldsAt Scanning id place ∧
      ((e.after earlier).apply event).HoldsAt (fun s w => s.Scans w ∧ s.Ended o w) id place := by
  induction history generalizing e with
  | nil =>
    obtain ⟨p, hp, t, hat, ht⟩ := hs
    obtain ⟨p', hp', t', hat', ht'⟩ := hended
    cases hp.symm.trans hp'
    cases hat.symm.trans hat'
    cases t with
    | leaf => exact ht.elim
    | group => cases ht.2.symm.trans ht'
  | cons event history ih =>
    have hsound := (h.apply event).1
    obtain ⟨p, hp, t, hat, ht⟩ := h.apply_holdsAt scanning_advances event hs
    cases t with
    | leaf => exact ht.elim
    | group slot g steps =>
      rcases Group.Scans.stands ht with ⟨hrunning, -⟩ | ⟨o', ho', -⟩
      · obtain ⟨earlier, event', later, rfl, hearlier, hevent⟩ :=
          ih hsound ⟨p, hp, _, hat, ht, hrunning⟩ hended
        exact ⟨event :: earlier, event', later, rfl, hearlier, hevent⟩
      · have hlast := hsound.after_ended ⟨p, hp, _, hat, ho'⟩ history
        cases hlast.ended_unique hended
        exact ⟨[], event, history, rfl, hs, p, hp, _, hat, ht, ho'⟩

end Engine

namespace Production

open Engine Step

variable {P : Production} {since later : List Event} {place : List Nat} {s : Step} {o : Outcome}

/-- The last event of `decided`, with which the history begins, has ended the running group at
`place`. -/
structure EndsAt (P : Production) (place : List Nat) (decided : List Event) (o : Outcome) :
    Prop where
  part : decided <+: P.history
  running : ∃ t ∈ (P.upTo decided.dropLast).at? place, t.stage = .running
  ended : ∃ t ∈ (P.upTo decided).at? place, t.stage = .finished o

/-- The group at `place` waits for all of its branches, leaves that are pending after `since`.  The
first of them that has failed did so with `err`, and the group has ended with `o`. -/
structure WaitsForAll (P : Production) (since : List Event) (place : List Nat) (err : ActionError)
    (o : Outcome) : Prop where
  policy : P.compiler.config.parallelFailure = .settleAll
  distinct : P.Distinct
  pends : ∃ s ∈ (P.upTo since).at? place, s.Pends (P.upTo since).engine.world ∧
    ∃ a ∈ s.leaves, P.FailsFirst since s.leaves a err
  ended : ∃ t ∈ P.at? place, t.stage = .finished o

/-- The error of the foremost of the given actions that has failed. -/
def foremostFailure? (P : Production) (actions : List ActionId) : Option ActionError :=
  P.engine.world.foremostFailure? actions

theorem WaitsForAll.outcome {err : ActionError} (h : P.WaitsForAll since place err o) :
    o = .error (.action err) := by
  obtain ⟨s, hat, hpends, a, ha, hfirst⟩ := h.pends
  obtain ⟨t, hat', ht⟩ := h.ended
  cases s with
  | leaf => exact hpends.elim
  | group slot g steps =>
    obtain ⟨hrunning, hk, hleaf, -⟩ := hpends
    cases t with
    | leaf => cases ht
    | group =>
      exact outcome_of_failsFirst P h.policy h.distinct hat hrunning hk hleaf hat' ht ha hfirst

theorem holdsAt_of_at? {R : Step → World → Prop} (hat : P.at? place = some s)
    (hs : R s P.engine.world) : P.engine.HoldsAt R P.id place := by
  obtain ⟨p, hp, hat⟩ := Option.bind_eq_some_iff.1 hat
  exact ⟨p, hp, s, hat, hs⟩

theorem at?_of_holdsAt {R : Step → World → Prop} (h : P.engine.HoldsAt R P.id place) :
    ∃ t ∈ P.at? place, R t P.engine.world := by
  obtain ⟨p, hp, t, hat, ht⟩ := h
  exact ⟨t, by rw [at?, hp]; exact hat, ht⟩

/-- A step keeps its leaves. -/
theorem leaves_eq {before : List Event} (hhistory : P.history = before ++ later)
    (hat : (P.upTo before).at? place = some s) {t : Step} (hat' : P.at? place = some t) :
    t.leaves = s.leaves := by
  have hturns := ((P.upTo before).sound.after later).2
  rw [P.upTo_after hhistory] at hturns
  obtain ⟨p, hp, hat⟩ := Option.bind_eq_some_iff.1 hat
  obtain ⟨p', hp', hb⟩ := hturns.each P.id p hp
  obtain ⟨t', ht', hreset⟩ := at?_congr hb.reset hat
  have : P.at? place = some t' := by rw [at?, hp']; exact ht'
  cases hat'.symm.trans this
  exact leaves_congr hreset

/-- A group that looks at each of its pending leaves ends with the foremost failure. -/
theorem exists_endsAt (P : Production) (hhistory : P.history = since ++ later)
    (hat : (P.upTo since).at? place = some s) (hpoised : s.Poised (P.upTo since).engine.world)
    (hended : ∃ t ∈ P.at? place, t.stage = .finished o) :
    ∃ decided, P.EndsAt place decided o ∧ since <+: decided ∧ ∀ e, o = .error e ↔
      ∃ err, e = .action err ∧ (P.upTo decided).foremostFailure? s.leaves = some err := by
  have hscanning : (P.upTo since).engine.HoldsAt Scanning P.id place :=
    holdsAt_of_at? hat ((known_at? (P.upTo since).sound hat).1.scanning hpoised)
  have hlast : P.engine.HoldsAt (Ended o) P.id place := by
    obtain ⟨t, hat', ht⟩ := hended
    exact holdsAt_of_at? hat' ht
  rw [← P.upTo_after hhistory] at hlast
  obtain ⟨earlier, event, rest, rfl, hearlier, hevent⟩ :=
    (P.upTo since).sound.exists_ending hscanning later hlast
  have hbefore : (P.upTo since).engine.after earlier = (P.upTo (since ++ earlier)).engine :=
    (P.upTo (since ++ earlier)).upTo_after rfl
  have hafter : ((P.upTo since).engine.after earlier).apply event =
      (P.upTo (since ++ earlier ++ [event])).engine := by
    rw [hbefore]
    exact ((P.upTo (since ++ earlier)).next_engine event).symm
  rw [hbefore] at hearlier
  rw [hafter] at hevent
  obtain ⟨t, hat₀, ht⟩ := at?_of_holdsAt (P := P.upTo (since ++ earlier)) hearlier
  obtain ⟨u, hat₁, hscans, hu⟩ := at?_of_holdsAt (P := P.upTo (since ++ earlier ++ [event])) hevent
  refine ⟨since ++ earlier ++ [event], ⟨⟨rest, by simp [hhistory]⟩, ⟨t, ?_, ?_⟩, u, hat₁, hu⟩,
    ⟨earlier ++ [event], by simp⟩, ?_⟩
  · rw [List.dropLast_concat]
    exact hat₀
  · cases t with
    | leaf => exact ht.elim
    | group => exact ht.2
  · have hhistory : (P.upTo (since ++ earlier ++ [event])).history =
        since ++ (earlier ++ [event]) := List.append_assoc _ _ _
    have hleaves : u.leaves = s.leaves := leaves_eq hhistory hat hat₁
    cases u with
    | leaf => exact hscans.elim
    | group slot g steps =>
      have hs : g.stage = .finished o := hu
      rcases Group.Scans.stands hscans with ⟨hrunning, -⟩ | ⟨o', -, hfailure⟩
      · cases hrunning.symm.trans hs
      · intro e
        have hiff : g.stage.failure? = some e ↔ g.stage = .finished (.error e) :=
          Stage.failure?_eq_some_iff
        rw [hfailure, hs, Option.map_eq_some_iff] at hiff
        rw [← hleaves]
        constructor
        · rintro rfl
          obtain ⟨err, herr, rfl⟩ := hiff.2 rfl
          exact ⟨err, rfl, herr⟩
        · rintro ⟨err, rfl, herr⟩
          exact Stage.finished.inj (hiff.1 ⟨err, herr, rfl⟩)

/-- If a branch has failed in the end, one of them failed first. -/
theorem exists_failsFirst_of_poised (P : Production) (hhistory : P.history = since ++ later)
    (hat : (P.upTo since).at? place = some s) (hpoised : s.Poised (P.upTo since).engine.world)
    (hfailed : ∃ a ∈ s.leaves, ∃ err, P.settled a = some (.error err)) :
    ∃ a ∈ s.leaves, ∃ err, P.FailsFirst since s.leaves a err := by
  have hscanning := (known_at? (P.upTo since).sound hat).1.scanning hpoised
  have hstarted : ∀ a ∈ s.leaves, (P.upTo since).engine.world.started? a = some true := by
    cases s with
    | leaf => exact hscanning.elim
    | group => exact hscanning.1.started
  have hfine : ∀ a ∈ s.leaves, ∀ err,
      (P.upTo since).engine.world.settlement? a ≠ some (.error err) := by
    intro a ha err he
    rw [hpoised.pending a ha] at he
    cases he
  obtain ⟨earlier, rest, a, err, rfl, ha, honly⟩ := exists_first later (P.upTo since).sound hstarted
    hfine (P.upTo_after hhistory ▸ hfailed)
  refine ⟨a, ha, err, earlier, rest, by rw [hhistory, List.append_assoc], ?_⟩
  rwa [← show (P.upTo since).engine.after earlier = (P.upTo (since ++ earlier)).engine from
    (P.upTo (since ++ earlier)).upTo_after rfl]

/-- A group that ends at the first failure, and looks at each of its branches, leaves that are all
pending after `since`, has the foremost failure after the event that ends it.  So if it fails, some
branch failed first, and it fails with that failure, as it would if it waited for all branches,
exactly if that is the foremost failure then. -/
theorem foremost_failure_spec (P : Production) (hhistory : P.history = since ++ later)
    (hat : (P.upTo since).at? place = some s) (hpoised : s.Poised (P.upTo since).engine.world)
    (hended : ∃ t ∈ P.at? place, t.stage = .finished o) :
    ∃ decided, P.EndsAt place decided o ∧ since <+: decided ∧
      (∀ e, o = .error e ↔
        ∃ err, e = .action err ∧ (P.upTo decided).foremostFailure? s.leaves = some err) ∧
      ((∃ e, o = .error e) → ∃ a ∈ s.leaves, ∃ err, P.FailsFirst since s.leaves a err) ∧
      ∀ a ∈ s.leaves, ∀ err, P.FailsFirst since s.leaves a err →
        ((o = .error (.action err) ∧ ∀ (Q : Production) (since' : List Event) (place' : List Nat)
            (o' : Outcome), Q.WaitsForAll since' place' err o' → o' = o) ↔
          (P.upTo decided).foremostFailure? s.leaves = some err) := by
  obtain ⟨decided, hends, hsince, hiff⟩ := P.exists_endsAt hhistory hat hpoised hended
  refine ⟨decided, hends, hsince, hiff, ?_, ?_⟩
  · rintro ⟨e, he⟩
    obtain ⟨err, -, herr⟩ := (hiff e).1 he
    obtain ⟨front, a, back, heq, hfailed, -⟩ := World.foremostFailure?_eq_some_iff.1 herr
    refine P.exists_failsFirst_of_poised hhistory hat hpoised ⟨a, by simp [heq], err, ?_⟩
    obtain ⟨rest, hrest⟩ := hends.part
    have hturns := ((P.upTo decided).sound.after rest).2
    rw [P.upTo_after hrest.symm] at hturns
    exact hturns.settled a _ hfailed
  · intro a ha err hfirst
    constructor
    · rintro ⟨ho, -⟩
      obtain ⟨err', herr', hforemost⟩ := (hiff _).1 ho
      cases herr'
      exact hforemost
    · intro hforemost
      have ho := (hiff (.action err)).2 ⟨err, rfl, hforemost⟩
      exact ⟨ho, fun Q since' place' o' hwaits => hwaits.outcome.trans ho.symm⟩

theorem compiles_failFast : (((⟨.empty, .default⟩ : Compiler).compile (sideBySide 2)
    ((Engine.ofCapacity 1).after (List.replicate 2 (.build .inert)))).result.toOption.map
      Prod.snd) = some 0 := rfl

theorem compiles_settleAll : (((⟨.empty, ⟨.settleAll, 8⟩⟩ : Compiler).compile (sideBySide 2)
    ((Engine.ofCapacity 1).after (List.replicate 2 (.build .inert)))).result.toOption.map
      Prod.snd) = some 0 := rfl

/-- Two branches fail, and the group is looked at after the first failure. -/
def lookedAtBetween : Production :=
  ofWidth 2 ⟨.empty, .default⟩
    [.play 0 .null true, .run .arrivals 0, .settle 1 (.error (.failed "first")), .run .ready 0,
      .settle 0 (.error (.failed "second"))] compiles_failFast

/-- The failure that was seen is the one that waiting for both branches would have led to. -/
theorem foremost_failure_spec_lookedAtBetween :
    lookedAtBetween.history = lookedAtBetween.history.take 2 ++ lookedAtBetween.history.drop 2 ∧
      (∃ s ∈ (lookedAtBetween.upTo (lookedAtBetween.history.take 2)).at? [0],
        s.Poised (lookedAtBetween.upTo (lookedAtBetween.history.take 2)).engine.world) ∧
      (∃ t ∈ lookedAtBetween.at? [0],
        t.stage = .finished (.error (.action (.failed "first")))) ∧
      ∃ decided, lookedAtBetween.EndsAt [0] decided (.error (.action (.failed "first"))) ∧
        (lookedAtBetween.upTo decided).foremostFailure? [0, 1] = some (.failed "first") ∧
        ∀ (Q : Production) (since : List Event) (place : List Nat) (o : Outcome),
          Q.WaitsForAll since place (.failed "first") o →
            o = .error (.action (.failed "first")) := by
  have hpoised : ∃ s ∈ (lookedAtBetween.upTo (lookedAtBetween.history.take 2)).at? [0],
      s.Poised (lookedAtBetween.upTo (lookedAtBetween.history.take 2)).engine.world ∧
        s.leaves = [0, 1] := by
    decide +kernel
  have hended : ∃ t ∈ lookedAtBetween.at? [0],
      t.stage.failure? = some (.action (.failed "first")) := by
    decide +kernel
  have honly : (lookedAtBetween.upTo (lookedAtBetween.history.take 3)).engine.OnlyFailure [0, 1] 1
      (.failed "first") := by
    decide +kernel
  obtain ⟨s, hs, hpoised, hleaves⟩ := hpoised
  have hended : ∃ t ∈ lookedAtBetween.at? [0],
      t.stage = .finished (.error (.action (.failed "first"))) :=
    hended.imp fun t ht => ⟨ht.1, Stage.failure?_eq_some_iff.1 ht.2⟩
  obtain ⟨decided, hends, -, hiff, -, hfirst⟩ := foremost_failure_spec lookedAtBetween
    (List.take_append_drop 2 _).symm hs hpoised hended
  obtain ⟨err, herr, hforemost⟩ := (hiff _).1 rfl
  cases herr
  rw [hleaves] at hforemost hfirst
  obtain ⟨-, hwaits⟩ := (hfirst 1 (by decide) _
    ⟨[.settle 1 (.error (.failed "first"))], _, rfl, honly⟩).2 hforemost
  exact ⟨rfl, ⟨s, hs, hpoised⟩, hended, decided, hends, hforemost, hwaits⟩

/-- The same two failures without a look in between. -/
def bothFailUnseen : List Event :=
  [.play 0 .null true, .run .arrivals 0, .settle 1 (.error (.failed "first")),
    .settle 0 (.error (.failed "second")), .run .ready 0, .run .ready 0]

/-- A group that ends at the first failure. -/
def hasty : Production := ofWidth 2 ⟨.empty, .default⟩ bothFailUnseen compiles_failFast

/-- A group that waits for its branches. -/
def patient : Production :=
  ofWidth 2 ⟨.empty, ⟨.settleAll, 8⟩⟩ bothFailUnseen compiles_settleAll

/-- The group that ends at the first failure reports the later one, which stands before the other;
with the same history, a group that waits for its branches reports the earlier one. -/
theorem later_failure_reported :
    (∃ s ∈ (hasty.upTo (bothFailUnseen.take 2)).at? [0],
      s.Poised (hasty.upTo (bothFailUnseen.take 2)).engine.world ∧ s.leaves = [0, 1]) ∧
    hasty.FailsFirst (bothFailUnseen.take 2) [0, 1] 1 (.failed "first") ∧
    (∃ t ∈ hasty.at? [0], t.stage.failure? = some (.action (.failed "second"))) ∧
    ∃ t ∈ patient.at? [0], t.stage.failure? = some (.action (.failed "first")) :=
  ⟨by decide +kernel, ⟨[.settle 1 (.error (.failed "first"))], _, rfl, by decide +kernel⟩,
    by decide +kernel, by decide +kernel⟩

end Production

end Rundown
