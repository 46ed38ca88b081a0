import Rundown.Proofs.Engine.Performance
import Rundown.Proofs.Playlist.Accomplished
import Rundown.Proofs.Playlist.Stage

/-!
# One step after another

At any time, and whatever order tasks run in, a leaf below a step of a sequence has begun only if
every leaf below the earlier steps has begun and settled with a value
(`Production.inOrder_spec`).
-/

namespace Rundown

namespace Step

variable {x : Scene} {s : Step}

/-- Something below the step is under way: a leaf that has begun and not settled, or a group that
runs. -/
def Unfinished (w : World) (s : Step) : Prop :=
  (∃ b ∈ w.begun, b.1 ∈ s.leaves ∧ w.settlement? b.1 = none) ∨
    ∃ place slot g steps, s.at? place = some (.group slot g steps) ∧ g.stage.state = .running

/-- Something below the step has failed: a leaf or a group. -/
def FailedBelow (w : World) (s : Step) : Prop :=
  (∃ a ∈ s.leaves, ∃ err, w.settlement? a = some (.error err)) ∨
    ∃ place slot g steps, s.at? place = some (.group slot g steps) ∧ g.stage.state = .failed

theorem Over.not_unfinished (h : s.Over x) (hlogged : x.world.Logged) :
    ¬s.Unfinished x.world := by
  rintro (⟨b, hb, ha, hnone⟩ | ⟨place, slot, g, steps, hat, hs⟩)
  · exact h.settled b.1 ha (hlogged.started b hb) hnone
  · exact h.still place slot g steps hat hs

theorem Accomplished.over (h : s.Accomplished x) : s.Over x where
  settled a ha _ hnone := by
    obtain ⟨-, u, hu⟩ := h.leaves a ha
    rw [hnone] at hu
    cases hu
  still place slot g steps hat hs := by
    rw [h.groups place slot g steps hat] at hs
    cases hs

/-- A group that has failed has it from a leaf below. -/
theorem Known.failed_leaf {place : List Nat} (h : s.Known x place)
    (hsole : ∀ a ∈ s.leaves, x.sole a) (hfailed : s.FailedBelow x.world) :
    ∃ a ∈ s.leaves, ∃ err, x.world.settlement? a = some (.error err) := by
  rcases hfailed with hleaf | ⟨below, slot, g, steps, hat, hs⟩
  · exact hleaf
  · obtain ⟨v, hent⟩ := (h.at? hat).entered (by rw [hs]; exact fun h => by cases h)
    obtain ⟨e, he⟩ := Stage.state_eq_failed.1 hs
    obtain ⟨a, ha, err, -, herr⟩ := hent.failed_leaf
      (fun a ha => hsole a (at?_leaves hat ha)) (by rw [answer?, he]; rfl)
    exact ⟨a, at?_leaves hat ha, err, herr⟩

end Step

namespace Production

open Engine Step

variable {P : Production} {place : List Nat} {slot : Slot} {g : Group} {steps : List Step}
  {s t : Step} {i j : Nat}

/-- Each step of the playlist has its leaves to itself. -/
theorem Distinct.sole (h : P.Distinct) (hat : P.at? place = some s) :
    ∀ a ∈ s.leaves, (P.engine.scene (fun _ => False) P.id).sole a := by
  obtain ⟨p, hp, hat⟩ := Option.bind_eq_some_iff.1 hat
  exact fun a ha => (stands P.sound hp).sole h a (at?_leaves hat ha)

/-- Before the rest of the history no action of the playlist belonged to two leaves either. -/
theorem sole_upTo {earlier later : List Event} (hhistory : P.history = earlier ++ later)
    {a : ActionId} (ha : (P.engine.scene (fun _ => False) P.id).sole a) :
    ((P.upTo earlier).engine.scene (fun _ => False) P.id).sole a := by
  have hturns := ((P.upTo earlier).sound.after later).2
  rw [P.upTo_after hhistory] at hturns
  exact Nat.le_trans (hturns.count_le a) ha

/-- A step stays the same step. -/
theorem reset_upTo {earlier later : List Event} (hhistory : P.history = earlier ++ later)
    (hat : (P.upTo earlier).at? place = some s) (hat' : P.at? place = some t) :
    t.reset = s.reset := by
  have hturns := ((P.upTo earlier).sound.after later).2
  rw [P.upTo_after hhistory] at hturns
  obtain ⟨p, hp, hplace⟩ := Option.bind_eq_some_iff.1 hat
  obtain ⟨p', hp', hb⟩ := hturns.each P.id p hp
  obtain ⟨t', ht', hreset⟩ := at?_congr hb.reset hplace
  rw [at?, hp', Option.bind_some, ht'] at hat'
  cases hat'
  exact hreset

theorem at?_step (hat : P.at? place = some (.group slot g steps)) (hi : steps[i]? = some s) :
    P.at? (place ++ [i]) = some s := by
  obtain ⟨p, hp, hat⟩ := Option.bind_eq_some_iff.1 hat
  rw [at?, hp]
  exact Step.at?_child hat hi

/-- Steps of a sequence happen one after another.  A leaf below a later step has begun only if every
leaf below an earlier one has begun and settled with a value; at most one step is under way; and
once something below a step has failed, no leaf below a later step begins, whatever follows. -/
theorem inOrder_spec (P : Production) (hdistinct : P.Distinct)
    (hat : P.at? place = some (.group slot g steps)) (hk : g.kind = .sequence) (hij : i < j)
    (hi : steps[i]? = some s) (hj : steps[j]? = some t) :
    ((∃ b ∈ P.engine.world.begun, b.1 ∈ t.leaves) →
      ∀ a ∈ s.leaves, (∃ v, (a, v) ∈ P.engine.world.begun) ∧ ∃ u, P.settled a = some (.ok u)) ∧
    ¬(s.Unfinished P.engine.world ∧ t.Unfinished P.engine.world) ∧
    ∀ earlier later s', P.history = earlier ++ later →
      (P.upTo earlier).at? (place ++ [i]) = some s' →
        s'.FailedBelow (P.upTo earlier).engine.world →
          ∀ b ∈ P.engine.world.begun, b.1 ∉ t.leaves := by
  have hsole := hdistinct.sole (at?_step hat hi)
  have hsole' := hdistinct.sole (at?_step hat hj)
  have hlogged := P.sound.logged
  have hor := (known_at? P.sound hat).1.untouched_or_accomplished hk hsole hij hi hj
  have hafter (hb : ∃ b ∈ P.engine.world.begun, b.1 ∈ t.leaves) :
      s.Accomplished (P.engine.scene (fun _ => False) P.id) := by
    obtain ⟨b, hb, ha⟩ := hb
    exact hor.resolve_left fun hu => hu.not_begun hlogged hb ha (hsole' _ ha)
  refine ⟨fun hb a ha => ?_, ?_, ?_⟩
  · obtain ⟨⟨v, hv⟩, hu⟩ := (hafter hb).leaves a ha
    exact ⟨⟨v, hv.1⟩, hu⟩
  · rintro ⟨hs, ht⟩
    rcases hor with hu | hdone
    · exact (hu.over hsole').not_unfinished hlogged ht
    · exact hdone.over.not_unfinished hlogged hs
  · intro earlier later s' hhistory hat' hfailed b hb ha
    have hleaves := (leaves_congr (reset_upTo hhistory hat' (at?_step hat hi))).symm
    obtain ⟨a, hm, err, herr⟩ := (known_at? (P.upTo earlier).sound hat').1.failed_leaf
      (fun a ha => sole_upTo hhistory (hsole a (hleaves ▸ ha))) hfailed
    have hturns := ((P.upTo earlier).sound.after later).2
    rw [P.upTo_after hhistory] at hturns
    obtain ⟨-, u, hu⟩ := (hafter ⟨b, hb, ha⟩).leaves a (hleaves ▸ hm)
    have hu : P.engine.world.settlement? a = some (.ok u) := hu
    rw [hturns.settled a _ herr] at hu
    cases hu

/-- Whether the step is a sequence of steps with these leaves. -/
def isSequenceOf (leaves : List (List ActionId)) : Step → Bool
  | .group _ g steps => decide (g.kind = .sequence ∧ steps.map Step.leaves = leaves)
  | .leaf _ _ => false

/-- Of the two branches before the last step one fails, while the other goes on to its second
step. -/
theorem inOrder_spec_firstBranchFails :
    firstBranchFails.Distinct ∧ ∃ slot g steps s t,
      firstBranchFails.at? [] = some (.group slot g steps) ∧ g.kind = .sequence ∧
        steps[0]? = some s ∧ steps[1]? = some t ∧ t.leaves = [3] ∧
        ¬(s.Unfinished firstBranchFails.engine.world ∧
          t.Unfinished firstBranchFails.engine.world) ∧
        ∀ b ∈ firstBranchFails.engine.world.begun, b.1 ∉ t.leaves := by
  have hdistinct : firstBranchFails.Distinct := by decide +kernel
  have hroot : ∃ r ∈ firstBranchFails.at? [], isSequenceOf [[0, 1, 2], [3]] r = true := by
    decide +kernel
  have hbranches : ∃ s ∈ (firstBranchFails.upTo (firstBranchFails.history.take 3)).at? [0],
      0 ∈ s.leaves := by
    decide +kernel
  have hfailed : (firstBranchFails.upTo (firstBranchFails.history.take 3)).engine.world.settlement?
      0 = some (.error (.failed "no")) := by
    decide +kernel
  obtain ⟨r, hr, hmatch⟩ := hroot
  obtain ⟨s', hs', h0⟩ := hbranches
  cases r with
  | leaf => cases hmatch
  | group slot g steps =>
    obtain ⟨hk, hleaves⟩ := of_decide_eq_true hmatch
    obtain ⟨s, rest, rfl, -, hrest⟩ := List.map_eq_cons_iff.1 hleaves
    obtain ⟨t, rest, rfl, ht, -⟩ := List.map_eq_cons_iff.1 hrest
    obtain ⟨-, hone, hnever⟩ :=
      inOrder_spec firstBranchFails hdistinct hr hk (i := 0) (j := 1) Nat.one_pos rfl rfl
    have hlast := hnever _ _ s' (List.take_append_drop 3 _).symm hs' (.inl ⟨0, h0, _, hfailed⟩)
    exact ⟨hdistinct, slot, g, _, s, t, hr, hk, rfl, rfl, ht, hone, hlast⟩

end Production

end Rundown
