import Rundown.Proofs.Engine.Production
import Rundown.Proofs.Playlist.Stage

/-!
# Ending at the first failure

Under `FailurePolicy.failFast` a parallel group should fail as soon as one of its branches has, and
take all groups around it along.  It does, with at most `Group.smallWidth` branches.  A wider group
takes outcomes in the order of its branches, and a branch that never settles hides all failures
behind it (`Production.failure_overlooked`).  `Production.failure_reaches_iff` says exactly when a
failure gets through to the root.
-/

namespace Rundown

namespace Step

instance (w : World) (s : Step) : Decidable (s.Failed w) :=
  match h : s.result? w with
  | some (.error e) => isTrue ⟨e, h⟩
  | some (.ok _) => isFalse fun ⟨_, he⟩ => by rw [h] at he; cases he
  | none => isFalse fun ⟨_, he⟩ => by rw [h] at he; cases he

instance (w : World) (s : Step) : Decidable (s.Succeeded w) :=
  match h : s.result? w with
  | some (.ok u) => isTrue ⟨u, h⟩
  | some (.error _) => isFalse fun ⟨_, hu⟩ => by rw [h] at hu; cases hu
  | none => isFalse fun ⟨_, hu⟩ => by rw [h] at hu; cases hu

theorem noticed_iff {w : World} {steps : List Step} : Noticed w steps ↔
    steps.length ≤ Group.smallWidth ∨ ∃ i : Fin steps.length, steps[i].Failed w ∧
      ∀ j : Fin steps.length, j < i → steps[j].Succeeded w := by
  refine or_congr_right ⟨?_, ?_⟩
  · rintro ⟨i, s, hi, hs, hbefore⟩
    obtain ⟨hlt, rfl⟩ := List.getElem?_eq_some_iff.1 hi
    exact ⟨⟨i, hlt⟩, hs, fun j hj => hbefore j hj _ (List.getElem?_eq_getElem j.2)⟩
  · rintro ⟨i, hs, hbefore⟩
    refine ⟨i, _, List.getElem?_eq_getElem i.2, hs, fun j hj t ht => ?_⟩
    obtain ⟨hlt, rfl⟩ := List.getElem?_eq_some_iff.1 ht
    exact hbefore ⟨j, hlt⟩ hj

instance (w : World) (steps : List Step) : Decidable (Noticed w steps) :=
  decidable_of_iff _ noticed_iff.symm

/-- The step is a parallel group that was entered, and a branch has failed. -/
def HasFailedBranch (w : World) : Step → Prop
  | leaf _ _ => False
  | .group _ g steps => g.kind ≠ .sequence ∧ g.stage.state ≠ .created ∧ ∃ s ∈ steps, s.Failed w

instance (w : World) : DecidablePred (HasFailedBranch w)
  | leaf _ _ => inferInstanceAs (Decidable False)
  | .group _ g steps => inferInstanceAs (Decidable
      (g.kind ≠ .sequence ∧ g.stage.state ≠ .created ∧ ∃ s ∈ steps, s.Failed w))

/-- The step is a group that has ended with a failure. -/
def HasFailed : Step → Prop
  | leaf _ _ => False
  | .group _ g _ => g.stage.state = .failed

instance : DecidablePred HasFailed
  | leaf _ _ => inferInstanceAs (Decidable False)
  | .group _ g _ => inferInstanceAs (Decidable (g.stage.state = .failed))

/-- The step is a group that sees a failure among its steps, if there is one: a sequence, or a
parallel group that looks at each branch, or one in which a branch has failed and all branches
before it have succeeded. -/
def Attends (w : World) : Step → Prop
  | leaf _ _ => False
  | .group _ g steps => g.kind = .sequence ∨ Noticed w steps

instance (w : World) : DecidablePred (Attends w)
  | leaf _ _ => inferInstanceAs (Decidable False)
  | .group _ g steps => inferInstanceAs (Decidable (g.kind = .sequence ∨ Noticed w steps))

variable {x : Scene} {place : List Nat} {v : Json} {slot : Slot} {g : Group} {steps : List Step}

/-- A group below another has failed in the eyes of that group. -/
theorem HasFailed.failed {s : Step} (h : s.HasFailed) (ht : s.Tied) (w : World) : s.Failed w := by
  cases s with
  | leaf => exact h.elim
  | group slot g steps =>
    obtain ⟨e, he⟩ := Stage.state_eq_failed.1 h
    rcases ht with rfl | ⟨o, rfl, ho⟩
    · exact ⟨e, by rw [result?, answer?, he]; rfl⟩
    · rw [he] at ho
      cases ho
      exact ⟨e, rfl⟩

/-- At rest an entered parallel group with a failed branch has failed exactly when it attends. -/
theorem Entered.failed_iff_attends (h : (Step.group slot g steps).Entered x place v)
    (hrest : x.AtRest) (hunder : (Step.group slot g steps).Under .failFast)
    (hk : g.kind ≠ .sequence) (hfailed : ∃ s ∈ steps, s.Failed x.world) :
    (Step.group slot g steps).HasFailed ↔ (Step.group slot g steps).Attends x.world := by
  obtain ⟨keys, hkind⟩ := kind_of_under hunder hk
  rw [HasFailed, Stage.state_eq_failed, h.failFast_iff hrest hkind, Attends]
  exact ⟨fun h => .inr h.2, fun h => ⟨hfailed, h.resolve_left hk⟩⟩

/-- A group around one that has failed has failed, too, exactly when it attends. -/
theorem Known.failed_iff_attends (h : (Step.group slot g steps).Known x place) (hrest : x.AtRest)
    (hunder : (Step.group slot g steps).Under .failFast) {s : Step} (hm : s ∈ steps)
    (hs : s.HasFailed) :
    (Step.group slot g steps).HasFailed ↔ (Step.group slot g steps).Attends x.world := by
  cases s with
  | leaf => exact hs.elim
  | group slot' g' steps' =>
    obtain ⟨e, he⟩ := Stage.state_eq_failed.1 hs
    obtain ⟨v, hent⟩ := h.entered_of_child hm fun hfresh => by
      rw [hfresh.2.1] at he
      cases he
    have hr : g.Runs x place v steps _ _ := hent
    by_cases hk : g.kind = .sequence
    · refine iff_of_true ?_ (.inl hk)
      obtain ⟨e', ho⟩ := (hr.inOrder (hr.started hrest) hk).fails (hr.quiet hrest) hm he
      exact Stage.state_eq_failed.2 ⟨e', finished_of_outcome? hent ho⟩
    · obtain ⟨keys, hkind⟩ := kind_of_under hunder hk
      obtain ⟨place', -, htied⟩ := (hent.rested hrest hkind).branches _ hm
      exact hent.failed_iff_attends hrest hunder hk ⟨_, hm, hs.failed htied _⟩

end Step

namespace Production

open Engine Step

variable {P : Production}

/-- When no task waits, the failure of a branch has reached all groups around it as far as `top`
exactly when all of them attend.  With `top = place` this is about the group itself, with `top = []`
about everything up to the root. -/
theorem failure_reaches_iff (P : Production)
    (hpolicy : P.compiler.config.parallelFailure = .failFast) (hquiet : P.engine.Quiescent)
    {place : List Nat} (hbranch : ∃ s ∈ P.at? place, s.HasFailedBranch P.engine.world)
    (top : List Nat) :
    (∀ above, top <+: above → above <+: place → ∃ s ∈ P.at? above, s.HasFailed) ↔
      ∀ above, top <+: above → above <+: place → ∃ s ∈ P.at? above, s.Attends P.engine.world := by
  have hrest := P.sound.atRest hquiet P.id
  have hsame {place : List Nat} {s : Step} (hat : P.at? place = some s)
      (h : s.HasFailed ↔ s.Attends P.engine.world) :
      (∃ s ∈ P.at? place, s.HasFailed) ↔ ∃ s ∈ P.at? place, s.Attends P.engine.world := by
    simpa only [hat, Option.mem_some_iff, exists_eq_left'] using h
  have hown : (∃ s ∈ P.at? place, s.HasFailed) ↔
      ∃ s ∈ P.at? place, s.Attends P.engine.world := by
    obtain ⟨s, hat, hfailed⟩ := hbranch
    obtain ⟨hknown, hunder⟩ := known_at? P.sound hat
    rw [hpolicy] at hunder
    cases s with
    | leaf => exact hfailed.elim
    | group slot g steps =>
      obtain ⟨hk, hstate, hfailed⟩ := hfailed
      obtain ⟨v, hent⟩ := hknown.entered hstate
      exact hsame hat (hent.failed_iff_attends hrest hunder hk hfailed)
  have haround {above : List Nat} {i : Nat} (h : ∃ s ∈ P.at? (above ++ [i]), s.HasFailed) :
      (∃ s ∈ P.at? above, s.HasFailed) ↔ ∃ s ∈ P.at? above, s.Attends P.engine.world := by
    obtain ⟨s, hat, hs⟩ := h
    obtain ⟨slot, g, steps, hat, hm⟩ := at?_above hat
    obtain ⟨hknown, hunder⟩ := known_at? P.sound hat
    rw [hpolicy] at hunder
    exact hsame hat (hknown.failed_iff_attends hrest hunder hm hs)
  have hdown (above below : List Nat) (i : Nat) : above ++ i :: below = above ++ [i] ++ below := by
    rw [List.append_assoc, List.singleton_append]
  constructor
  · rintro h above htop ⟨below, rfl⟩
    cases below with
    | nil =>
      rw [List.append_nil] at h hown
      exact hown.1 (h above htop (List.prefix_refl _))
    | cons i below =>
      have hbelow := h (above ++ [i]) (htop.trans (List.prefix_append _ _))
        ⟨below, (hdown above below i).symm⟩
      exact (haround hbelow).1 (h above htop (List.prefix_append _ _))
  · rintro h above htop ⟨below, rfl⟩
    -- From the group with the failed branch outwards.
    induction below generalizing above with
    | nil =>
      rw [List.append_nil] at h hown
      exact hown.2 (h above htop (List.prefix_refl _))
    | cons i below ih =>
      have heq := hdown above below i
      have hbelow := ih (above ++ [i]) (htop.trans (List.prefix_append _ _)) (heq ▸ hbranch)
        (heq ▸ hown) (heq ▸ h)
      exact (haround hbelow).2 (h above htop (List.prefix_append _ _))

/-- Of two branches, which are looked at one by one, the second fails while the first is pending. -/
def narrow : Production :=
  ofWidth 2 ⟨.empty, .default⟩
    [.play 0 .null true, .run .arrivals 0, .settle 1 (.error (.failed "no")), .run .arrivals 0,
      .run .ready 0] (by decide +kernel)

theorem failure_reaches_iff_narrow :
    narrow.compiler.config.parallelFailure = .failFast ∧ narrow.engine.Quiescent ∧
      (∃ s ∈ narrow.at? [0], s.HasFailedBranch narrow.engine.world) ∧
      ∀ above, above <+: [0] → ∃ s ∈ narrow.at? above, s.HasFailed := by
  have hquiet : narrow.engine.Quiescent := by decide +kernel
  have hbranch : ∃ s ∈ narrow.at? [0], s.HasFailedBranch narrow.engine.world := by decide +kernel
  have hattends : (∃ s ∈ narrow.at? [], s.Attends narrow.engine.world) ∧
      ∃ s ∈ narrow.at? [0], s.Attends narrow.engine.world := by decide +kernel
  refine ⟨rfl, hquiet, hbranch, ?_⟩
  intro above habove
  refine (failure_reaches_iff narrow rfl hquiet hbranch []).2 ?_ above List.nil_prefix habove
  intro above _ habove
  obtain rfl | rfl : above = [] ∨ above = [0] := by
    simpa [List.prefix_cons_iff] using habove
  · exact hattends.1
  · exact hattends.2

/-- The same with one branch more than are looked at one by one. -/
def wide : Production :=
  ofWidth 31 ⟨.empty, .default⟩
    [.play 0 .null true, .run .arrivals 0, .settle 1 (.error (.failed "no")), .run .ready 0,
      .run .ready 0] (by decide +kernel)

/-- A failed branch need not end a group that ends at the first failure. -/
theorem failure_overlooked :
    wide.compiler.config.parallelFailure = .failFast ∧ wide.engine.Quiescent ∧
      (∃ s ∈ wide.at? [0], s.HasFailedBranch wide.engine.world) ∧
      ¬∃ s ∈ wide.at? [0], s.HasFailed := by
  decide +kernel

end Production

end Rundown
