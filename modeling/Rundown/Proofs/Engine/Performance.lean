import Rundown.Proofs.Engine.Production

/-!
# Performances

What a playlist that was played does, at any time and when no task waits: which leaves begin, with
what, and what it ends with.  Both are read off the plan and the completions alone, so neither
depends on the order in which completions settle and tasks run, nor on the failure policy.
-/

namespace Rundown

namespace Production

open Engine Step

variable {P : Production} {lead : ActionId → Prop} {root : Step}

theorem Stands.value? (h : P.Stands lead root) (settled : Settlements) (input : Json) :
    root.plan.value? settled input = P.plan.value? settled input := by
  rcases h.plan with h | h
  · rw [h]
  · rw [h, Plan.value?, Plan.sequenceValue?]
    exact Option.bind_fun_some _

theorem Stands.begins (h : P.Stands lead root) (settled : Settlements) (input : Json) :
    root.plan.begins settled input = P.plan.begins settled input := by
  rcases h.plan with h | h
  · rw [h]
  · rw [h, Plan.begins, Plan.sequenceBegins]
    cases P.plan.value? settled input <;> exact List.append_nil _

/-! ## Begins -/

theorem Stands.mem_begun_iff (h : P.Stands (fun _ => False) root) {input : Json}
    (hent : root.Entered (P.engine.scene (fun _ => False) P.id) [] input) (hdistinct : P.Distinct)
    (hquiet : P.engine.Quiescent) (b : ActionId × Json) :
    (b ∈ P.engine.world.begun ∧ b.1 ∈ P.plan.leaves) ↔ b ∈ P.plan.begins P.settled input := by
  have hbegins := hent.begins (P.sound.atRest hquiet P.id) P.sound.logged (h.sole hdistinct) b
  rw [h.leaves] at hbegins
  rw [← h.begins]
  exact hbegins

/-- When no task waits, exactly those leaves of the playlist have begun that its plan says, with the
inputs that it says. -/
theorem begun_iff (P : Production) {input : Json} (hplayed : P.Played input)
    (hdistinct : P.Distinct) (hquiet : P.engine.Quiescent) (b : ActionId × Json) :
    (b ∈ P.engine.world.begun ∧ b.1 ∈ P.plan.leaves) ↔ b ∈ P.plan.begins P.settled input := by
  obtain ⟨p, hp, hent⟩ := entered hplayed
  exact (stands P.sound hp).mem_begun_iff hent hdistinct hquiet b

/-- Two branches, of which the second has two steps, and a step after both, in an engine of their
own. -/
def twoBranches (history : List Event) : Production :=
  ofCompile 1 (List.replicate 4 (.build .inert)) ⟨.empty, .default⟩
    (.sequence [.parallel [("a", .instance 0), ("b", .sequence [.instance 1, .instance 2])],
      .instance 3]) 0 history (by decide +kernel) (by decide +kernel)

/-- The first branch fails before the second one comes to its second step. -/
def firstBranchFails : Production :=
  twoBranches [.play 0 .null true, .run .arrivals 0, .settle 0 (.error (.failed "no")),
    .settle 1 (.ok (.bool true)), .run .arrivals 0, .run .ready 0, .run .ready 0]

/-- The failure of one branch does not keep the next step of another from beginning. -/
theorem begun_iff_firstBranchFails :
    firstBranchFails.Played .null ∧ firstBranchFails.Distinct ∧
      firstBranchFails.engine.Quiescent ∧
      (firstBranchFails.plan.begins firstBranchFails.settled .null).map Prod.fst = [0, 1, 2] ∧
      ∀ b, (b ∈ firstBranchFails.engine.world.begun ∧ b.1 ∈ firstBranchFails.plan.leaves) ↔
        b ∈ firstBranchFails.plan.begins firstBranchFails.settled .null :=
  have hplayed : firstBranchFails.Played .null := ⟨[], _, rfl, rfl⟩
  have hdistinct : firstBranchFails.Distinct := by decide +kernel
  have hquiet : firstBranchFails.engine.Quiescent := by decide +kernel
  ⟨hplayed, hdistinct, hquiet, by decide +kernel,
    begun_iff firstBranchFails hplayed hdistinct hquiet⟩

/-! ## Values -/

/-- A playlist that ends with a value ends with the value of its plan; and when no task waits and
the plan has a value, it has ended with that. -/
theorem outcome_value (P : Production) {input : Json} (hplayed : P.Played input)
    (hdistinct : P.Distinct) :
    (∀ u, P.engine.outcome? P.id = some (.ok u) → P.plan.value? P.settled input = some u) ∧
      (P.engine.Quiescent → ∀ u, P.plan.value? P.settled input = some u →
        P.engine.outcome? P.id = some (.ok u) ∧
          P.engine.playlists[P.id]?.map Playlist.state = some .completed) := by
  obtain ⟨p, hp, hent⟩ := entered hplayed
  have hstands := stands P.sound hp
  have hsole := hstands.sole hdistinct
  obtain ⟨slot, g, steps, hroot⟩ : ∃ slot g steps, p.root = .group slot g steps := by
    cases hr : p.root with
    | leaf slot a =>
      have := hstands.group
      rw [hr] at this
      cases this
    | group slot g steps => exact ⟨slot, g, steps, rfl⟩
  have houtcome : P.engine.outcome? P.id = p.root.answer? P.engine.world := by
    rw [outcome?, hp, hroot, Option.bind_some, Playlist.stage, hroot]
    rfl
  rw [houtcome, ← hstands.value?]
  refine ⟨fun u hu => hent.value?_of_answer? hsole hu, fun hquiet u hu => ?_⟩
  have hanswer := hent.answer?_of_value? (P.sound.atRest hquiet P.id) hsole hu
  refine ⟨hanswer, ?_⟩
  rw [hroot] at hent hanswer
  have hfinished := finished_of_outcome? hent hanswer
  simp only [hp, Option.map_some, Playlist.state, Playlist.stage, hroot, hfinished, Stage.state]

/-- Both branches and the step after them succeed. -/
def allSucceed : Production :=
  twoBranches [.play 0 .null true, .run .arrivals 0, .settle 1 (.ok (.bool true)), .run .ready 1,
    .settle 2 (.ok (.int 1)), .settle 0 (.ok (.int 2)), .run .ready 0, .settle 3 (.ok (.int 3)),
    .run .arrivals 0, .run .ready 0, .run .ready 0, .run .arrivals 0]

theorem outcome_value_allSucceed :
    allSucceed.Played .null ∧ allSucceed.Distinct ∧ allSucceed.engine.Quiescent ∧
      ∃ u, allSucceed.plan.value? allSucceed.settled .null = some u ∧
        allSucceed.engine.outcome? allSucceed.id = some (.ok u) := by
  have hplayed : allSucceed.Played .null := ⟨[], _, rfl, rfl⟩
  have hdistinct : allSucceed.Distinct := by decide +kernel
  have hquiet : allSucceed.engine.Quiescent := by decide +kernel
  have hvalue : (allSucceed.plan.value? allSucceed.settled .null).isSome = true := by
    decide +kernel
  obtain ⟨u, hu⟩ := Option.isSome_iff_exists.1 hvalue
  exact ⟨hplayed, hdistinct, hquiet, u, hu,
    ((outcome_value allSucceed hplayed hdistinct).2 hquiet u hu).1⟩

end Production

end Rundown
