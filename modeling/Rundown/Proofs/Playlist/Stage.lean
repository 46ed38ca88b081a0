import Rundown.Playlist.Wake
import Rundown.Proofs.Playlist.Task

/-!
# The stage of a group that is looked at

A look at a group that has been launched leaves it running or ended with what the look yields; any
other look and any wake leaves its stage alone (`Step.poll_looks`, `Step.pollPlace_looks`,
`Step.wake_stage`).
-/

namespace Rundown

namespace Stage

/-- The group has been launched and has no outcome yet. -/
def isOpen : Stage → Bool
  | triggered _ | running => true
  | created | expired | finished _ => false

/-- What a look that yields `outcome` makes of a stage. -/
inductive Looks (stage : Stage) : Option Outcome → Stage → Prop
  | same : Looks stage stage.outcome? stage
  | runs : stage.isOpen = true → Looks stage none .running
  | ends (o : Outcome) : stage.isOpen = true → Looks stage (some o) (.finished o)

variable {stage : Stage}

theorem state_eq_completed : stage.state = .completed ↔ ∃ u, stage = .finished (.ok u) := by
  cases stage with
  | finished o => cases o <;> simp [state]
  | created | expired | triggered | running => simp [state]

theorem state_eq_failed : stage.state = .failed ↔ ∃ e, stage = .finished (.error e) := by
  cases stage with
  | finished o => cases o <;> simp [state]
  | created | expired | triggered | running => simp [state]

theorem state_eq_created : stage.state = .created ↔ stage = .created ∨ stage = .expired := by
  cases stage with
  | finished o => cases o <;> simp [state]
  | created | expired | triggered | running => simp [state]

end Stage

namespace Group

variable {g : Group} {look : Look} {launch : Launch} {tasks : List Task} {input : Json}
  {steps : List Step} {w : World}

theorem driveSequence_group (index : Nat) (carry : Option Json) :
    (g.driveSequence look launch index carry steps w).group = g := by
  induction steps generalizing index carry w with
  | nil => rfl
  | cons s rest ih =>
    simp only [driveSequence]
    split
    · exact ih _ _
    · split
      · rfl
      · rfl
      · exact ih _ _

theorem driveEach_group (index : Nat) : (g.driveEach look index steps w).group = g := by
  induction steps generalizing index w with
  | nil => rfl
  | cons s rest ih =>
    simp only [driveEach]
    split
    · exact ih _
    · split
      · exact ih _
      · rfl
      · exact ih _

theorem Rounds.stage {fuel live looked again : Nat} {d d' : Drive}
    (h : Rounds look tasks fuel live looked again d d') : d'.group.stage = d.group.stage := by
  induction h with
  | exhausted | idle => rfl
  | stale _ _ _ ih => exact ih
  | pauses => exact requeued_stage
  | passes _ _ _ _ ih => exact ih.trans requeued_stage
  | decides => exact (note_stage _).trans requeued_stage
  | takes _ _ _ _ ih => exact ih.trans ((note_stage _).trans requeued_stage)

theorem driveParallel_stage :
    (g.driveParallel look tasks steps w).group.stage = g.stage := by
  unfold driveParallel
  split
  · rfl
  · split
    · exact (driveWoken_rounds ..).stage
    · exact congrArg Group.stage (driveEach_group 0)

theorem drive_stage : (g.drive look launch tasks steps w).group.stage = g.stage := by
  unfold drive
  split
  · exact congrArg Group.stage (driveSequence_group _ _)
  · exact driveParallel_stage

theorem start_stage : (g.start look launch tasks input steps w).group.stage = .running := by
  by_cases hk : g.kind = .sequence
  · rw [start_sequence hk]
    exact congrArg Group.stage (driveSequence_group _ _)
  · rw [start_parallel hk]
    exact driveParallel_stage

theorem noteWake_stage (index width : Nat) (signalled : Bool) :
    (g.noteWake index width signalled).stage = g.stage := by
  unfold noteWake
  split
  · split
    · exact enqueue_stage
    · rfl
  · rfl

end Group

namespace Step

variable {s : Step}

/-- The stage of the group that the step is. -/
def stage : Step → Stage
  | leaf _ _ => .created
  | .group _ g _ => g.stage

/-- A running group that has been driven runs on or has ended. -/
theorem toPolled_looks {stage : Stage} {d : Drive} (slot : Slot) (tasks : List Task)
    (hopen : stage.isOpen = true) (hd : d.group.stage = .running) :
    stage.Looks (d.toPolled slot tasks).outcome (d.toPolled slot tasks).step.stage := by
  unfold Drive.toPolled
  cases d.outcome with
  | none =>
    have hruns : (Step.group slot d.group d.steps).stage = .running := hd
    rw [hruns]
    exact .runs hopen
  | some o => exact .ends o hopen

theorem poll_looks (hs : s.isLeaf = false) (site : Site) (waiter : Option Waiter) (w : World) :
    s.stage.Looks (s.poll site waiter w).outcome (s.poll site waiter w).step.stage := by
  cases s with
  | leaf => cases hs
  | group slot g steps =>
    have hsame (o : Option Outcome) (waiters : List Waiter) (h : g.stage.outcome? = o) :
        g.stage.Looks o (Step.group slot { g with waiters := waiters } steps).stage :=
      h ▸ .same
    obtain ⟨waiters, hg, -⟩ := g.awaited waiter
    show g.stage.Looks _ _
    rw [poll, height]
    cases hstage : g.stage with
    | triggered input =>
      rw [pollWithin_triggered hg hstage rfl]
      exact toPolled_looks slot _ rfl Group.start_stage
    | running =>
      rw [pollWithin_running hg hstage rfl]
      exact toPolled_looks slot _ rfl (Group.drive_stage.trans hstage)
    | created =>
      simp only [pollWithin, hstage, Stage.outcome?, hg]
      exact hstage ▸ hsame none waiters (by rw [hstage]; rfl)
    | expired | finished =>
      simp only [pollWithin, hstage, Stage.outcome?]
      exact hstage ▸ hsame _ g.waiters (by rw [hstage]; rfl)

/-- A look at a group below leaves the stage of those around it alone. -/
theorem pollPlace_looks (hs : s.isLeaf = false) (place : List Nat) (site : Site) (w : World) :
    ∃ o, s.stage.Looks o (s.pollPlace place site w).step.stage := by
  cases place with
  | nil => exact ⟨_, poll_looks hs site (some .task) w⟩
  | cons index place =>
    cases s with
    | leaf => cases hs
    | group slot g steps =>
      refine ⟨g.stage.outcome?, ?_⟩
      show g.stage.Looks _ _
      unfold pollPlace
      split
      · exact .same
      next t _ =>
        have hstage := g.noteWake_stage index steps.length
          (pollPlace place (site.child (g.wakes site.above site.task) index) t w).signalled
        show g.stage.Looks _ (g.noteWake index steps.length _).stage
        rw [hstage]
        exact .same

theorem wakeList_stage (a : ActionId) (site : Nat → Site) (width index : Nat) (g : Group)
    (steps : List Step) (w : World) :
    (wakeList a site width index g steps w).1.stage = g.stage := by
  induction steps generalizing index g w with
  | nil => rfl
  | cons s rest ih =>
    rw [wakeList]
    exact (ih _ _ _).trans (g.noteWake_stage index width _)

theorem wake_stage (a : ActionId) (site : Site) (s : Step) (w : World) :
    (s.wake a site w).1.stage = s.stage := by
  cases s with
  | leaf => rfl
  | group slot g steps => exact wakeList_stage a _ _ 0 g steps w

end Step

end Rundown
