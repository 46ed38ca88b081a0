import Rundown.Proofs.Playlist.Stage
import Rundown.Proofs.World.Progress

/-!
# How far a look takes a step

Looks only take a step onwards (`Step.Onward`): a group that has ended stays as it has ended, and the
failure that it keeps stays the same.  And a look is not in vain (`Step.Labours`): an action begins,
or a group comes to its next stage, or fewer wakes are left to be dealt with, or else nothing happens
at all.
-/

namespace Rundown

/-- How many stages are ahead of a group. -/
def Stage.ahead : Stage → Nat
  | created => 3
  | triggered _ => 2
  | running => 1
  | expired | finished _ => 0

namespace Step

mutual

/-- How many stages are ahead of the groups of a step. -/
def ahead : Step → Nat
  | leaf _ _ => 0
  | .group _ g steps => g.stage.ahead + aheadList steps

def aheadList : List Step → Nat
  | [] => 0
  | s :: rest => s.ahead + aheadList rest

end

mutual

/-- How many wakes the groups of a step have noted.  An inner one counts twice as much as an outer
one, since dealing with it may lead to one that is noted outside. -/
def backlog : Step → Nat
  | leaf _ _ => 0
  | .group _ g steps => g.woken.length + 2 * backlogList steps

def backlogList : List Step → Nat
  | [] => 0
  | s :: rest => s.backlog + backlogList rest

end

/-- The work that is left to be done on a step. -/
def work (s : Step) : Nat × Nat := (s.ahead, s.backlog)

/-- The work that is left to be done on the steps of a group. -/
def workList (steps : List Step) : Nat × Nat := (aheadList steps, backlogList steps)

mutual

/-- The step has gone on: the same tree, in which outcomes and kept failures have stayed. -/
def Onward : Step → Step → Prop
  | leaf _ a, leaf _ a' => a' = a
  | .group _ g steps, .group _ g' steps' => g'.kind = g.kind ∧
      (∀ o, g.stage.outcome? = some o → g'.stage = g.stage) ∧
      (∀ e, g.firstFailure = some e → g'.firstFailure = some e) ∧ OnwardList steps steps'
  | _, _ => False

def OnwardList : List Step → List Step → Prop
  | [], [] => True
  | s :: rest, s' :: rest' => s.Onward s' ∧ OnwardList rest rest'
  | _, _ => False

end

variable {s s' s'' : Step} {steps steps' steps'' : List Step} {slot slot' : Slot} {g g' : Group}
  {a : ActionId} {w : World}

theorem onwardList_iff : OnwardList steps steps' ↔ List.Forall₂ Onward steps steps' := by
  induction steps generalizing steps' with
  | nil => cases steps' <;> simp [OnwardList]
  | cons s rest ih => cases steps' <;> simp [OnwardList, ih]

theorem forall₂_getElem? {α β : Type} {R : α → β → Prop} {l : List α} {l' : List β}
    (h : List.Forall₂ R l l') {i : Nat} {a : α} (hi : l[i]? = some a) :
    ∃ b, l'[i]? = some b ∧ R a b := by
  obtain ⟨hlt, rfl⟩ := List.getElem?_eq_some_iff.1 hi
  have hlt' : i < l'.length := h.length_eq ▸ hlt
  exact ⟨l'[i], List.getElem?_eq_getElem hlt', h.get hlt hlt'⟩

theorem Onward.refl (s : Step) : s.Onward s := by
  induction s using induction with
  | leaf slot a => rfl
  | group slot g steps ih =>
    refine ⟨rfl, fun _ _ => rfl, fun _ he => he, onwardList_iff.2 ?_⟩
    exact List.forall₂_same.2 ih

theorem onwardList_refl (steps : List Step) : OnwardList steps steps :=
  onwardList_iff.2 (List.forall₂_same.2 fun s _ => .refl s)

theorem Onward.trans (h : s.Onward s') (h' : s'.Onward s'') : s.Onward s'' := by
  induction s using induction generalizing s' s'' with
  | leaf slot a => cases s' <;> cases s'' <;> simp_all [Onward]
  | group slot g steps ih =>
    cases s' with
    | leaf => simp [Onward] at h
    | group slot' g' steps' =>
      cases s'' with
      | leaf => simp [Onward] at h'
      | group slot'' g'' steps'' =>
        obtain ⟨hkind, hstage, hfailure, hsteps⟩ := h
        obtain ⟨hkind', hstage', hfailure', hsteps'⟩ := h'
        refine ⟨hkind'.trans hkind, fun o ho => ?_, fun e he => hfailure' e (hfailure e he),
          onwardList_iff.2 ?_⟩
        · have hs := hstage o ho
          exact (hstage' o (hs ▸ ho)).trans hs
        · rw [onwardList_iff] at hsteps hsteps'
          clear hstage hfailure hstage' hfailure' hkind hkind'
          induction hsteps generalizing steps'' with
          | nil =>
            cases hsteps'
            exact .nil
          | cons hs _ ihrest =>
            obtain ⟨s'', rest'', hs', hrest', rfl⟩ := List.forall₂_cons_left_iff.1 hsteps'
            simp only [List.mem_cons, forall_eq_or_imp] at ih
            exact .cons (ih.1 hs hs') (ihrest ih.2 rest'' hrest')

theorem onwardList_trans (h : OnwardList steps steps') (h' : OnwardList steps' steps'') :
    OnwardList steps steps'' := by
  have hgroup {steps steps' : List Step} (h : OnwardList steps steps') :
      (Step.group .idle (Group.fresh .sequence) steps).Onward
        (.group .idle (Group.fresh .sequence) steps') :=
    ⟨rfl, fun _ _ => rfl, fun _ he => he, h⟩
  exact ((hgroup h).trans (hgroup h')).2.2.2

theorem OnwardList.set {i : Nat} (hi : steps[i]? = some s) (h : s.Onward s') :
    OnwardList steps (steps.set i s') := by
  induction steps generalizing i with
  | nil => cases hi
  | cons t rest ih =>
    cases i with
    | zero =>
      cases hi
      exact ⟨h, onwardList_refl rest⟩
    | succ i => exact ⟨.refl t, ih hi⟩

/-- How the group around the step sees it does not matter. -/
theorem onward_withSlot (s : Step) (slot : Slot) : s.Onward (s.withSlot slot) := by
  cases s with
  | leaf slot a => rfl
  | group slot g steps => exact ⟨rfl, fun _ _ => rfl, fun _ he => he, onwardList_refl steps⟩

@[simp] theorem work_withSlot (s : Step) (slot : Slot) : (s.withSlot slot).work = s.work := by
  cases s <;> rfl

theorem onward_forgotten (s : Step) : s.Onward s.forgotten := by
  cases s with
  | leaf slot a => rfl
  | group slot g steps => exact ⟨rfl, fun _ _ => rfl, fun _ he => he, onwardList_refl steps⟩

theorem onwardList_forgotten (steps : List Step) :
    OnwardList steps (steps.map Step.forgotten) := by
  induction steps with
  | nil => trivial
  | cons s rest ih => exact ⟨onward_forgotten s, ih⟩

theorem aheadList_set {i : Nat} (hi : steps[i]? = some s) (s' : Step) :
    aheadList (steps.set i s') + s.ahead = aheadList steps + s'.ahead := by
  induction steps generalizing i with
  | nil => cases hi
  | cons t rest ih =>
    cases i with
    | zero =>
      cases hi
      simp only [List.set_cons_zero, aheadList]
      omega
    | succ i =>
      have := ih hi
      simp only [List.set_cons_succ, aheadList]
      omega

theorem backlogList_set {i : Nat} (hi : steps[i]? = some s) (s' : Step) :
    backlogList (steps.set i s') + s.backlog = backlogList steps + s'.backlog := by
  induction steps generalizing i with
  | nil => cases hi
  | cons t rest ih =>
    cases i with
    | zero =>
      cases hi
      simp only [List.set_cons_zero, backlogList]
      omega
    | succ i =>
      have := ih hi
      simp only [List.set_cons_succ, backlogList]
      omega

/-- A look at the step has taken it onwards and was not in vain. -/
structure Labours (s : Step) (w : World) (p : Polled) : Prop where
  onward : s.Onward p.step
  spends : w.Spends s.work p.world p.step.work p.signalled

end Step

/-- The group's looks at its steps are not in vain. -/
def Look.Labours (look : Look) : Prop :=
  ∀ (i : Nat) (s : Step) (w : World), s.Labours w (look i s w)

/-- The group's launches of its steps are not in vain. -/
def Launch.Labours (launch : Launch) : Prop := ∀ (i : Nat) (v : Json) (s : Step) (w : World),
  s.Onward (launch i v s w).1 ∧ w.Spends s.work (launch i v s w).2 (launch i v s w).1.work false

open Step

theorem Step.launch_labours (site : Nat → Site) :
    Launch.Labours fun i v s w => s.launch (site i) v w := by
  intro i v s w
  dsimp only
  cases s with
  | leaf slot a => exact ⟨rfl, World.beginAction_spends a v w _⟩
  | group slot g steps =>
    cases hs : g.stage with
    | created =>
      simp only [launch, hs]
      refine ⟨⟨rfl, fun o ho => ?_, fun _ he => he, onwardList_refl steps⟩,
        .inl (.inr ⟨.schedule _ _, .inl ?_⟩)⟩
      · rw [hs] at ho
        cases ho
      · simp only [work, ahead, hs, Stage.ahead]
        omega
    | expired | triggered | running | finished =>
      simp only [launch, hs]
      exact ⟨⟨rfl, fun _ _ => rfl, fun _ he => he, onwardList_refl steps⟩, .refl _ _⟩

namespace World.Spends

variable {s s' : Step} {rest rest' : List Step} {w w' w'' : World} {woke woke' : Bool}

theorem cons (h : w.Spends s.work w' s'.work woke)
    (h' : w'.Spends (workList rest) w'' (workList rest') woke') :
    w.Spends (workList (s :: rest)) w'' (workList (s' :: rest')) (woke || woke') := by
  have hrest := h'.add s'.work
  rw [Nat.add_comm _ s'.work.1, Nat.add_comm _ s'.work.2, Nat.add_comm _ s'.work.1,
    Nat.add_comm _ s'.work.2] at hrest
  exact (h.add (workList rest)).trans hrest

theorem head (h : w.Spends s.work w' s'.work woke) (rest : List Step) :
    w.Spends (workList (s :: rest)) w' (workList (s' :: rest)) woke :=
  h.add (workList rest)

theorem withSlot (h : w.Spends s.work w' s'.work woke) (slot : Slot) :
    w.Spends s.work w' (s'.withSlot slot).work woke := by
  rwa [work_withSlot]

end World.Spends

namespace Group

variable {g : Group} {look : Look} {launch : Launch} {tasks : List Task} {steps : List Step}
  {w : World} {index : Nat} {input : Json}

theorem launchAll_labours (h : launch.Labours) (index : Nat) (input : Json) (steps : List Step)
    (w : World) :
    OnwardList steps (launchAll launch input index steps w).1 ∧
      w.Spends (workList steps) (launchAll launch input index steps w).2
        (workList (launchAll launch input index steps w).1) false := by
  induction steps generalizing index w with
  | nil => exact ⟨trivial, .refl _ _⟩
  | cons s rest ih =>
    obtain ⟨honward, hspends⟩ := h index input s w
    obtain ⟨honward', hspends'⟩ := ih (index + 1) (launch index input s w).2
    refine ⟨⟨honward, honward'⟩, ?_⟩
    exact hspends.cons hspends'

theorem driveSequence_labours (g : Group) (hlook : look.Labours) (hlaunch : launch.Labours)
    (index : Nat) (carry : Option Json) (steps : List Step) (w : World) :
    OnwardList steps (g.driveSequence look launch index carry steps w).steps ∧
      w.Spends (workList steps) (g.driveSequence look launch index carry steps w).world
        (workList (g.driveSequence look launch index carry steps w).steps)
        (g.driveSequence look launch index carry steps w).signalled := by
  induction steps generalizing index carry w with
  | nil => exact ⟨trivial, .refl _ _⟩
  | cons s rest ih =>
    -- The current step has been launched, if it had to be, and is looked at.
    have current {s₀ : Step} {w₀ : World} (honward : s.Onward s₀)
        (hspends : w.Spends s.work w₀ s₀.work false) :
        OnwardList (s :: rest) (g.driveCurrent look launch index s₀ rest w₀).steps ∧
          w.Spends (workList (s :: rest)) (g.driveCurrent look launch index s₀ rest w₀).world
            (workList (g.driveCurrent look launch index s₀ rest w₀).steps)
            (g.driveCurrent look launch index s₀ rest w₀).signalled := by
      obtain ⟨honward', hspends'⟩ := hlook index s₀ w₀
      have hlooked := honward.trans honward'
      have hspent := hspends.trans hspends'
      rw [Bool.false_or] at hspent
      unfold driveCurrent
      dsimp only
      split
      · exact ⟨⟨hlooked, onwardList_refl rest⟩, hspent.head rest⟩
      · refine ⟨⟨hlooked.trans (onward_withSlot _ _), onwardList_refl rest⟩, ?_⟩
        exact (hspent.withSlot _).head rest
      · next u _ =>
        obtain ⟨honwardr, hspendsr⟩ := ih (index + 1) (some u) (look index s₀ w₀).world
        exact ⟨⟨hlooked.trans (onward_withSlot _ _), honwardr⟩, (hspent.withSlot _).cons hspendsr⟩
    cases carry with
    | some input =>
      rw [driveSequence_launch]
      obtain ⟨honward, hspends⟩ := hlaunch index input s w
      exact current honward hspends
    | none =>
      cases hd : s.isDone with
      | true =>
        rw [driveSequence_skip hd]
        obtain ⟨honward, hspends⟩ := ih (index + 1) none w
        exact ⟨⟨.refl s, honward⟩, (World.Spends.refl w s.work).cons hspends⟩
      | false =>
        rw [driveSequence_current hd]
        exact current (.refl s) (.refl _ _)

theorem driveEach_labours (g : Group) (hlook : look.Labours) (index : Nat) (steps : List Step)
    (w : World) :
    OnwardList steps (g.driveEach look index steps w).steps ∧
      w.Spends (workList steps) (g.driveEach look index steps w).world
        (workList (g.driveEach look index steps w).steps)
        (g.driveEach look index steps w).signalled := by
  induction steps generalizing index w with
  | nil => exact ⟨trivial, .refl _ _⟩
  | cons s rest ih =>
    unfold driveEach
    split
    · obtain ⟨honward, hspends⟩ := ih (index + 1) w
      exact ⟨⟨.refl s, honward⟩, (World.Spends.refl w s.work).cons hspends⟩
    · obtain ⟨honward, hspends⟩ := hlook index s w
      obtain ⟨honwardr, hspendsr⟩ := ih (index + 1) (look index s w).world
      dsimp only
      split
      · exact ⟨⟨honward, honwardr⟩, hspends.cons hspendsr⟩
      · exact ⟨⟨honward.trans (onward_withSlot _ _), onwardList_refl rest⟩,
          (hspends.withSlot _).head rest⟩
      · exact ⟨⟨honward.trans (onward_withSlot _ _), honwardr⟩,
          (hspends.withSlot _).cons hspendsr⟩

theorem note_firstFailure {e : PlaylistError} (o : Outcome) (h : g.firstFailure = some e) :
    (g.note o).firstFailure = some e := by
  unfold note
  split
  · simp [h]
  · exact h

/-- A look at a woken branch uses up a wake. -/
theorem spent_of_look {i : Nat} {s t : Step} {p : Polled} {n n' : Nat} (hi : steps[i]? = some s)
    (h : s.Labours w p) (ht : t.work = p.step.work)
    (hn : n' ≤ n ∨ (p.signalled = true ∧ n' ≤ n + 1)) :
    w.Spent (aheadList steps, n + 1 + 2 * backlogList steps) p.world
      (aheadList (steps.set i t), n' + 2 * backlogList (steps.set i t)) := by
  have hahead := aheadList_set hi t
  have hbacklog := backlogList_set hi t
  obtain ⟨ha, hb⟩ := Prod.mk.inj ht
  rw [ha] at hahead
  rw [hb] at hbacklog
  rcases h.spends with (hbegins | ⟨hq, hless⟩) | ⟨hw, hsame, hwoke⟩
  · exact .inl hbegins
  · refine .inr ⟨hq, ?_⟩
    simp only [work] at hless
    dsimp only
    omega
  · have hn := hn.resolve_right fun hn => by rw [hwoke] at hn; exact Bool.false_ne_true hn.1
    obtain ⟨ha', hb'⟩ := Prod.mk.inj hsame
    refine .inr ⟨hw ▸ .refl _, ?_⟩
    dsimp only
    omega

end Group

namespace Drive

/-- The work that is left to be done. -/
def work (d : Drive) : Nat × Nat :=
  (aheadList d.steps, d.group.woken.length + 2 * backlogList d.steps)

/-- Driving has gone on from `d` to `d'`, and not in vain. -/
structure Labours (d d' : Drive) : Prop where
  kind : d'.group.kind = d.group.kind
  stage : d'.group.stage = d.group.stage
  failure : ∀ e, d.group.firstFailure = some e → d'.group.firstFailure = some e
  onward : OnwardList d.steps d'.steps
  spent : d' = d ∨ d.world.Spent d.work d'.world d'.work

variable {d d' d'' : Drive}

theorem Labours.refl (d : Drive) : Labours d d :=
  ⟨rfl, rfl, fun _ he => he, onwardList_refl _, .inl rfl⟩

theorem Labours.trans (h : Labours d d') (h' : Labours d' d'') : Labours d d'' := by
  refine ⟨h'.kind.trans h.kind, h'.stage.trans h.stage, fun e he => h'.failure e (h.failure e he),
    onwardList_trans h.onward h'.onward, ?_⟩
  rcases h'.spent with rfl | hspent'
  · exact h.spent
  · rcases h.spent with rfl | hspent
    · exact .inr hspent'
    · exact .inr (hspent.trans hspent')

end Drive

namespace Group

variable {g : Group} {look : Look} {launch : Launch} {tasks : List Task} {steps : List Step}
  {w : World} {index : Nat} {input : Json}

/-- A look at a branch from the queue is not in vain, whatever the group makes of it. -/
theorem Turn.labours {d : Drive} {j : Nat} {rest : List Nat} {s : Step} {p : Polled}
    (ht : Turn look d j rest s p) (hlook : look.Labours) {g' : Group} {t : Step} {w' : World}
    {outcome : Option Outcome} {signalled : Bool} (hkind : g'.kind = d.group.kind)
    (hstage : g'.stage = d.group.stage)
    (hfailure : ∀ e, d.group.firstFailure = some e → g'.firstFailure = some e)
    (hwoken : g'.woken = (d.group.requeued j rest p.signalled).woken)
    (hwork : t.work = p.step.work) (honward : p.step.Onward t) (hq : World.Requeued p.world w') :
    d.Labours ⟨g', d.steps.set j t, w', outcome, signalled⟩ := by
  have hlooked := hlook j s d.world
  rw [ht.looked] at hlooked
  refine ⟨hkind, hstage, hfailure, OnwardList.set ht.step (hlooked.onward.trans honward), .inr ?_⟩
  simp only [Drive.work, ht.woken, hwoken, List.length_cons]
  exact (spent_of_look ht.step hlooked hwork (length_requeued_le ..)).requeue hq

theorem Turn.labours_passing {d : Drive} {j : Nat} {rest : List Nat} {s : Step} {p : Polled}
    (ht : Turn look d j rest s p) (hlook : look.Labours) {w' : World} {signalled : Bool}
    (hq : World.Requeued p.world w') :
    d.Labours { d.passing j rest p with world := w', signalled := signalled } :=
  ht.labours hlook requeued_kind requeued_stage (fun _ he => requeued_firstFailure.trans he) rfl rfl
    (.refl _) hq

theorem Turn.labours_taking {d : Drive} {j : Nat} {rest : List Nat} {s : Step} {p : Polled}
    (ht : Turn look d j rest s p) (hlook : look.Labours) (o : Outcome)
    {outcome : Option Outcome} : d.Labours { d.taking j rest p o with outcome := outcome } :=
  ht.labours hlook ((note_kind o).trans requeued_kind) ((note_stage o).trans requeued_stage)
    (fun _ he => note_firstFailure o (requeued_firstFailure.trans he)) (note_woken o)
    (work_withSlot _ _) (onward_withSlot _ _) (.refl _)

theorem Rounds.labours (hlook : look.Labours) {fuel live looked again : Nat} {d d' : Drive}
    (h : Rounds look tasks fuel live looked again d d') : d.Labours d' := by
  induction h with
  | exhausted | idle => exact .refl _
  | stale hwoken _ _ ih =>
    refine Drive.Labours.trans ?_ ih
    refine ⟨rfl, rfl, fun _ he => he, onwardList_refl _, .inr (.inr ⟨.refl _, .inr ⟨rfl, ?_⟩⟩)⟩
    simp only [Drive.work, hwoken, List.length_cons]
    omega
  | pauses ht => exact ht.labours_passing hlook (.scheduleAll _ _)
  | passes ht _ _ _ ih => exact (ht.labours_passing hlook (.refl _)).trans ih
  | decides ht => exact ht.labours_taking hlook _
  | takes ht _ _ _ ih => exact (ht.labours_taking hlook _).trans ih

/-- What driving a group leads to. -/
structure Drove (g : Group) (steps : List Step) (w : World) (d : Drive) : Prop where
  kind : d.group.kind = g.kind
  stage : d.group.stage = g.stage
  failure : ∀ e, g.firstFailure = some e → d.group.firstFailure = some e
  onward : OnwardList steps d.steps
  spends : w.Spends (aheadList steps, g.woken.length + 2 * backlogList steps) d.world d.work
    d.signalled

/-- Work on the steps of a group alone. -/
theorem Drove.of_steps {d : Drive} (hgroup : d.group = g) (honward : OnwardList steps d.steps)
    (h : w.Spends (workList steps) d.world (workList d.steps) d.signalled) : g.Drove steps w d := by
  refine ⟨by rw [hgroup], by rw [hgroup], fun e he => by rwa [hgroup], honward, ?_⟩
  rw [Drive.work, hgroup]
  exact h.inside (.inl rfl)

theorem driveParallel_labours (g : Group) (hlook : look.Labours) (tasks : List Task)
    (steps : List Step) (w : World) : g.Drove steps w (g.driveParallel look tasks steps w) := by
  unfold driveParallel
  split
  · exact .of_steps rfl (onwardList_refl _) (.refl _ _)
  split
  · dsimp only
    obtain ⟨hkind, hstage, hfailure, honward, hspent⟩ := (driveWoken_rounds look tasks
      ((steps.length + 2) * (steps.length + 2) + g.woken.length)
      (steps.filter fun s => !s.isDone).length 0 0 ⟨g, steps, w, none, false⟩).labours hlook
    refine ⟨hkind, hstage, hfailure, honward, ?_⟩
    rcases hspent with heq | hspent
    · rw [heq]
      exact .refl _ _
    · exact hspent.spends
  · obtain ⟨honward, hspends⟩ := driveEach_labours g hlook 0 steps w
    exact .of_steps (driveEach_group 0) honward hspends

theorem drive_labours (hlook : look.Labours) (hlaunch : launch.Labours) :
    g.Drove steps w (g.drive look launch tasks steps w) := by
  unfold drive
  split
  · obtain ⟨honward, hspends⟩ := driveSequence_labours g hlook hlaunch 0 none steps w
    exact .of_steps (driveSequence_group 0 none) honward hspends
  · exact driveParallel_labours g hlook tasks steps w

/-- A group that is started comes to its next stage. -/
structure Started (g : Group) (steps : List Step) (w : World) (d : Drive) : Prop where
  kind : d.group.kind = g.kind
  stage : d.group.stage = .running
  failure : ∀ e, g.firstFailure = some e → d.group.firstFailure = some e
  onward : OnwardList steps d.steps
  begins : d.world.unstarted < w.unstarted ∨
    (World.Requeued w d.world ∧ aheadList d.steps ≤ aheadList steps)

theorem start_labours (hlook : look.Labours) (hlaunch : launch.Labours) :
    g.Started steps w (g.start look launch tasks input steps w) := by
  unfold start
  dsimp only
  split
  · obtain ⟨honward, hspends⟩ := driveSequence_labours { g with stage := .running } hlook hlaunch 0
      (some input) steps w
    have hgroup : (({ g with stage := .running } : Group).driveSequence look launch 0 (some input)
        steps w).group = { g with stage := .running } := driveSequence_group 0 (some input)
    exact ⟨by rw [hgroup], by rw [hgroup], fun e he => by rwa [hgroup], honward, hspends.begins_or⟩
  · obtain ⟨honward, hspends⟩ := launchAll_labours hlaunch 0 input steps w
    generalize launchAll launch input 0 steps w = launched at honward hspends
    obtain ⟨steps', w'⟩ := launched
    dsimp only at honward hspends ⊢
    generalize (if ({ g with stage := .running } : Group).tracksWakes steps'.length = true then
      List.range steps'.length else []) = woken
    obtain ⟨hkind, hstage, hfailure, honward', hspends'⟩ :=
      driveParallel_labours { g with stage := .running, woken := woken } hlook tasks steps' w'
    refine ⟨hkind, hstage, hfailure, onwardList_trans honward honward', ?_⟩
    rcases hspends.begins_or with h | ⟨hq, h⟩ <;> rcases hspends'.begins_or with h' | ⟨hq', h'⟩
    · exact .inl (Nat.lt_trans h' h)
    · exact .inl (hq'.unstarted ▸ h)
    · exact .inl (hq.unstarted ▸ h')
    · exact .inr ⟨hq.trans hq', Nat.le_trans h' h⟩

end Group

namespace Step

variable {s : Step} {w : World} {g : Group} {steps : List Step} {d : Drive}

theorem aheadList_forgotten (steps : List Step) :
    aheadList (steps.map Step.forgotten) = aheadList steps := by
  induction steps with
  | nil => rfl
  | cons s rest ih => cases s <;> simp only [List.map_cons, forgotten, aheadList, ahead, ih]

/-- A group that ends comes to its last stage. -/
theorem labours_of_outcome (slot slot' : Slot) (tasks : List Task) {o : Outcome}
    (ho : d.outcome = some o) (hopen : g.stage.isOpen = true) (hkind : d.group.kind = g.kind)
    (hfailure : ∀ e, g.firstFailure = some e → d.group.firstFailure = some e)
    (honward : OnwardList steps d.steps)
    (hbegins : d.world.unstarted < w.unstarted ∨
      (World.Requeued w d.world ∧ aheadList d.steps ≤ aheadList steps)) :
    (group slot g steps).Labours w (d.toPolled slot' tasks) := by
  unfold Drive.toPolled
  rw [ho]
  dsimp only
  refine ⟨⟨hkind, fun o' ho' => ?_, hfailure,
    onwardList_trans honward (onwardList_forgotten _)⟩, .inl ?_⟩
  · cases hs : g.stage <;> simp_all [Stage.isOpen, Stage.outcome?]
  · have hq := World.Requeued.scheduleAll d.world tasks
    rcases hbegins with h | ⟨hq', h⟩
    · exact .inl (hq.unstarted ▸ h)
    · refine .inr ⟨hq'.trans hq, .inl ?_⟩
      simp only [work, ahead, Stage.ahead, aheadList_forgotten]
      cases hs : g.stage <;> simp_all [Stage.isOpen] <;> omega

/-- A running group that was driven. -/
theorem labours_of_drove (slot slot' : Slot) (tasks : List Task) (h : g.Drove steps w d)
    (hs : g.stage = .running) : (group slot g steps).Labours w (d.toPolled slot' tasks) := by
  cases ho : d.outcome with
  | some o =>
    exact labours_of_outcome slot slot' tasks ho (by rw [hs]; rfl) h.kind h.failure h.onward
      h.spends.begins_or
  | none =>
    unfold Drive.toPolled
    rw [ho]
    dsimp only
    refine ⟨⟨h.kind, fun _ _ => h.stage, h.failure, h.onward⟩, ?_⟩
    have hspends := h.spends.add (g.stage.ahead, 0)
    simp only [work, ahead, backlog, h.stage]
    simp only [Drive.work, Nat.add_zero] at hspends
    rw [Nat.add_comm _ g.stage.ahead, Nat.add_comm _ g.stage.ahead] at hspends
    exact hspends.hush fun hwoke => (Bool.and_eq_true_iff.1 hwoke).1

/-- A group that was started. -/
theorem labours_of_started (slot slot' : Slot) (tasks : List Task) {input : Json}
    (h : g.Started steps w d) (hs : g.stage = .triggered input) :
    (group slot g steps).Labours w (d.toPolled slot' tasks) := by
  cases ho : d.outcome with
  | some o =>
    exact labours_of_outcome slot slot' tasks ho (by rw [hs]; rfl) h.kind h.failure h.onward
      h.begins
  | none =>
    unfold Drive.toPolled
    rw [ho]
    dsimp only
    refine ⟨⟨h.kind, fun o' ho' => ?_, h.failure, h.onward⟩, .inl ?_⟩
    · rw [hs] at ho'
      cases ho'
    · refine h.begins.imp_right fun ⟨hq, hle⟩ => ⟨hq, .inl ?_⟩
      simp only [work, ahead, h.stage, hs, Stage.ahead]
      omega

theorem pollWithin_labours (height : Nat) (site : Site) (waiter : Option Waiter) (s : Step)
    (w : World) : s.Labours w (pollWithin height site waiter s w) := by
  induction height generalizing site waiter s w with
  | zero => exact ⟨.refl s, .refl _ _⟩
  | succ height ih =>
    cases s with
    | leaf slot a => exact ⟨.refl _, .refl _ _⟩
    | group slot g steps =>
      unfold pollWithin
      cases ho : g.stage.outcome? with
      | some o => exact ⟨.refl _, .refl _ _⟩
      | none =>
        dsimp only
        -- Whoever looks is remembered, which makes no difference here.
        obtain ⟨waiters, hg⟩ :
            ∃ waiters, waiter.elim g g.addWaiter = { g with waiters := waiters } := by
          cases waiter with
          | none => exact ⟨g.waiters, rfl⟩
          | some x =>
            simp only [Option.elim_some, Group.addWaiter]
            split
            · exact ⟨g.waiters, rfl⟩
            · exact ⟨_, rfl⟩
        have hremembered :
            (group slot g steps).Onward (group slot (waiter.elim g g.addWaiter) steps) ∧
            (group slot g steps).work = (group slot (waiter.elim g g.addWaiter) steps).work := by
          rw [hg]
          exact ⟨⟨rfl, fun _ _ => rfl, fun _ he => he, onwardList_refl steps⟩, rfl⟩
        generalize waiter.elim g g.addWaiter = g' at hremembered
        obtain ⟨honward, hwork⟩ := hremembered
        generalize g'.wakes site.above site.task = tasks
        have hlook : Look.Labours (lookBelow height site tasks) := by
          intro index s w
          unfold lookBelow
          split
          · exact ⟨.refl s, .refl _ _⟩
          · exact ih _ _ s w
        have hlaunch := launch_labours (site.child tasks)
        have hlabours {p : Polled} (h : (group slot g' steps).Labours w p) :
            (group slot g steps).Labours w p := ⟨honward.trans h.onward, hwork ▸ h.spends⟩
        refine hlabours ?_
        cases hs : g'.stage with
        | triggered input =>
          exact labours_of_started slot slot tasks (Group.start_labours hlook hlaunch) hs
        | running => exact labours_of_drove slot slot tasks (Group.drive_labours hlook hlaunch) hs
        | created | expired | finished => exact ⟨.refl _, .refl _ _⟩

theorem poll_labours (site : Site) (waiter : Option Waiter) (s : Step) (w : World) :
    s.Labours w (s.poll site waiter w) :=
  pollWithin_labours _ _ _ _ _

/-- A group notes that it was woken. -/
theorem noteWake_length (g : Group) (index width : Nat) (signalled : Bool) :
    (g.noteWake index width signalled).woken.length = g.woken.length ∨
      (signalled = true ∧ (g.noteWake index width signalled).woken.length ≤ g.woken.length + 1) := by
  unfold Group.noteWake
  split
  · split
    next h =>
      exact .inr ⟨(Bool.and_eq_true_iff.1 h).1, Group.length_enqueue_le g index⟩
    · exact .inl rfl
  · exact .inl rfl

theorem noteWake_rest (g : Group) (index width : Nat) (signalled : Bool) :
    ∃ woken, g.noteWake index width signalled = { g with woken := woken } := by
  unfold Group.noteWake Group.enqueue
  split
  · split
    · split
      · exact ⟨g.woken, rfl⟩
      · exact ⟨_, rfl⟩
    · exact ⟨g.woken, rfl⟩
  · exact ⟨g.woken, rfl⟩

/-- The look that the task of a group takes is not in vain, either. -/
theorem pollPlace_labours (place : List Nat) (site : Site) (s : Step) (w : World) :
    s.Labours w (s.pollPlace place site w) := by
  induction place generalizing site s with
  | nil => exact poll_labours site _ s w
  | cons index place ih =>
    cases s with
    | leaf slot a => exact ⟨.refl _, .refl _ _⟩
    | group slot g steps =>
      unfold pollPlace
      cases hi : steps[index]? with
      | none => exact ⟨.refl _, .refl _ _⟩
      | some s =>
        dsimp only
        obtain ⟨honward, hspends⟩ := ih (site.child (g.wakes site.above site.task) index) s
        generalize pollPlace place (site.child (g.wakes site.above site.task) index) s w = p at *
        obtain ⟨woken, hnote⟩ := noteWake_rest g index steps.length p.signalled
        have hlength := noteWake_length g index steps.length p.signalled
        rw [hnote] at hlength ⊢
        refine ⟨⟨rfl, fun _ _ => rfl, fun _ he => he, OnwardList.set hi honward⟩, ?_⟩
        -- The step at `index` stands beside the others, inside the group.
        have hahead := aheadList_set hi p.step
        have hbacklog := backlogList_set hi p.step
        have hlist : w.Spends (workList steps) p.world (workList (steps.set index p.step))
            p.signalled := by
          rcases hspends with (h | ⟨hq, h⟩) | ⟨hw, hm, hwoke⟩
          · exact .inl (.inl h)
          · simp only [work] at h
            exact .inl (.inr ⟨hq, by simp only [workList]; omega⟩)
          · obtain ⟨ha, hb⟩ := Prod.mk.inj hm
            exact .inr ⟨hw, Prod.ext (by simp only [workList]; omega)
              (by simp only [workList]; omega), hwoke⟩
        have hinside := (hlist.inside hlength).add (g.stage.ahead, 0)
        simp only [workList, Nat.add_zero] at hinside
        rw [Nat.add_comm _ g.stage.ahead, Nat.add_comm _ g.stage.ahead] at hinside
        exact hinside.hush fun hwoke => (Bool.and_eq_true_iff.1 hwoke).1

/-! ## Wakes -/

mutual

/-- Waking groups only makes them note it. -/
theorem wake_onward (a : ActionId) (site : Site) : ∀ (s : Step) (w : World),
    s.Onward (s.wake a site w).1 ∧ (s.wake a site w).1.ahead = s.ahead
  | leaf slot b, w => ⟨rfl, rfl⟩
  | .group slot g steps, w => by
    unfold wake
    obtain ⟨⟨woken, hg⟩, hsteps, hahead⟩ :=
      wakeList_onward a (site.child (g.wakes site.above site.task)) steps.length 0 g steps w
    dsimp only
    rw [hg]
    refine ⟨⟨rfl, fun _ _ => rfl, fun _ he => he, hsteps⟩, ?_⟩
    simp only [ahead, hahead]

theorem wakeList_onward (a : ActionId) (site : Nat → Site) (width : Nat) :
    ∀ (index : Nat) (g : Group) (steps : List Step) (w : World),
      (∃ woken, (wakeList a site width index g steps w).1 = { g with woken := woken }) ∧
        OnwardList steps (wakeList a site width index g steps w).2.1 ∧
        aheadList (wakeList a site width index g steps w).2.1 = aheadList steps
  | _, g, [], w => ⟨⟨g.woken, rfl⟩, trivial, rfl⟩
  | index, g, s :: rest, w => by
    unfold wakeList
    obtain ⟨honward, hahead⟩ := wake_onward a (site index) s w
    obtain ⟨⟨woken, hg⟩, hrest, haheads⟩ := wakeList_onward a site width (index + 1)
      (g.noteWake index width (s.wake a (site index) w).2.2) rest (s.wake a (site index) w).2.1
    obtain ⟨woken', hnote⟩ := noteWake_rest g index width (s.wake a (site index) w).2.2
    refine ⟨⟨woken, ?_⟩, ⟨honward, hrest⟩, ?_⟩
    · exact hg.trans (by rw [hnote])
    · simp only [aheadList, hahead, haheads]

end

end Step

end Rundown
