import Rundown.Proofs.Plan
import Rundown.Proofs.Playlist.Failure
import Rundown.Proofs.Playlist.Lasting

/-!
# Leaves that are looked at in order

A parallel group that ends at the first failure, and has at most `Group.smallWidth` branches, looks
at each of them in order.  If they are leaves, it ends with the failure of the foremost leaf that
has failed by then (`World.foremostFailure?`), and that lasts for as long as nothing settles
(`Step.scans_lasting`).
-/

namespace Rundown

namespace World

variable {w w' : World} {actions rest : List ActionId} {a : ActionId} {err : ActionError}

/-- The error of an action that has failed. -/
def failure? (w : World) (a : ActionId) : Option ActionError :=
  match w.settlement? a with
  | some (.error err) => some err
  | _ => none

/-- The error of the foremost of the given actions that has failed. -/
def foremostFailure? (w : World) (actions : List ActionId) : Option ActionError :=
  actions.findSome? w.failure?

theorem failure?_eq_some_iff : w.failure? a = some err ↔ w.settlement? a = some (.error err) := by
  unfold failure?
  split <;> simp_all

theorem failure?_eq_none_iff :
    w.failure? a = none ↔ ∀ err, w.settlement? a ≠ some (.error err) := by
  unfold failure?
  split <;> simp_all

theorem failure?_congr (h : w'.settlement? a = w.settlement? a) : w'.failure? a = w.failure? a := by
  rw [failure?, failure?, h]

theorem foremostFailure?_cons (w : World) (a : ActionId) (rest : List ActionId) :
    w.foremostFailure? (a :: rest) = (w.failure? a).or (w.foremostFailure? rest) := by
  rw [foremostFailure?, List.findSome?_cons]
  cases w.failure? a <;> rfl

/-- The failure stands behind actions that have not failed. -/
theorem foremostFailure?_eq_some_iff : w.foremostFailure? actions = some err ↔
    ∃ front a back, actions = front ++ a :: back ∧ w.settlement? a = some (.error err) ∧
      ∀ b ∈ front, ∀ err', w.settlement? b ≠ some (.error err') := by
  rw [foremostFailure?, List.findSome?_eq_some_iff]
  simp only [failure?_eq_some_iff, failure?_eq_none_iff]

theorem foremostFailure?_congr (h : ∀ a ∈ actions, w'.settlement? a = w.settlement? a) :
    w'.foremostFailure? actions = w.foremostFailure? actions := by
  induction actions with
  | nil => rfl
  | cons a rest ih =>
    rw [foremostFailure?_cons, foremostFailure?_cons, failure?_congr (h a List.mem_cons_self),
      ih fun b hb => h b (List.mem_cons_of_mem a hb)]

end World

namespace Step

variable {w w' : World} {s : Step} {slot : Slot} {a : ActionId} {g : Group} {steps : List Step}

/-- A leaf that its group has launched and knows no failure of: it may have taken its success. -/
def Unfailed (w : World) : Step → Prop
  | leaf slot a => w.started? a = some true ∧
      (slot = .waiting ∨ ∃ u, slot = .done (.ok u) ∧ w.settlement? a = some (.ok u))
  | .group _ _ _ => False

theorem Unfailed.mono (h : s.Unfailed w)
    (hstarted : ∀ a, w.started? a = some true → w'.started? a = some true)
    (hsettled : ∀ a o, w.started? a = some true → w.settlement? a = some o →
      w'.settlement? a = some o) : s.Unfailed w' := by
  cases s with
  | group => exact h
  | leaf slot a =>
    refine ⟨hstarted a h.1, h.2.imp_right ?_⟩
    rintro ⟨u, hslot, hu⟩
    exact ⟨u, hslot, hsettled a _ h.1 hu⟩

/-- What was taken from an unfailed leaf is the success of its action. -/
theorem Unfailed.took {o : Outcome} (h : s.Unfailed w) (ho : s.taken? = some o) :
    (∃ u, o = .ok u) ∧ ∀ a ∈ s.leaves, w.failure? a = none := by
  cases s with
  | group => exact h.elim
  | leaf slot a =>
    rcases h.2 with rfl | ⟨u, rfl, hu⟩
    · cases ho
    · cases ho
      refine ⟨⟨u, rfl⟩, fun b hb => ?_⟩
      obtain rfl := List.mem_singleton.1 hb
      rw [World.failure?, hu]

end Step

namespace Group

open Step

variable {look : Look} {launch : Launch} {tasks : List Task} {index : Nat} {w w' : World}
  {g : Group} {steps : List Step} {keys : List String}

/-- A group that ends at the first failure, and looks at each of its leaves: it is running and has
taken no failure, or it has ended, with the foremost failure if there is one. -/
structure Scans (w : World) (g : Group) (steps : List Step) : Prop where
  kind : ∃ keys, g.kind = .parallel keys .failFast
  narrow : steps.length ≤ smallWidth
  leaf : ∀ s ∈ steps, s.isLeaf = true
  started : ∀ a ∈ leavesList steps, w.started? a = some true
  stands : (g.stage = .running ∧ ∀ s ∈ steps, s.Unfailed w) ∨
    ∃ o, g.stage = .finished o ∧
      g.stage.failure? = (w.foremostFailure? (leavesList steps)).map .action

/-- The group looks at those of the steps that are leaves and were not refused. -/
def LooksAt (look : Look) (steps : List Step) : Prop :=
  ∀ i slot a w, .leaf slot a ∈ steps → (∀ e, slot ≠ .refused e) →
    look i (.leaf slot a) w = ⟨.leaf slot a, w, leafOutcome slot a w, false⟩

/-- What looking at unfailed leaves in order comes to. -/
structure Scanned (w : World) (g : Group) (steps : List Step) (d : Drive) : Prop where
  group : d.group = g
  world : d.world = w
  reset : resetList d.steps = resetList steps
  outcome : d.outcome = (w.foremostFailure? (leavesList steps)).map fun err => .error (.action err)
  unfailed : d.outcome = none → ∀ s ∈ d.steps, s.Unfailed w

/-- The first leaf has not failed, and the others are looked at. -/
theorem Scanned.cons {slot slot' : Slot} {a : ActionId} {rest : List Step} {d : Drive}
    (h : Scanned w g rest d) (hunfailed : (leaf slot' a).Unfailed w) (ha : w.failure? a = none) :
    Scanned w g (leaf slot a :: rest) (d.cons (leaf slot' a) false) where
  group := h.group
  world := h.world
  reset := congrArg (List.cons (leaf .idle a)) h.reset
  outcome := by
    rw [leavesList, leaves, List.singleton_append, World.foremostFailure?_cons, ha, Option.none_or]
    exact h.outcome
  unfailed hnone := List.forall_mem_cons.2 ⟨hunfailed, h.unfailed hnone⟩

theorem driveEach_scanned (hlook : LooksAt look steps) (h : ∀ s ∈ steps, s.Unfailed w) :
    Scanned w g steps (g.driveEach look index steps w) := by
  induction steps generalizing index with
  | nil => exact ⟨rfl, rfl, rfl, rfl, fun _ => h⟩
  | cons s rest ih =>
    obtain ⟨hs, hrest⟩ := List.forall_mem_cons.1 h
    have hrest : Scanned w g rest (g.driveEach look (index + 1) rest w) :=
      ih (fun i slot a w hm => hlook i slot a w (List.mem_cons_of_mem s hm)) hrest
    cases s with
    | group => exact hs.elim
    | leaf slot a =>
      unfold driveEach
      rcases hs.2 with rfl | ⟨u, rfl, hu⟩
      · rw [hlook index .waiting a w List.mem_cons_self fun e he => by cases he]
        dsimp only [isDone, Step.slot, leafOutcome]
        cases hsettled : w.settlement? a with
        | none => exact hrest.cons hs (by rw [World.failure?, hsettled])
        | some o =>
          cases o with
          | ok v =>
            exact hrest.cons ⟨hs.1, .inr ⟨v, rfl, hsettled⟩⟩ (by rw [World.failure?, hsettled])
          | error err =>
            refine ⟨rfl, rfl, rfl, ?_, fun hnone => by cases hnone⟩
            rw [leavesList, leaves, List.singleton_append, World.foremostFailure?_cons,
              World.failure?_eq_some_iff.2 hsettled]
            rfl
      · exact hrest.cons hs (by rw [World.failure?, hu])

/-- The verdict on unfailed leaves is a success, and then none of them has failed. -/
theorem verdict_unfailed (hk : g.kind = .parallel keys .failFast) (h : ∀ s ∈ steps, s.Unfailed w)
    {o : Outcome} (ho : g.verdict steps = some o) :
    (∃ v, o = .ok v) ∧ w.foremostFailure? (leavesList steps) = none := by
  rw [verdict, hk] at ho
  dsimp only at ho
  cases o with
  | error e =>
    obtain ⟨i, s, hi, hs, -⟩ := takenInOrder_error.1 ho
    obtain ⟨⟨u, hu⟩, -⟩ := (h s (List.mem_of_getElem? hi)).took hs
    cases hu
  | ok v =>
    obtain ⟨values, hvalues, -⟩ := takenInOrder_ok ho
    refine ⟨⟨v, rfl⟩, List.findSome?_eq_none_iff.2 fun a ha => ?_⟩
    rw [leavesList_eq] at ha
    obtain ⟨s, hm, ha⟩ := List.mem_flatMap.1 ha
    obtain ⟨u, hu⟩ := all_of_takenValues hvalues s hm
    exact ((h s hm).took hu).2 a ha

/-- What driving a group of unfailed leaves comes to. -/
structure Concludes (w : World) (g : Group) (steps : List Step) (d : Drive) : Prop where
  group : d.group = g
  world : d.world = w
  reset : resetList d.steps = resetList steps
  outcome : ∀ o, d.outcome = some o →
    (Stage.finished o).failure? = (w.foremostFailure? (leavesList steps)).map .action
  unfailed : d.outcome = none → ∀ s ∈ d.steps, s.Unfailed w

theorem drive_concludes (g : Group) (launch : Launch) (tasks : List Task)
    (hlook : LooksAt look steps) (hk : g.kind = .parallel keys .failFast)
    (hnarrow : steps.length ≤ smallWidth) (h : ∀ s ∈ steps, s.Unfailed w) :
    Concludes w g steps (g.drive look launch tasks steps w) := by
  have hverdict {steps' : List Step} (hreset : resetList steps' = resetList steps)
      (h : ∀ s ∈ steps', s.Unfailed w) (o : Outcome) (ho : g.verdict steps' = some o) :
      (Stage.finished o).failure? = (w.foremostFailure? (leavesList steps)).map .action := by
    obtain ⟨⟨v, rfl⟩, hnone⟩ := verdict_unfailed hk h ho
    rw [← leavesList_of_resetList hreset, hnone]
    rfl
  have htracks : g.tracksWakes steps.length = false := by
    rw [tracksWakes, hk]
    exact decide_eq_false (Nat.not_lt.2 hnarrow)
  simp only [drive, hk, driveParallel, htracks, Bool.false_eq_true, if_false]
  cases hv : g.verdict steps with
  | some o => exact ⟨rfl, rfl, rfl, fun o' ho => hverdict rfl h o' (hv.trans ho), fun _ => h⟩
  | none =>
    have hscanned : Scanned w g steps (g.driveEach look 0 steps w) := driveEach_scanned hlook h
    refine ⟨hscanned.group, hscanned.world, hscanned.reset, ?_, ?_⟩
    · intro o ho
      cases hfailed : w.foremostFailure? (leavesList steps) with
      | none =>
        have hnone := hscanned.outcome
        rw [hfailed] at hnone
        dsimp only at ho
        rw [hnone, Option.map_none, Option.none_or] at ho
        exact hfailed ▸ hverdict hscanned.reset (hscanned.unfailed hnone) o ho
      | some err =>
        have hsome := hscanned.outcome
        rw [hfailed] at hsome
        dsimp only at ho
        rw [hsome] at ho
        cases ho
        rfl
    · intro hnone
      exact hscanned.unfailed (Option.or_eq_none_iff.1 hnone).1

theorem lookBelow_looksAt {height : Nat} (site : Site) (tasks : List Task)
    (hheight : heightList steps ≤ height) : LooksAt (lookBelow height site tasks) steps := by
  intro i slot a w hm hslot
  have hlow := heightList_le hheight _ hm
  cases height with
  | zero => exact absurd hlow (Nat.not_le.2 (height_pos _))
  | succ height =>
    unfold lookBelow
    split
    next e he => exact absurd he (hslot e)
    · rfl

/-- The group stays one that looks at each of its leaves while nothing that has begun changes. -/
theorem Scans.spared (h : g.Scans w steps) (hw : w.Spares w') : g.Scans w' steps where
  kind := h.kind
  narrow := h.narrow
  leaf := h.leaf
  started a ha := hw.started a (h.started a ha)
  stands := by
    rcases h.stands with ⟨hs, hunfailed⟩ | ⟨o, hs, ho⟩
    · exact .inl ⟨hs, fun s hm => (hunfailed s hm).mono hw.started fun a o ha ho =>
        (hw.settled a ha).trans ho⟩
    · refine .inr ⟨o, hs, ?_⟩
      rw [ho, World.foremostFailure?_congr fun a ha => hw.settled a (h.started a ha)]

theorem map_forgotten_of_isLeaf (h : ∀ s ∈ steps, s.isLeaf = true) :
    steps.map forgotten = steps := by
  refine (List.map_congr_left fun s hm => ?_).trans (List.map_id steps)
  cases s with
  | leaf => rfl
  | group => cases h _ hm

/-- A look at the group leaves it the same kind of group. -/
theorem Scans.pollWithin {height : Nat} (site : Site) (waiter : Option Waiter) (slot : Slot)
    (h : g.Scans w steps) (hheight : heightList steps ≤ height) :
    ∃ g' steps', (Step.pollWithin (height + 1) site waiter (.group slot g steps) w).step =
        .group slot g' steps' ∧ g'.Scans
          (Step.pollWithin (height + 1) site waiter (.group slot g steps) w).world steps' := by
  obtain ⟨waiters, hg, -⟩ := g.awaited waiter
  rcases h.stands with ⟨hs, hunfailed⟩ | ⟨o, hs, ho⟩
  · obtain ⟨keys, hk⟩ := h.kind
    rw [pollWithin_running hg hs rfl]
    generalize ({ g with waiters := waiters } : Group).wakes site.above site.task = tasks
    have hd := drive_concludes { g with waiters := waiters } (launchBelow site tasks) tasks
      (lookBelow_looksAt site tasks hheight) hk h.narrow hunfailed
    generalize ({ g with waiters := waiters } : Group).drive (lookBelow height site tasks)
      (launchBelow site tasks) tasks steps w = d at hd ⊢
    obtain ⟨group, steps', world, outcome, signalled⟩ := d
    obtain ⟨rfl, rfl, hreset, houtcome, hunfailed⟩ := hd
    have hleaves := leavesList_of_resetList hreset
    have hstarted : ∀ a ∈ leavesList steps', world.started? a = some true := hleaves ▸ h.started
    have hnarrow : steps'.length ≤ smallWidth := length_of_resetList hreset ▸ h.narrow
    have hleaf := isLeaf_of_resetList hreset.symm h.leaf
    cases outcome with
    | none => exact ⟨_, steps', rfl, h.kind, hnarrow, hleaf, hstarted, .inl ⟨hs, hunfailed rfl⟩⟩
    | some o =>
      have hended : Scans world
          { g with waiters := [], stage := .finished o, woken := [] } steps' :=
        ⟨h.kind, hnarrow, hleaf, hstarted, .inr ⟨o, rfl, hleaves ▸ houtcome o rfl⟩⟩
      refine ⟨_, steps'.map forgotten, rfl, ?_⟩
      rw [map_forgotten_of_isLeaf hleaf]
      exact hended.spared (.scheduleAll world tasks)
  · refine ⟨g, steps, ?_⟩
    simp only [Step.pollWithin, hs, Stage.outcome?]
    exact ⟨trivial, h⟩

/-- A look at a leaf of the group, which does nothing, leaves the group the same kind of group. -/
theorem Scans.noteWake (h : g.Scans w steps) (i width : Nat) (signalled : Bool) :
    (g.noteWake i width signalled).Scans w steps := by
  obtain ⟨woken, hg⟩ := noteWake_rest g i width signalled
  rw [hg]
  exact ⟨h.kind, h.narrow, h.leaf, h.started, h.stands⟩

end Group

namespace Step

variable {s : Step} {steps : List Step} {w w' : World}

/-- The step is a group that ends at the first failure and looks at each of its leaves. -/
def Scans (s : Step) (w : World) : Prop :=
  match s with
  | leaf _ _ => False
  | .group _ g steps => g.Scans w steps

theorem pollPlace_leaf (below : List Nat) (site : Site) (slot : Slot) (a : ActionId) (w : World) :
    (pollPlace below site (leaf slot a) w).step = leaf slot a ∧
      (pollPlace below site (leaf slot a) w).world = w := by
  cases below <;> exact ⟨rfl, rfl⟩

/-- Looks keep such a group, and with what it has ended. -/
theorem scans_lasting : Lasting Scans where
  launched {s w} h hfresh := by
    cases s with
    | leaf => exact h
    | group slot g steps =>
      rcases h.stands with ⟨hs, -⟩ | ⟨o, hs, -⟩ <;>
        · rw [hfresh.2.1] at hs
          cases hs
  withSlot {s w} slot h := by
    cases s with
    | leaf => exact h
    | group => exact h
  forgotten {s w} h := by
    cases s with
    | leaf => exact h
    | group slot g steps => exact ⟨h.kind, h.narrow, h.leaf, h.started, h.stands⟩
  spared {s w w'} h hw := by
    cases s with
    | leaf => exact h
    | group => exact Group.Scans.spared h hw
  looked {height} site waiter {s w} hheight h := by
    cases s with
    | leaf => exact h.elim
    | group slot g steps =>
      cases height with
      | zero => exact absurd hheight (Nat.not_le.2 (height_pos _))
      | succ height =>
        obtain ⟨g', steps', hstep, hscans⟩ := Group.Scans.pollWithin (w := w) site waiter slot h
          (Nat.le_of_succ_le_succ hheight)
        rw [hstep]
        exact hscans
  lookedBelow site i below {s w} h := by
    cases s with
    | leaf => exact h.elim
    | group slot g steps =>
      unfold pollPlace
      split
      · exact h
      next t hi =>
        cases t with
        | group => cases h.leaf _ (List.mem_of_getElem? hi)
        | leaf slot' a =>
          dsimp only
          obtain ⟨hstep, hworld⟩ :=
            pollPlace_leaf below (site.child (g.wakes site.above site.task) i) slot' a w
          have hsame : steps.set i (leaf slot' a) = steps := by
            obtain ⟨hlt, heq⟩ := List.getElem?_eq_some_iff.1 hi
            rw [← heq, List.set_getElem_self]
          rw [hstep, hworld, hsame]
          exact Group.Scans.noteWake h _ _ _

/-- The group still runs. -/
def Scanning (s : Step) (w : World) : Prop :=
  match s with
  | leaf _ _ => False
  | .group _ g steps => g.Scans w steps ∧ g.stage = .running

theorem Scanning.scans (h : s.Scanning w) : s.Scans w := by
  cases s with
  | leaf => exact h
  | group => exact h.1

/-- As long as the group runs, branches may settle. -/
theorem Scanning.mono (h : s.Scanning w)
    (hstarted : ∀ a, w.started? a = some true → w'.started? a = some true)
    (hsettled : ∀ a o, w.settlement? a = some o → w'.settlement? a = some o) : s.Scanning w' := by
  cases s with
  | leaf => exact h
  | group slot g steps =>
    obtain ⟨h, hs⟩ := h
    rcases h.stands with ⟨-, hunfailed⟩ | ⟨o, hended, -⟩
    · exact ⟨⟨h.kind, h.narrow, h.leaf, fun a ha => hstarted a (h.started a ha),
        .inl ⟨hs, fun s hm => (hunfailed s hm).mono hstarted fun a o _ => hsettled a o⟩⟩, hs⟩
    · rw [hs] at hended
      cases hended

theorem wakeList_leaves (a : ActionId) (site : Nat → Site) (width index : Nat) (g : Group)
    (w : World) (h : ∀ s ∈ steps, s.isLeaf = true) :
    (wakeList a site width index g steps w).2.1 = steps := by
  induction steps generalizing index g w with
  | nil => rfl
  | cons s rest ih =>
    obtain ⟨hs, hrest⟩ := List.forall_mem_cons.1 h
    unfold wakeList
    cases s with
    | group => cases hs
    | leaf slot b => exact congrArg (List.cons (leaf slot b)) (ih _ _ _ hrest)

theorem Scanning.wake (h : s.Scanning w) (a : ActionId) (site : Site) (w' : World) :
    (s.wake a site w').1.Scanning w := by
  cases s with
  | leaf => exact h
  | group slot g steps =>
    obtain ⟨h, hs⟩ := h
    unfold Step.wake
    have hsteps := wakeList_leaves a (site.child (g.wakes site.above site.task)) steps.length 0 g w'
      h.leaf
    obtain ⟨⟨woken, hg⟩, -⟩ :=
      wakeList_onward a (site.child (g.wakes site.above site.task)) steps.length 0 g steps w'
    dsimp only
    rw [hsteps, hg]
    exact ⟨⟨h.kind, h.narrow, h.leaf, h.started, h.stands⟩, hs⟩

/-- While such a group runs its branches may settle, and a look may end it. -/
theorem scanning_advances : Advances Scanning Scans where
  lasting := scans_lasting
  imp := Scanning.scans
  played {s w} h hs := by
    cases s with
    | leaf => exact h
    | group => exact absurd (h.2.symm.trans hs) fun h => by cases h
  mono h := h.mono
  wake h := h.wake

end Step

end Rundown
