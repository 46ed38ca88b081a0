import Rundown.Proofs.Playlist.Outcome
import Rundown.Proofs.Playlist.Task

/-!
# Steps at rest

When no task is due, every group that was launched has seen all it can see: what a running group
still awaits is not ready.  So the leaves that began are those of the plan
(`Step.Entered.begins`), a step whose plan has a value has ended with it
(`Step.Entered.answer?_of_value?`), and how a parallel group stands follows from how its branches
stand (`Step.Entered.failFast_iff`, `Step.Entered.settleAll_iff`).
-/

namespace Rundown

/-- No task is sure to run. -/
def Scene.AtRest (x : Scene) : Prop := ∀ t, ¬x.due t

namespace Group

open Step

variable {x : Scene} {own : Task} {place : List Nat} {v : Json} {g : Group} {steps : List Step}
  {s : Step} {p q : Prop}

/-- A group that was launched has been looked at. -/
theorem Runs.started (h : g.Runs x place v steps p q) (hrest : x.AtRest) :
    g.stage.isStarted = true := by
  have halert := h.alert
  cases hs : g.stage with
  | created => exact absurd hs h.created
  | expired => exact absurd hs h.expired
  | triggered input =>
    simp only [Alert, hs] at halert
    exact absurd halert (hrest _)
  | running | finished => rfl

theorem running_or_finished (h : g.stage.isStarted = true) :
    g.stage = .running ∨ ∃ o, g.stage = .finished o := by
  cases hs : g.stage with
  | running => exact .inl rfl
  | finished o => exact .inr ⟨o, rfl⟩
  | created | expired | triggered => rw [hs] at h; cases h

/-- What a group that has no outcome awaits is not ready. -/
theorem Runs.quiet (h : g.Runs x place v steps p q) (hrest : x.AtRest)
    (ho : g.stage.outcome? = none) : ∀ s ∈ steps, s.isAwaited = true → s.Quiet x.world := by
  rcases running_or_finished (h.started hrest) with hs | ⟨o, hs⟩
  · have halert := h.alert
    simp only [Alert, hs] at halert
    exact (halert.resolve_left (hrest _)).2.2
  · rw [hs] at ho
    cases ho

end Group

namespace Step

variable {x : Scene} {place : List Nat} {index : Nat} {v u : Json} {s : Step} {steps : List Step}
  {slot : Slot} {g : Group} {keys : List String}

/-- A step that was launched is awaited until its outcome is taken. -/
theorem Entered.awaited (h : s.Entered x place v) (ht : s.Tied) (hnone : s.taken? = none) :
    s.isAwaited = true := by
  cases s with
  | leaf slot a =>
    cases slot with
    | idle => exact h.elim
    | waiting | refused => rfl
    | done => cases hnone
  | group slot g steps =>
    rcases ht with rfl | ⟨o, rfl, -⟩
    · rfl
    · cases hnone

/-- What a running group has not taken from a step is not there yet. -/
theorem Entered.result?_none (h : s.Entered x place v) (ht : s.Tied)
    (hquiet : s.isAwaited = true → s.Quiet x.world) (hnone : s.taken? = none) :
    s.result? x.world = none := by
  rw [result?, hnone, (hquiet (h.awaited ht hnone)).answer?_eq]
  rfl

/-! ## Values -/

/-- A sequence at rest has taken all that its steps lead to. -/
theorem EnteredInOrder.taken?_eq {o : Option Outcome} {rest : List Step}
    (h : EnteredInOrder x place index v o (s :: rest)) (hsole : ∀ a ∈ s.leaves, x.sole a)
    (hquiet : o = none → s.isAwaited = true → s.Quiet x.world) :
    s.taken? = s.answer? x.world := by
  obtain ⟨hs, htied, hnext⟩ := h
  cases ht : s.taken? with
  | none =>
    rw [ht] at hnext
    rw [(hquiet hnext.1 (hs.awaited htied ht)).answer?_eq]
  | some o' => rw [hs.answer?_of_taken? htied hsole ht]

/-- Steps whose plans have values have all succeeded. -/
theorem EnteredInOrder.outcome_of_value? {o : Option Outcome}
    (h : EnteredInOrder x place index v o steps) (hsole : ∀ a ∈ leavesList steps, x.sole a)
    (hquiet : o = none → ∀ s ∈ steps, s.isAwaited = true → s.Quiet x.world)
    (hvalue : ∀ s ∈ steps, ∀ {place : List Nat} {v u : Json}, s.Entered x place v →
      s.plan.value? x.world.settlement? v = some u → s.answer? x.world = some (.ok u))
    (hv : Plan.sequenceValue? x.world.settlement? (planList steps) v = some u) :
    o = some (.ok u) := by
  induction steps generalizing index v with
  | nil =>
    cases hv
    exact h
  | cons s rest ih =>
    rw [List.forall_mem_cons] at hvalue
    have htaken := h.taken?_eq (fun a ha => hsole a (List.mem_append_left _ ha)) fun ho =>
      hquiet ho s List.mem_cons_self
    obtain ⟨hs, htied, hnext⟩ := h
    obtain ⟨t, ht, hv⟩ := Option.bind_eq_some_iff.1 hv
    rw [hvalue.1 hs ht] at htaken
    rw [htaken] at hnext
    exact ih hnext (fun a ha => hsole a (List.mem_append_right _ ha))
      (fun ho s hm => hquiet ho s (List.mem_cons_of_mem _ hm)) hvalue.2 hv

theorem value?_of_branchValues? {settled : Settlements} (hfits : keys.length = steps.length)
    {members : List (String × Json)}
    (h : Plan.branchValues? settled (keys.zip (planList steps)) v = some members) :
    ∀ s ∈ steps, ∃ u, s.plan.value? settled v = some u := by
  induction steps generalizing keys members with
  | nil => exact fun s hs => by cases hs
  | cons s rest ih =>
    cases keys with
    | nil => cases hfits
    | cons key keys =>
      obtain ⟨u, hu, h⟩ := Option.bind_eq_some_iff.1 h
      obtain ⟨members', h, -⟩ := Option.map_eq_some_iff.1 h
      exact List.forall_mem_cons.2 ⟨⟨u, hu⟩, ih (Nat.succ.inj hfits) h⟩

/-- How a parallel group stands when no task is due. -/
structure Rested (x : Scene) (v : Json) (g : Group) (steps : List Step) : Prop where
  branches : ∀ s ∈ steps, ∃ place, s.Entered x place v ∧ s.Tied
  recorded : g.Recorded steps
  ended : g.stage = .running ∨ ∃ o, g.stage = .finished o
  undecided : g.stage = .running → g.Undecided steps
  awaits : g.stage = .running → ∃ s ∈ steps, s.isDone = false
  quiet : g.stage = .running → ∀ s ∈ steps, s.isDone = false → s.result? x.world = none
  decided : ∀ o, g.stage = .finished o → g.Decided steps o

theorem Entered.rested (h : (Step.group slot g steps).Entered x place v) (hrest : x.AtRest)
    {policy : FailurePolicy} (hk : g.kind = .parallel keys policy) : Rested x v g steps := by
  have hr : g.Runs x place v steps _ _ := h
  have hstarted := hr.started hrest
  have hne : g.kind ≠ .sequence := by rw [hk]; exact fun h => by cases h
  have hjoins := hr.joins hstarted hne
  have hbranches : ∀ s ∈ steps, ∃ place, s.Entered x place v ∧ s.Tied := by
    intro s hm
    obtain ⟨i, hi⟩ := List.mem_iff_getElem?.1 hm
    exact ⟨_, enteredAll_iff.1 (hr.together hstarted hne) i s hi⟩
  refine ⟨hbranches, hjoins.recorded, Group.running_or_finished hstarted, hjoins.undecided, ?_, ?_,
    hjoins.decided⟩
  · intro hs
    by_contra hall
    have hdone : ∀ s ∈ steps, s.isDone = true := by
      intro s hm
      by_contra hd
      exact hall ⟨s, hm, Bool.eq_false_iff.2 hd⟩
    obtain ⟨o, ho⟩ := Group.verdict_of_isDone hk hdone
    rw [(hjoins.undecided hs).verdict] at ho
    cases ho
  · intro hs s hm hd
    obtain ⟨place', hent, htied⟩ := hbranches s hm
    exact hent.result?_none htied (hr.quiet hrest (by rw [hs]; rfl) s hm) (taken?_eq_none_iff.2 hd)

/-- A step at rest whose plan has a value has ended with it. -/
theorem Entered.answer?_of_value? (h : s.Entered x place v) (hrest : x.AtRest)
    (hsole : ∀ a ∈ s.leaves, x.sole a)
    (hv : s.plan.value? x.world.settlement? v = some u) : s.answer? x.world = some (.ok u) := by
  induction s using induction generalizing place v u with
  | leaf slot a =>
    have ha : x.sole a := hsole a (List.mem_singleton.2 rfl)
    obtain ⟨t, ht, hu⟩ := Option.bind_eq_some_iff.1 hv
    cases t with
    | error e => cases hu
    | ok u' =>
      cases hu
      cases slot with
      | idle => exact h.elim
      | refused e => exact absurd ha h.2
      | waiting | done => simp only [answer?, leafOutcome, ht]; rfl
  | group slot g steps ih =>
    have hr : g.Runs x place v steps _ _ := h
    have hstarted := hr.started hrest
    have hsole' {s : Step} (hm : s ∈ steps) : ∀ a ∈ s.leaves, x.sole a := fun a ha =>
      hsole a (leaves_subset hm ha)
    cases hk : g.kind with
    | sequence =>
      rw [plan_sequence hk] at hv
      exact (hr.inOrder hstarted hk).outcome_of_value? hsole (hr.quiet hrest)
        (fun s hm _ _ _ hs => ih s hm hs (hsole' hm)) hv
    | parallel keys policy =>
      have hrested := h.rested hrest hk
      have hfits := hr.fits
      rw [hk] at hfits
      have hok : ∀ s ∈ steps, ∃ place u, s.Entered x place v ∧ s.Tied ∧
          s.answer? x.world = some (.ok u) := by
        intro s hm
        rw [plan_parallel hk] at hv
        obtain ⟨members, hmembers, -⟩ := Option.map_eq_some_iff.1 hv
        obtain ⟨u, hu⟩ := value?_of_branchValues? hfits hmembers s hm
        obtain ⟨place', hs, ht⟩ := hrested.branches s hm
        exact ⟨place', u, hs, ht, ih s hm hs (hsole' hm) hu⟩
      rcases hrested.ended with hs | ⟨o, hs⟩
      · obtain ⟨s, hm, hd⟩ := hrested.awaits hs
        obtain ⟨-, u, -, -, hu⟩ := hok s hm
        have hnone := hrested.quiet hs s hm hd
        rw [result?, Option.or_eq_none_iff, hu] at hnone
        cases hnone.2
      · cases o with
        | error e =>
          obtain ⟨s, hm, he⟩ := (hrested.decided _ hs).tookFailure hrested.recorded hk
          obtain ⟨place', u, hent, htied, hu⟩ := hok s hm
          rw [hent.answer?_of_taken? htied (hsole' hm) he] at hu
          cases hu
        | ok u' =>
          have ha : (Step.group slot g steps).answer? x.world = some (.ok u') := by
            simp only [answer?, hs, Stage.outcome?]
          have hu' := h.value?_of_answer? hsole ha
          rw [hv] at hu'
          cases hu'
          exact ha

/-! ## Begins -/

theorem Untouched.not_begun (h : s.Untouched x) (hlogged : x.world.Logged) {b : ActionId × Json}
    (hb : b ∈ x.world.begun) (ha : b.1 ∈ s.leaves) (hsole : x.sole b.1) : False :=
  hlogged.notMem hb (h.2 b.1 ha hsole).1

theorem Entered.began_leaf {slot : Slot} {a : ActionId} (h : (leaf slot a).Entered x place v)
    (hsole : x.sole a) : x.world.Began a v := by
  cases slot with
  | idle => exact h.elim
  | waiting => exact h
  | refused e => exact absurd hsole h.2
  | done o => exact h.elim And.left fun hn => absurd hsole hn.2

/-- What began below the step is what its plan says. -/
def Begins (x : Scene) (v : Json) (s : Step) : Prop :=
  ∀ b, (b ∈ x.world.begun ∧ b.1 ∈ s.leaves) ↔ b ∈ s.plan.begins x.world.settlement? v

theorem EnteredInOrder.begins {o : Option Outcome} (h : EnteredInOrder x place index v o steps)
    (hlogged : x.world.Logged) (hsole : ∀ a ∈ leavesList steps, x.sole a)
    (hquiet : o = none → ∀ s ∈ steps, s.isAwaited = true → s.Quiet x.world)
    (hvalue : ∀ s ∈ steps, ∀ {place : List Nat} {v u : Json}, s.Entered x place v →
      (s.plan.value? x.world.settlement? v = some u ↔ s.answer? x.world = some (.ok u)))
    (hbegins : ∀ s ∈ steps, ∀ {place : List Nat} {v : Json}, s.Entered x place v → s.Begins x v)
    (b : ActionId × Json) : (b ∈ x.world.begun ∧ b.1 ∈ leavesList steps) ↔
      b ∈ Plan.sequenceBegins x.world.settlement? (planList steps) v := by
  induction steps generalizing index v with
  | nil => simp [leavesList, planList, Plan.sequenceBegins]
  | cons s rest ih =>
    rw [List.forall_mem_cons] at hvalue hbegins
    have hrestsole : ∀ a ∈ leavesList rest, x.sole a := fun a ha =>
      hsole a (List.mem_append_right _ ha)
    have htaken := h.taken?_eq (fun a ha => hsole a (List.mem_append_left _ ha)) fun ho =>
      hquiet ho s List.mem_cons_self
    obtain ⟨hs, -, hnext⟩ := h
    rw [leavesList, planList, Plan.sequenceBegins, List.mem_append, List.mem_append, and_or_left,
      hbegins.1 hs b]
    refine or_congr_right ?_
    have hstopped (hu : ∀ t ∈ rest, t.Untouched x)
        (hnone : ∀ u, s.answer? x.world ≠ some (.ok u)) :
        s.plan.value? x.world.settlement? v = none ∧
          ¬(b ∈ x.world.begun ∧ b.1 ∈ leavesList rest) := by
      refine ⟨Option.eq_none_iff_forall_ne_some.2 fun u hu => hnone u ((hvalue.1 hs).1 hu), ?_⟩
      rintro ⟨hb, ha⟩
      obtain ⟨t, hm, ht⟩ := List.mem_flatMap.1 (leavesList_eq rest ▸ ha)
      exact (hu t hm).not_begun hlogged hb ht (hrestsole _ ha)
    split at hnext
    next ht =>
      obtain ⟨hv, hnot⟩ := hstopped hnext.2 fun u hu => by rw [← htaken, ht] at hu; cases hu
      rw [hv]
      exact iff_of_false hnot List.not_mem_nil
    next ht =>
      obtain ⟨hv, hnot⟩ := hstopped hnext.2 fun u hu => by rw [← htaken, ht] at hu; cases hu
      rw [hv]
      exact iff_of_false hnot List.not_mem_nil
    next u ht =>
      rw [(hvalue.1 hs).2 (htaken.symm.trans ht)]
      exact ih hnext hrestsole (fun ho s hm => hquiet ho s (List.mem_cons_of_mem _ hm)) hvalue.2
        hbegins.2

theorem branchBegins_iff (hfits : keys.length = steps.length)
    (hbegins : ∀ s ∈ steps, s.Begins x v) (b : ActionId × Json) :
    (b ∈ x.world.begun ∧ b.1 ∈ leavesList steps) ↔
      b ∈ Plan.branchBegins x.world.settlement? (keys.zip (planList steps)) v := by
  induction steps generalizing keys with
  | nil =>
    obtain rfl := List.length_eq_zero_iff.1 hfits
    simp [leavesList, planList, Plan.branchBegins]
  | cons s rest ih =>
    cases keys with
    | nil => cases hfits
    | cons key keys =>
      rw [List.forall_mem_cons] at hbegins
      rw [leavesList, planList, List.zip_cons_cons, Plan.branchBegins, List.mem_append,
        List.mem_append, and_or_left, hbegins.1 b, ih (Nat.succ.inj hfits) hbegins.2]

/-- At rest the leaves that have begun are those of the plan, with the inputs that it says. -/
theorem Entered.begins (h : s.Entered x place v) (hrest : x.AtRest) (hlogged : x.world.Logged)
    (hsole : ∀ a ∈ s.leaves, x.sole a) : s.Begins x v := by
  induction s using induction generalizing place v with
  | leaf slot a =>
    have hbegan := h.began_leaf (hsole a (List.mem_singleton.2 rfl))
    rintro ⟨b, u⟩
    rw [leaves, plan, Plan.begins, List.mem_singleton, List.mem_singleton, Prod.mk.injEq]
    constructor
    · rintro ⟨hb, rfl⟩
      exact ⟨rfl, hlogged.input_unique hb hbegan.1⟩
    · rintro ⟨rfl, rfl⟩
      exact ⟨hbegan.1, rfl⟩
  | group slot g steps ih =>
    have hr : g.Runs x place v steps _ _ := h
    have hstarted := hr.started hrest
    have hsole' {s : Step} (hm : s ∈ steps) : ∀ a ∈ s.leaves, x.sole a := fun a ha =>
      hsole a (leaves_subset hm ha)
    intro b
    cases hk : g.kind with
    | sequence =>
      rw [plan_sequence hk, leaves, Plan.begins]
      exact (hr.inOrder hstarted hk).begins hlogged hsole (hr.quiet hrest)
        (fun s hm _ _ _ hs => ⟨hs.answer?_of_value? hrest (hsole' hm),
          hs.value?_of_answer? (hsole' hm)⟩)
        (fun s hm _ _ hs => ih s hm hs (hsole' hm)) b
    | parallel keys policy =>
      have hfits := hr.fits
      rw [hk] at hfits
      rw [plan_parallel hk, leaves, Plan.begins]
      refine branchBegins_iff hfits ?_ b
      intro s hm
      obtain ⟨place', hs, -⟩ := (h.rested hrest hk).branches s hm
      exact ih s hm hs (hsole' hm)

/-! ## Failures -/

/-- What the group around the step gets from it is a failure. -/
def Failed (w : World) (s : Step) : Prop := ∃ e, s.result? w = some (.error e)

/-- What the group around the step gets from it is a value. -/
def Succeeded (w : World) (s : Step) : Prop := ∃ u, s.result? w = some (.ok u)

/-- A group that ends at the first failure sees one of its branches' failures: it looks at each of
them, or one has failed and all before it have succeeded. -/
def Noticed (w : World) (steps : List Step) : Prop :=
  steps.length ≤ Group.smallWidth ∨ ∃ (i : Nat) (s : Step), steps[i]? = some s ∧ s.Failed w ∧
    ∀ j < i, ∀ t : Step, steps[j]? = some t → t.Succeeded w

theorem result?_of_taken? {w : World} {o : Outcome} (h : s.taken? = some o) :
    s.result? w = some o := by
  rw [result?, h]
  rfl

/-- A running group at rest has taken all that its branches lead to. -/
theorem Rested.taken?_eq (h : Rested x v g steps) (hs : g.stage = .running) (hm : s ∈ steps) :
    s.taken? = s.result? x.world := by
  cases ht : s.taken? with
  | none => rw [h.quiet hs s hm (taken?_eq_none_iff.1 ht)]
  | some o => rw [result?_of_taken? ht]

/-- At rest a group that ends at the first failure has failed exactly when it sees a failure. -/
theorem Entered.failFast_iff (h : (Step.group slot g steps).Entered x place v) (hrest : x.AtRest)
    (hk : g.kind = .parallel keys .failFast) :
    (∃ e, g.stage = .finished (.error e)) ↔
      (∃ s ∈ steps, s.Failed x.world) ∧ Noticed x.world steps := by
  have hrested := h.rested hrest hk
  have htracks : g.tracksWakes steps.length = decide (Group.smallWidth < steps.length) := by
    rw [Group.tracksWakes, hk]
  have hverdict : g.verdict steps = takenInOrder keys steps := by rw [Group.verdict, hk]
  constructor
  · rintro ⟨e, hs⟩
    rcases hrested.decided _ hs with hv | ⟨ht, e', he, s, hm, hfailed⟩
    · rw [hverdict] at hv
      obtain ⟨i, s, hi, he, hbefore⟩ := takenInOrder_error.1 hv
      have hfailed : s.Failed x.world := ⟨e, result?_of_taken? he⟩
      refine ⟨⟨s, List.mem_of_getElem? hi, hfailed⟩, .inr ⟨i, s, hi, hfailed, ?_⟩⟩
      intro j hj t ht
      obtain ⟨u, hu⟩ := hbefore j hj t ht
      exact ⟨u, result?_of_taken? hu⟩
    · rw [htracks, decide_eq_false_iff_not] at ht
      exact ⟨⟨s, hm, e', result?_of_taken? hfailed⟩, .inl (Nat.not_lt.1 ht)⟩
  · rintro ⟨⟨s, hm, e, he⟩, hnoticed⟩
    rcases hrested.ended with hs | ⟨_ | u, hs⟩
    · have hund := hrested.undecided hs
      rcases hnoticed with hsmall | ⟨i, t, hi, ⟨e', he'⟩, hbefore⟩
      · refine absurd ⟨s, hm, (hrested.taken?_eq hs hm).trans he⟩ (hund.fine ?_ e)
        rw [htracks]
        exact decide_eq_false (Nat.not_lt.2 hsmall)
      · have hv := hund.verdict
        rw [hverdict, takenInOrder_error.2 ⟨i, t, hi,
          (hrested.taken?_eq hs (List.mem_of_getElem? hi)).trans he', fun j hj t' ht' => by
            rw [hrested.taken?_eq hs (List.mem_of_getElem? ht')]
            exact hbefore j hj t' ht'⟩] at hv
        cases hv
    · exact ⟨_, hs⟩
    · obtain ⟨values, hvalues, -⟩ := (hrested.decided _ hs).values hk
      obtain ⟨u', hu'⟩ := all_of_takenValues hvalues s hm
      rw [result?_of_taken? hu'] at he
      cases he

/-- At rest a group that waits for all branches has ended if all of them have, and with a value
exactly when none failed. -/
theorem Entered.settleAll_iff (h : (Step.group slot g steps).Entered x place v) (hrest : x.AtRest)
    (hk : g.kind = .parallel keys .settleAll) (hall : ∀ s ∈ steps, s.result? x.world ≠ none) :
    (∃ o, g.stage = .finished o) ∧
      ((∃ u, g.stage = .finished (.ok u)) ↔ ∀ s ∈ steps, ¬s.Failed x.world) := by
  have hrested := h.rested hrest hk
  obtain ⟨o, hs⟩ := hrested.ended.resolve_left fun hs => by
    obtain ⟨s, hm, hd⟩ := hrested.awaits hs
    exact hall s hm (hrested.quiet hs s hm hd)
  refine ⟨⟨o, hs⟩, ?_⟩
  constructor
  · rintro ⟨u, hu⟩ s hm ⟨e, he⟩
    obtain ⟨values, hvalues, -⟩ := (hrested.decided _ hu).values hk
    obtain ⟨u', hu'⟩ := all_of_takenValues hvalues s hm
    rw [result?_of_taken? hu'] at he
    cases he
  · intro hfine
    cases o with
    | ok u => exact ⟨u, hs⟩
    | error e =>
      obtain ⟨s, hm, he⟩ := (hrested.decided _ hs).tookFailure hrested.recorded hk
      exact absurd ⟨e, result?_of_taken? he⟩ (hfine s hm)

/-- A sequence around a group that has failed has failed, once it is at rest. -/
theorem EnteredInOrder.fails {o : Option Outcome} {e : PlaylistError} {steps' : List Step}
    (h : EnteredInOrder x place index v o steps)
    (hquiet : o = none → ∀ s ∈ steps, s.isAwaited = true → s.Quiet x.world)
    (hm : .group slot g steps' ∈ steps) (hs : g.stage = .finished (.error e)) :
    ∃ e, o = some (.error e) := by
  have hfresh {rest : List Step} (hu : ∀ t ∈ rest, t.Untouched x)
      (hm : .group slot g steps' ∈ rest) : False := by
    have hstage := (hu _ hm).1.2.1
    rw [hs] at hstage
    cases hstage
  induction steps generalizing index v with
  | nil => cases hm
  | cons s rest ih =>
    obtain ⟨hent, htied, hnext⟩ := h
    have hquiet' := fun ho => hquiet ho s List.mem_cons_self
    split at hnext
    next ht =>
      rcases List.mem_cons.1 hm with rfl | hm
      · have hnone := (hquiet' hnext.1 (hent.awaited htied ht)).answer?_eq
        rw [answer?, hs] at hnone
        cases hnone
      · exact (hfresh hnext.2 hm).elim
    next e' ht => exact ⟨e', hnext.1⟩
    next u ht =>
      rcases List.mem_cons.1 hm with rfl | hm
      · rcases htied with rfl | ⟨o', rfl, ho'⟩
        · cases ht
        · rw [hs] at ho'
          cases ho'
          cases ht
      · exact ih hnext (fun ho s hm => hquiet ho s (List.mem_cons_of_mem _ hm)) hm

end Step

end Rundown
