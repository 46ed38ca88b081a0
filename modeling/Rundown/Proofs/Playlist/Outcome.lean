import Rundown.Proofs.Playlist.Poll

/-!
# What an outcome says

`Step.Entered.value?_of_answer?`: a step that ends with a value ends with the value of its plan.
`Step.Entered.over`: when every group waits for all of its branches, nothing is left running below a
step that has ended.  Both hold at any time.
-/

namespace Rundown

namespace Step

variable {x : Scene} {place : List Nat} {index : Nat} {v u : Json} {s : Step} {steps : List Step}
  {keys : List String} {o : Outcome}

/-! ## Outcomes in order -/

theorem takenValues_of_all (h : ∀ s ∈ steps, ∃ u, s.taken? = some (.ok u)) :
    ∃ values, takenValues steps = some values := by
  induction steps with
  | nil => exact ⟨[], rfl⟩
  | cons s rest ih =>
    rw [List.forall_mem_cons] at h
    obtain ⟨⟨u, hu⟩, hrest⟩ := h
    obtain ⟨values, hvalues⟩ := ih hrest
    exact ⟨u :: values, by simp only [takenValues, hu, hvalues, Option.map_some]⟩

theorem all_of_takenValues {values : List Json} (h : takenValues steps = some values) :
    ∀ s ∈ steps, ∃ u, s.taken? = some (.ok u) := by
  induction steps generalizing values with
  | nil => exact fun s hs => by cases hs
  | cons s rest ih =>
    unfold takenValues at h
    split at h
    next u hu =>
      obtain ⟨values', hvalues, -⟩ := Option.map_eq_some_iff.1 h
      exact List.forall_mem_cons.2 ⟨⟨u, hu⟩, ih hvalues⟩
    · cases h

theorem taken?_of_isDone (h : s.isDone = true) : ∃ o, s.taken? = some o := by
  refine Option.ne_none_iff_exists'.1 ?_
  intro hnone
  rw [taken?_eq_none_iff.1 hnone] at h
  cases h

theorem takenInOrder_of_isDone (h : ∀ s ∈ steps, s.isDone = true) (keys : List String) :
    ∃ o, takenInOrder keys steps = some o := by
  rw [takenInOrder_eq]
  split
  next s hfind => exact taken?_of_isDone (h s (List.mem_of_find?_eq_some hfind))
  next hfind =>
    have hall : ∀ s ∈ steps, ∃ u, s.taken? = some (.ok u) := by
      intro s hs
      have := List.find?_eq_none.1 hfind s hs
      rw [Bool.not_eq_true, Bool.not_eq_false'] at this
      exact succeeded_iff.1 this
    obtain ⟨values, hvalues⟩ := takenValues_of_all hall
    exact ⟨_, by rw [hvalues]; rfl⟩

theorem takenInOrder_ok (h : takenInOrder keys steps = some (.ok u)) :
    ∃ values, takenValues steps = some values ∧ u = Json.objectOf (keys.zip values) := by
  rw [takenInOrder_eq] at h
  split at h
  next t hfind =>
    have hnot := List.find?_some hfind
    rw [succeeded_iff.2 ⟨u, h⟩] at hnot
    cases hnot
  next =>
    obtain ⟨values, hvalues, hu⟩ := Option.map_eq_some_iff.1 h
    cases hu
    exact ⟨values, hvalues, Json.ofFields_eq _⟩

/-- Branches taken in order fail with the failure of a branch before which all have succeeded. -/
theorem takenInOrder_error {e : PlaylistError} :
    takenInOrder keys steps = some (.error e) ↔
      ∃ (i : Nat) (s : Step), steps[i]? = some s ∧ s.taken? = some (.error e) ∧
        ∀ j < i, ∀ t : Step, steps[j]? = some t → ∃ u, t.taken? = some (.ok u) := by
  rw [takenInOrder_eq]
  constructor
  · intro h
    split at h
    next s hfind =>
      obtain ⟨-, i, hi, rfl, hbefore⟩ := List.find?_eq_some_iff_getElem.1 hfind
      refine ⟨i, _, List.getElem?_eq_getElem hi, h, fun j hj t ht => ?_⟩
      obtain ⟨hlt, rfl⟩ := List.getElem?_eq_some_iff.1 ht
      have := hbefore j hj
      rw [Bool.not_not] at this
      exact succeeded_iff.1 this
    next =>
      obtain ⟨values, -, hu⟩ := Option.map_eq_some_iff.1 h
      cases hu
  · rintro ⟨i, s, hi, hs, hbefore⟩
    obtain ⟨hlt, rfl⟩ := List.getElem?_eq_some_iff.1 hi
    have hfind : (steps.find? fun s => !s.succeeded) = some steps[i] := by
      refine List.find?_eq_some_iff_getElem.2
        ⟨by simp [succeeded, isValue, hs], i, hlt, rfl, fun j hj => ?_⟩
      rw [Bool.not_not]
      exact succeeded_iff.2 (hbefore j hj _ (List.getElem?_eq_getElem (hj.trans hlt)))
    rw [hfind]
    exact hs

/-! ## Values -/

/-- What was taken from a step is what it leads to. -/
theorem Entered.answer?_of_taken? (h : s.Entered x place v) (ht : s.Tied)
    (hsole : ∀ a ∈ s.leaves, x.sole a) (ho : s.taken? = some o) : s.answer? x.world = some o := by
  cases s with
  | leaf slot a =>
    have hres := Entered.result?_leaf h (hsole a (List.mem_singleton.2 rfl))
    rw [result?, ho, Option.some_or] at hres
    cases slot with
    | done o' => exact hres.symm
    | idle | waiting | refused => cases ho
  | group slot g steps =>
    rcases ht with rfl | ⟨o', rfl, hs⟩
    · cases ho
    · cases ho
      simp only [answer?, hs, Stage.outcome?]

theorem branchValues?_of_takenValues {settled : Settlements} {values : List Json}
    (hfits : keys.length = steps.length)
    (hvalue : ∀ s ∈ steps, ∀ u, s.taken? = some (.ok u) → s.plan.value? settled v = some u)
    (h : takenValues steps = some values) :
    Plan.branchValues? settled (keys.zip (planList steps)) v = some (keys.zip values) := by
  induction steps generalizing keys values with
  | nil =>
    cases h
    obtain rfl := List.length_eq_zero_iff.1 hfits
    rfl
  | cons s rest ih =>
    cases keys with
    | nil => cases hfits
    | cons key keys =>
      rw [List.forall_mem_cons] at hvalue
      unfold takenValues at h
      split at h
      next u hu =>
        obtain ⟨values', hvalues, rfl⟩ := Option.map_eq_some_iff.1 h
        simp only [planList, List.zip_cons_cons, Plan.branchValues?, hvalue.1 u hu,
          Option.bind_some, ih (Nat.succ.inj hfits) hvalue.2 hvalues, Option.map_some]
      · cases h

/-- Steps that all succeed end with the value of the last of them. -/
theorem EnteredInOrder.value? {settled : Settlements}
    (hvalue : ∀ s ∈ steps, ∀ {place : List Nat} {v u : Json}, s.Entered x place v → s.Tied →
      s.taken? = some (.ok u) → s.plan.value? settled v = some u)
    (h : EnteredInOrder x place index v (some (.ok u)) steps) :
    Plan.sequenceValue? settled (planList steps) v = some u := by
  induction steps generalizing index v with
  | nil =>
    cases h
    rfl
  | cons s rest ih =>
    rw [List.forall_mem_cons] at hvalue
    obtain ⟨hs, htied, htaken⟩ := h
    split at htaken
    · cases htaken.1
    · cases htaken.1
    next t ht =>
      rw [planList, Plan.sequenceValue?, hvalue.1 hs htied ht, Option.bind_some]
      exact ih hvalue.2 htaken

end Step

namespace Group

open Step

variable {x : Scene} {g : Group} {steps : List Step} {o : Outcome} {u : Json}
  {keys : List String} {policy : FailurePolicy}

/-- A verdict that is a value is that of the branches taken in order. -/
theorem verdict_ok (hk : g.kind = .parallel keys policy) (h : g.verdict steps = some (.ok u)) :
    takenInOrder keys steps = some (.ok u) := by
  cases policy with
  | failFast => simpa only [verdict, hk] using h
  | settleAll =>
    simp only [verdict, hk] at h
    split at h
    · split at h
      · cases h
      · exact h
    · cases h

/-- Once every branch is done, there is a verdict. -/
theorem verdict_of_isDone (hk : g.kind = .parallel keys policy)
    (h : ∀ s ∈ steps, s.isDone = true) : ∃ o, g.verdict steps = some o := by
  have hinOrder := takenInOrder_of_isDone h keys
  cases policy with
  | failFast => simpa only [verdict, hk] using hinOrder
  | settleAll =>
    simp only [verdict, hk, List.all_eq_true.2 h, if_true]
    cases g.firstFailure with
    | some e => exact ⟨_, rfl⟩
    | none => exact hinOrder

/-- A group that has ended with a failure has taken one from a branch. -/
theorem Decided.tookFailure {e : PlaylistError} (h : g.Decided steps (.error e))
    (hrecorded : g.Recorded steps) (hk : g.kind = .parallel keys policy) :
    TookFailure steps e := by
  have inOrder (h : takenInOrder keys steps = some (.error e)) : TookFailure steps e := by
    obtain ⟨i, s, hi, hs, -⟩ := takenInOrder_error.1 h
    exact ⟨s, List.mem_of_getElem? hi, hs⟩
  rcases h with h | ⟨-, e', he, htook⟩
  · cases policy with
    | failFast =>
      simp only [verdict, hk] at h
      exact inOrder h
    | settleAll =>
      simp only [verdict, hk] at h
      split at h
      · split at h
        next e' he =>
          cases h
          exact hrecorded.took e he
        · exact inOrder h
      · cases h
  · cases he
    exact htook

/-- A group that has ended with a value has taken a value from every branch. -/
theorem Decided.values (h : g.Decided steps (.ok u)) (hk : g.kind = .parallel keys policy) :
    ∃ values, takenValues steps = some values ∧ u = Json.objectOf (keys.zip values) := by
  rcases h with h | ⟨-, e, he, -⟩
  · exact takenInOrder_ok (verdict_ok hk h)
  · cases he

end Group

namespace Step

variable {x : Scene} {place : List Nat} {index : Nat} {v u : Json} {s : Step} {steps : List Step}

theorem plan_sequence {slot : Slot} {g : Group} (hk : g.kind = .sequence) :
    (Step.group slot g steps).plan = .sequence (planList steps) := by
  simp only [plan, hk]

theorem plan_parallel {slot : Slot} {g : Group} {keys : List String} {policy : FailurePolicy}
    (hk : g.kind = .parallel keys policy) :
    (Step.group slot g steps).plan = .parallel (keys.zip (planList steps)) := by
  simp only [plan, hk]

theorem finished_of_outcome? {x : Scene} {slot : Slot} {g : Group} {o : Outcome}
    (h : (Step.group slot g steps).Entered x place v) (ho : g.stage.outcome? = some o) :
    g.stage = .finished o := by
  have hr : g.Runs x place v steps _ _ := h
  cases hs : g.stage with
  | expired => exact absurd hs hr.expired
  | finished o' => rw [hs] at ho; cases ho; rfl
  | created | triggered | running => rw [hs] at ho; cases ho

/-- A step that has ended with a value has ended with the value of its plan. -/
theorem Entered.value?_of_answer? (h : s.Entered x place v) (hsole : ∀ a ∈ s.leaves, x.sole a)
    (ha : s.answer? x.world = some (.ok u)) : s.plan.value? x.world.settlement? v = some u := by
  induction s using induction generalizing place v u with
  | leaf slot a =>
    obtain ⟨t, ht, hu⟩ : ∃ t, x.world.settlement? a = some t ∧
        Except.mapError PlaylistError.action t = .ok u := by
      cases slot with
      | idle => exact h.elim
      | refused e => cases ha
      | waiting | done => exact Option.map_eq_some_iff.1 ha
    rw [plan, Plan.value?, ht, Option.bind_some]
    cases t with
    | error e => cases hu
    | ok u' => cases hu; rfl
  | group slot g steps ih =>
    have hr : g.Runs x place v steps _ _ := h
    have hfinished : g.stage = .finished (.ok u) := finished_of_outcome? h ha
    have hstarted : g.stage.isStarted = true := by rw [hfinished]; rfl
    have htaken : ∀ s ∈ steps, ∀ {place : List Nat} {v u : Json}, s.Entered x place v → s.Tied →
        s.taken? = some (.ok u) → s.plan.value? x.world.settlement? v = some u :=
      fun s hm _ _ _ hs ht hu =>
        have hsole : ∀ a ∈ s.leaves, x.sole a := fun a ha => hsole a (leaves_subset hm ha)
        ih s hm hs hsole (hs.answer?_of_taken? ht hsole hu)
    cases hk : g.kind with
    | sequence =>
      have hsteps := hr.inOrder hstarted hk
      rw [hfinished] at hsteps
      rw [plan_sequence hk, Plan.value?]
      exact EnteredInOrder.value? htaken hsteps
    | parallel keys policy =>
      have hne : g.kind ≠ .sequence := by rw [hk]; exact fun h => by cases h
      obtain ⟨values, hvalues, rfl⟩ := ((hr.joins hstarted hne).decided _ hfinished).values hk
      have hfits := hr.fits
      rw [hk] at hfits
      rw [plan_parallel hk, Plan.value?, branchValues?_of_takenValues hfits ?_ hvalues]
      · rfl
      · intro s hm u hu
        obtain ⟨i, hi⟩ := List.mem_iff_getElem?.1 hm
        obtain ⟨hs, ht⟩ := enteredAll_iff.1 (hr.together hstarted hne) i s hi
        exact htaken s hm hs ht hu

/-! ## Nothing outstanding -/

/-- Every leaf of the step that began has settled, and no group of the step runs. -/
structure Over (x : Scene) (s : Step) : Prop where
  settled : ∀ a ∈ s.leaves, x.world.started? a = some true → x.world.settlement? a ≠ none
  still : ∀ place slot g steps, s.at? place = some (.group slot g steps) → g.stage.state ≠ .running

theorem Over.leaf {slot : Slot} {a : ActionId}
    (h : x.world.started? a = some true → x.world.settlement? a ≠ none) :
    (Step.leaf slot a).Over x := by
  constructor
  · intro b hb
    obtain rfl := List.mem_singleton.1 hb
    exact h
  · intro place slot' g steps hat
    cases place <;> cases hat

theorem Over.group {slot : Slot} {g : Group} (hstage : g.stage.state ≠ .running)
    (h : ∀ s ∈ steps, s.Over x) : (Step.group slot g steps).Over x := by
  constructor
  · intro a ha hs
    rw [leaves, leavesList_eq] at ha
    obtain ⟨s, hm, ha⟩ := List.mem_flatMap.1 ha
    exact (h s hm).settled a ha hs
  · intro place slot' g' steps' hat
    cases place with
    | nil =>
      cases hat
      exact hstage
    | cons index place =>
      obtain ⟨s, hi, hat⟩ := Option.bind_eq_some_iff.1 hat
      exact (h s (List.mem_of_getElem? hi)).still place slot' g' steps' hat

theorem Untouched.over (h : s.Untouched x) (hsole : ∀ a ∈ s.leaves, x.sole a) : s.Over x := by
  induction s using induction with
  | leaf slot a =>
    refine .leaf ?_
    intro hs
    have ha : a ∈ (Step.leaf slot a).leaves := List.mem_singleton.2 rfl
    rw [(h.2 a ha (hsole a ha)).1] at hs
    cases hs
  | group slot g steps ih =>
    have hstage : g.stage = .created := h.1.2.1
    refine .group (by rw [hstage]; exact fun h => by cases h) ?_
    intro s hm
    exact ih s hm (h.child s hm) fun a ha => hsole a (leaves_subset hm ha)

/-- Steps of which the last has ended are over. -/
theorem EnteredInOrder.over {o : Outcome} (hsole : ∀ a ∈ leavesList steps, x.sole a)
    (htaken : ∀ s ∈ steps, ∀ {place : List Nat} {v : Json} {o : Outcome}, s.Entered x place v →
      s.Tied → s.taken? = some o → s.Over x)
    (h : EnteredInOrder x place index v (some o) steps) : ∀ s ∈ steps, s.Over x := by
  induction steps generalizing index v with
  | nil => exact fun s hs => by cases hs
  | cons s rest ih =>
    rw [List.forall_mem_cons] at htaken
    have hrest : ∀ a ∈ leavesList rest, x.sole a := fun a ha =>
      hsole a (List.mem_append_right _ ha)
    have huntouched (hu : ∀ t ∈ rest, t.Untouched x) : ∀ t ∈ rest, t.Over x := fun t ht =>
      (hu t ht).over fun a ha => hrest a (leaves_subset ht ha)
    obtain ⟨hs, htied, hnext⟩ := h
    rw [List.forall_mem_cons]
    split at hnext
    next => cases hnext.1
    next ht => exact ⟨htaken.1 hs htied ht, huntouched hnext.2⟩
    next ht => exact ⟨htaken.1 hs htied ht, ih hrest htaken.2 hnext⟩

/-- When every group waits for all of its branches, a step that has ended is over. -/
theorem Entered.over (h : s.Entered x place v) (hsole : ∀ a ∈ s.leaves, x.sole a)
    (hunder : s.Under .settleAll) (ha : s.answer? x.world ≠ none) : s.Over x := by
  induction s using induction generalizing place v with
  | leaf slot a =>
    refine .leaf ?_
    intro _ hnone
    have hres := Entered.result?_leaf h (hsole a (List.mem_singleton.2 rfl))
    rw [hnone, Option.map_none, result?, Option.or_eq_none_iff] at hres
    exact ha hres.2
  | group slot g steps ih =>
    obtain ⟨o, ho⟩ := Option.ne_none_iff_exists'.1 ha
    obtain ⟨hpolicy, hbelow⟩ := hunder
    have hr : g.Runs x place v steps _ _ := h
    have hfinished : g.stage = .finished o := finished_of_outcome? h ho
    have hstarted : g.stage.isStarted = true := by rw [hfinished]; rfl
    have htaken : ∀ s ∈ steps, ∀ {place : List Nat} {v : Json} {o : Outcome}, s.Entered x place v →
        s.Tied → s.taken? = some o → s.Over x := by
      intro s hm _ _ o hs ht ho
      have hsole : ∀ a ∈ s.leaves, x.sole a := fun a ha => hsole a (leaves_subset hm ha)
      refine ih s hm hs hsole (underList_iff.1 hbelow s hm) ?_
      rw [hs.answer?_of_taken? ht hsole ho]
      exact Option.some_ne_none o
    refine .group ?_ ?_
    · rw [hfinished]
      cases o <;> exact fun h => by cases h
    · cases hk : g.kind with
      | sequence =>
        have hsteps := hr.inOrder hstarted hk
        rw [hfinished] at hsteps
        exact EnteredInOrder.over hsole htaken hsteps
      | parallel keys policy =>
        rw [hk] at hpolicy
        obtain rfl : policy = .settleAll := hpolicy
        have hne : g.kind ≠ .sequence := by rw [hk]; exact fun h => by cases h
        have hverdict := ((hr.joins hstarted hne).decided o hfinished).resolve_right fun hf => by
          have := hf.1
          rw [Group.tracksWakes, hk] at this
          cases this
        intro s hm
        obtain ⟨i, hi⟩ := List.mem_iff_getElem?.1 hm
        obtain ⟨hs, ht⟩ := enteredAll_iff.1 (hr.together hstarted hne) i s hi
        obtain ⟨o', ho'⟩ := taken?_of_isDone ((Group.verdict_settleAll hk hverdict).1 s hm)
        exact htaken s hm hs ht ho'

end Step

end Rundown
