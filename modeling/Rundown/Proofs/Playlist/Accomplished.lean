import Rundown.Proofs.Playlist.Rest

/-!
# What has been done below a step

At any time the leaves below an entered step have begun only as its plan says
(`Step.Entered.planned`).  A step that has ended with a value has accomplished everything below it
(`Step.Entered.accomplished`), and one that has ended with a failure has it from a leaf
(`Step.Entered.failed_leaf`).  So a step of a sequence is untouched until all steps before it are
accomplished (`Step.Known.untouched_or_accomplished`).
-/

namespace Rundown

namespace Step

variable {x : Scene} {place : List Nat} {index : Nat} {v u : Json} {s t : Step} {steps : List Step}
  {slot : Slot} {g : Group} {keys : List String} {o : Outcome}

/-! ## Begins -/

/-- Whatever began below the step began as its plan says. -/
def Planned (x : Scene) (v : Json) (s : Step) : Prop :=
  ∀ b ∈ x.world.begun, b.1 ∈ s.leaves → b ∈ s.plan.begins x.world.settlement? v

/-- A branch begins what its plan says, whatever the other branches do. -/
theorem mem_branchBegins {settled : Settlements} (hfits : keys.length = steps.length)
    {b : ActionId × Json} :
    b ∈ Plan.branchBegins settled (keys.zip (planList steps)) v ↔
      ∃ s ∈ steps, b ∈ s.plan.begins settled v := by
  induction steps generalizing keys with
  | nil =>
    obtain rfl := List.length_eq_zero_iff.1 hfits
    simp [planList, Plan.branchBegins]
  | cons s rest ih =>
    cases keys with
    | nil => cases hfits
    | cons key keys =>
      rw [planList, List.zip_cons_cons, Plan.branchBegins, List.mem_append,
        ih (Nat.succ.inj hfits)]
      simp only [List.mem_cons, exists_eq_or_imp]

theorem EnteredInOrder.planned {o : Option Outcome} (h : EnteredInOrder x place index v o steps)
    (hlogged : x.world.Logged) (hsole : ∀ a ∈ leavesList steps, x.sole a)
    (hplanned : ∀ s ∈ steps, ∀ {place : List Nat} {v : Json}, s.Entered x place v → s.Planned x v)
    {b : ActionId × Json} (hb : b ∈ x.world.begun) (ha : b.1 ∈ leavesList steps) :
    b ∈ Plan.sequenceBegins x.world.settlement? (planList steps) v := by
  induction steps generalizing index v with
  | nil => cases ha
  | cons s rest ih =>
    rw [List.forall_mem_cons] at hplanned
    have hssole : ∀ a ∈ s.leaves, x.sole a := fun a ha => hsole a (List.mem_append_left _ ha)
    obtain ⟨hs, htied, hnext⟩ := h
    rw [planList, Plan.sequenceBegins, List.mem_append]
    rcases List.mem_append.1 ha with ha | ha
    · exact .inl (hplanned.1 hs b hb ha)
    · have hnot (hu : ∀ t ∈ rest, t.Untouched x) : False := by
        obtain ⟨t, hm, ht⟩ := List.mem_flatMap.1 (leavesList_eq rest ▸ ha)
        exact (hu t hm).not_begun hlogged hb ht (hsole _ (List.mem_append_right _ ha))
      split at hnext
      next => exact (hnot hnext.2).elim
      next => exact (hnot hnext.2).elim
      next u ht =>
        rw [hs.value?_of_answer? hssole (hs.answer?_of_taken? htied hssole ht)]
        exact .inr (ih hnext (fun a ha => hsole a (List.mem_append_right _ ha)) hplanned.2 ha)

/-- At any time the leaves below an entered step have begun only as its plan says. -/
theorem Entered.planned (h : s.Entered x place v) (hlogged : x.world.Logged)
    (hsole : ∀ a ∈ s.leaves, x.sole a) : s.Planned x v := by
  induction s using induction generalizing place v with
  | leaf slot a =>
    have hbegan := h.began_leaf (hsole a (List.mem_singleton.2 rfl))
    rintro ⟨b, u⟩ hb ha
    obtain rfl : b = a := List.mem_singleton.1 ha
    rw [hlogged.input_unique hb hbegan.1]
    exact List.mem_singleton.2 rfl
  | group slot g steps ih =>
    have hr : g.Runs x place v steps _ _ := h
    have hbelow : ∀ s ∈ steps, ∀ {place : List Nat} {v : Json}, s.Entered x place v →
        s.Planned x v := fun s hm _ _ hs => ih s hm hs fun a ha => hsole a (leaves_subset hm ha)
    intro b hb (ha : b.1 ∈ leavesList steps)
    have hstarted (hs : g.stage.isStarted = true) :
        b ∈ (Step.group slot g steps).plan.begins x.world.settlement? v := by
      cases hk : g.kind with
      | sequence =>
        rw [plan_sequence hk, Plan.begins]
        exact (hr.inOrder hs hk).planned hlogged hsole hbelow hb ha
      | parallel keys policy =>
        have hfits := hr.fits
        rw [hk] at hfits
        rw [plan_parallel hk, Plan.begins, mem_branchBegins hfits]
        obtain ⟨s, hm, ha⟩ := List.mem_flatMap.1 (leavesList_eq steps ▸ ha)
        obtain ⟨i, hi⟩ := List.mem_iff_getElem?.1 hm
        have hne : g.kind ≠ .sequence := by rw [hk]; exact fun h => by cases h
        have hs := (enteredAll_iff.1 (hr.together hs hne) i s hi).1
        exact ⟨s, hm, hbelow s hm hs b hb ha⟩
    cases hs : g.stage with
    | created => exact absurd hs hr.created
    | expired => exact absurd hs hr.expired
    | triggered input =>
      obtain ⟨s, hm, ht⟩ := List.mem_flatMap.1 (leavesList_eq steps ▸ ha)
      exact (((hr.triggered input hs).2.2 s hm).not_begun hlogged hb ht (hsole _ ha)).elim
    | running | finished => exact hstarted (by rw [hs]; rfl)

/-! ## Successes -/

/-- Every leaf below the step began and has settled with a value, and every group below it has
completed. -/
structure Accomplished (x : Scene) (s : Step) : Prop where
  leaves : ∀ a ∈ s.leaves, (∃ v, x.world.Began a v) ∧ ∃ u, x.world.settlement? a = some (.ok u)
  groups : ∀ place slot g steps, s.at? place = some (.group slot g steps) →
    g.stage.state = .completed

theorem Accomplished.of_leaf {a : ActionId} (hv : x.world.Began a v)
    (hu : x.world.settlement? a = some (.ok u)) : (Step.leaf slot a).Accomplished x where
  leaves b hb := by
    obtain rfl := List.mem_singleton.1 hb
    exact ⟨⟨v, hv⟩, u, hu⟩
  groups place slot' g steps hat := by cases place <;> cases hat

theorem Accomplished.of_steps (hstage : g.stage.state = .completed)
    (h : ∀ s ∈ steps, s.Accomplished x) : (Step.group slot g steps).Accomplished x where
  leaves a ha := by
    rw [Step.leaves, leavesList_eq] at ha
    obtain ⟨s, hm, ha⟩ := List.mem_flatMap.1 ha
    exact (h s hm).leaves a ha
  groups place slot' g' steps' hat := by
    cases place with
    | nil =>
      cases hat
      exact hstage
    | cons i place =>
      obtain ⟨s, hi, hat⟩ := Option.bind_eq_some_iff.1 hat
      exact (h s (List.mem_of_getElem? hi)).groups place slot' g' steps' hat

/-- All steps of a sequence that has ended with a value have. -/
theorem EnteredInOrder.all_taken (h : EnteredInOrder x place index v (some (.ok u)) steps) :
    ∀ s ∈ steps, ∃ place v u, s.Entered x place v ∧ s.Tied ∧ s.taken? = some (.ok u) := by
  induction steps generalizing index v with
  | nil => exact fun s hs => by cases hs
  | cons s rest ih =>
    obtain ⟨hs, htied, hnext⟩ := h
    split at hnext
    next => cases hnext.1
    next => cases hnext.1
    next u' ht => exact List.forall_mem_cons.2 ⟨⟨_, v, u', hs, htied, ht⟩, ih hnext⟩

/-- Of a group that has ended with a value, every step has. -/
theorem Entered.all_taken (h : (Step.group slot g steps).Entered x place v)
    (hs : g.stage = .finished (.ok u)) :
    ∀ s ∈ steps, ∃ place v u, s.Entered x place v ∧ s.Tied ∧ s.taken? = some (.ok u) := by
  have hr : g.Runs x place v steps _ _ := h
  have hstarted : g.stage.isStarted = true := by rw [hs]; rfl
  cases hk : g.kind with
  | sequence =>
    have hsteps := hr.inOrder hstarted hk
    rw [hs] at hsteps
    exact EnteredInOrder.all_taken hsteps
  | parallel keys policy =>
    have hne : g.kind ≠ .sequence := by rw [hk]; exact fun h => by cases h
    obtain ⟨values, hvalues, -⟩ := ((hr.joins hstarted hne).decided _ hs).values hk
    intro s hm
    obtain ⟨i, hi⟩ := List.mem_iff_getElem?.1 hm
    obtain ⟨hent, htied⟩ := enteredAll_iff.1 (hr.together hstarted hne) i s hi
    obtain ⟨u', hu'⟩ := all_of_takenValues hvalues s hm
    exact ⟨_, v, u', hent, htied, hu'⟩

/-- A step that has ended with a value has accomplished everything below it. -/
theorem Entered.accomplished (h : s.Entered x place v) (hsole : ∀ a ∈ s.leaves, x.sole a)
    (ha : s.answer? x.world = some (.ok u)) : s.Accomplished x := by
  induction s using induction generalizing place v u with
  | leaf slot a =>
    have hvalue := h.value?_of_answer? hsole ha
    obtain ⟨t, ht, hu⟩ := Option.bind_eq_some_iff.1 hvalue
    cases t with
    | error e => cases hu
    | ok u' => exact .of_leaf (h.began_leaf (hsole a (List.mem_singleton.2 rfl))) ht
  | group slot g steps ih =>
    have hfinished : g.stage = .finished (.ok u) := finished_of_outcome? h ha
    refine .of_steps (by rw [hfinished]; rfl) ?_
    intro s hm
    have hssole : ∀ a ∈ s.leaves, x.sole a := fun a ha => hsole a (leaves_subset hm ha)
    obtain ⟨place', v', u', hs, htied, ht⟩ := h.all_taken hfinished s hm
    exact ih s hm hs hssole (hs.answer?_of_taken? htied hssole ht)

/-! ## Failures -/

/-- A sequence that has ended with a failure has it from one of its steps. -/
theorem EnteredInOrder.took_error {e : PlaylistError}
    (h : EnteredInOrder x place index v (some (.error e)) steps) :
    ∃ s ∈ steps, ∃ place v, s.Entered x place v ∧ s.Tied ∧ s.taken? = some (.error e) := by
  induction steps generalizing index v with
  | nil => cases h
  | cons s rest ih =>
    obtain ⟨hs, htied, hnext⟩ := h
    split at hnext
    next => cases hnext.1
    next e' ht =>
      cases hnext.1
      exact ⟨s, List.mem_cons_self, _, v, hs, htied, ht⟩
    next =>
      obtain ⟨t, hm, ht⟩ := ih hnext
      exact ⟨t, List.mem_cons_of_mem _ hm, ht⟩

/-- A group that has ended with a failure has it from one of its steps. -/
theorem Entered.took_error {e : PlaylistError} (h : (Step.group slot g steps).Entered x place v)
    (hs : g.stage = .finished (.error e)) :
    ∃ s ∈ steps, ∃ place v, s.Entered x place v ∧ s.Tied ∧ s.taken? = some (.error e) := by
  have hr : g.Runs x place v steps _ _ := h
  have hstarted : g.stage.isStarted = true := by rw [hs]; rfl
  cases hk : g.kind with
  | sequence =>
    have hsteps := hr.inOrder hstarted hk
    rw [hs] at hsteps
    exact EnteredInOrder.took_error hsteps
  | parallel keys policy =>
    have hne : g.kind ≠ .sequence := by rw [hk]; exact fun h => by cases h
    have hjoins := hr.joins hstarted hne
    obtain ⟨s, hm, he⟩ := (hjoins.decided _ hs).tookFailure hjoins.recorded hk
    obtain ⟨i, hi⟩ := List.mem_iff_getElem?.1 hm
    obtain ⟨hent, htied⟩ := enteredAll_iff.1 (hr.together hstarted hne) i s hi
    exact ⟨s, hm, _, v, hent, htied, he⟩

/-- A step that has ended with a failure has it from a leaf below. -/
theorem Entered.failed_leaf {e : PlaylistError} (h : s.Entered x place v)
    (hsole : ∀ a ∈ s.leaves, x.sole a) (ha : s.answer? x.world = some (.error e)) :
    ∃ a ∈ s.leaves, ∃ err, e = .action err ∧ x.world.settlement? a = some (.error err) := by
  induction s using induction generalizing place v with
  | leaf slot a =>
    have hfailed : (x.world.settlement? a).map (Except.mapError PlaylistError.action) =
        some (.error e) := by
      cases slot with
      | idle => exact h.elim
      | refused e' => exact absurd (hsole a (List.mem_singleton.2 rfl)) h.2
      | waiting | done => exact ha
    obtain ⟨t, ht, he⟩ := Option.map_eq_some_iff.1 hfailed
    cases t with
    | ok u => cases he
    | error err =>
      cases he
      exact ⟨a, List.mem_singleton.2 rfl, err, rfl, ht⟩
  | group slot g steps ih =>
    have hfinished : g.stage = .finished (.error e) := finished_of_outcome? h ha
    obtain ⟨s, hm, place', v', hs, htied, ht⟩ := h.took_error hfinished
    have hssole : ∀ a ∈ s.leaves, x.sole a := fun a ha => hsole a (leaves_subset hm ha)
    obtain ⟨a, ha, herr⟩ := ih s hm hs hssole (hs.answer?_of_taken? htied hssole ht)
    exact ⟨a, leaves_subset hm ha, herr⟩

/-! ## Steps in order -/

/-- A later step of a sequence is untouched until the outcome of an earlier one has been taken. -/
theorem EnteredInOrder.untouched_or {o : Option Outcome} {i j : Nat}
    (h : EnteredInOrder x place index v o steps) (hij : i < j) (hi : steps[i]? = some s)
    (hj : steps[j]? = some t) :
    t.Untouched x ∨ ∃ place v u, s.Entered x place v ∧ s.Tied ∧ s.taken? = some (.ok u) := by
  induction steps generalizing index v i j with
  | nil => cases hi
  | cons r rest ih =>
    obtain ⟨hr, htied, hnext⟩ := h
    cases j with
    | zero => cases hij
    | succ j =>
      rw [List.getElem?_cons_succ] at hj
      split at hnext
      next => exact .inl (hnext.2 t (List.mem_of_getElem? hj))
      next => exact .inl (hnext.2 t (List.mem_of_getElem? hj))
      next u ht =>
        cases i with
        | zero =>
          cases hi
          exact .inr ⟨_, v, u, hr, htied, ht⟩
        | succ i => exact ih hnext (Nat.lt_of_succ_lt_succ hij) hi hj

/-- A later step of a sequence is untouched until the value of every earlier one has been taken. -/
theorem Known.untouched_or_taken {i j : Nat} (h : (Step.group slot g steps).Known x place)
    (hk : g.kind = .sequence) (hij : i < j) (hi : steps[i]? = some s) (hj : steps[j]? = some t) :
    t.Untouched x ∨ ∃ place v u, s.Entered x place v ∧ s.Tied ∧ s.taken? = some (.ok u) := by
  have hm := List.mem_of_getElem? hj
  rcases h with ⟨v, h⟩ | h | h
  · have hr : g.Runs x place v steps _ _ := h
    have hstarted (hs : g.stage.isStarted = true) := (hr.inOrder hs hk).untouched_or hij hi hj
    cases hs : g.stage with
    | created => exact absurd hs hr.created
    | expired => exact absurd hs hr.expired
    | triggered input => exact .inl ((hr.triggered input hs).2.2 t hm)
    | running | finished => exact hstarted (by rw [hs]; rfl)
  · exact .inl (h.child t hm)
  · exact .inl (h.2.2.2.2 t hm)

/-- A later step of a sequence is untouched until every earlier one is accomplished. -/
theorem Known.untouched_or_accomplished {i j : Nat} (h : (Step.group slot g steps).Known x place)
    (hk : g.kind = .sequence) (hsole : ∀ a ∈ s.leaves, x.sole a) (hij : i < j)
    (hi : steps[i]? = some s) (hj : steps[j]? = some t) : t.Untouched x ∨ s.Accomplished x := by
  rcases h.untouched_or_taken hk hij hi hj with hu | ⟨_, _, u, hs, htied, ht⟩
  · exact .inl hu
  · exact .inr (hs.accomplished hsole (hs.answer?_of_taken? htied hsole ht))

end Step

end Rundown
