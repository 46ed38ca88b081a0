import Rundown.Proofs.Plan
import Mathlib.Data.List.Basic

/-!
# The layout of a step

Looks and wakes change how far a step has come, never what it consists of: `Step.reset` is the step
as it was compiled, and everything that does not change is a function of it, such as its leaves, its
plan and its height.
-/

namespace Rundown.Step

mutual

/-- Induction over the tree of steps. -/
@[elab_as_elim]
theorem induction {P : Step → Prop} (leaf : ∀ slot a, P (.leaf slot a))
    (group : ∀ slot g steps, (∀ s ∈ steps, P s) → P (.group slot g steps)) : ∀ s, P s
  | .leaf slot a => leaf slot a
  | .group slot g steps => group slot g steps (inductionList leaf group steps)

/-- The same for every step of a list. -/
theorem inductionList {P : Step → Prop} (leaf : ∀ slot a, P (.leaf slot a))
    (group : ∀ slot g steps, (∀ s ∈ steps, P s) → P (.group slot g steps)) :
    ∀ steps : List Step, ∀ s ∈ steps, P s
  | [] => fun _ h => by cases h
  | s :: rest =>
    List.forall_mem_cons.2 ⟨induction leaf group s, inductionList leaf group rest⟩

end

mutual

/-- The actions of the leaves, from left to right. -/
def leaves : Step → List ActionId
  | leaf _ a => [a]
  | .group _ _ steps => leavesList steps

/-- The leaves of steps. -/
def leavesList : List Step → List ActionId
  | [] => []
  | s :: rest => s.leaves ++ leavesList rest

end

mutual

/-- The step as it was compiled. -/
def reset : Step → Step
  | leaf _ a => leaf .idle a
  | .group _ g steps => .group .idle (Group.fresh g.kind) (resetList steps)

/-- Steps as they were compiled. -/
def resetList : List Step → List Step
  | [] => []
  | s :: rest => s.reset :: resetList rest

end

mutual

/-- What the step does, whatever has become of it so far. -/
def plan : Step → Plan
  | leaf _ a => .leaf a
  | .group _ g steps =>
    match g.kind with
    | .sequence => .sequence (planList steps)
    | .parallel keys _ => .parallel (keys.zip (planList steps))

/-- The plans of steps. -/
def planList : List Step → List Plan
  | [] => []
  | s :: rest => s.plan :: planList rest

end

mutual

/-- Every parallel group of the step has this policy. -/
def Under (policy : FailurePolicy) : Step → Prop
  | leaf _ _ => True
  | .group _ g steps =>
    (match g.kind with
      | .sequence => True
      | .parallel _ policy' => policy' = policy) ∧ UnderList policy steps

/-- Every parallel group of the steps has this policy. -/
def UnderList (policy : FailurePolicy) : List Step → Prop
  | [] => True
  | s :: rest => s.Under policy ∧ UnderList policy rest

end

/-- The step that is reached by the given indices. -/
def at? : List Nat → Step → Option Step
  | [], s => some s
  | _ :: _, leaf _ _ => none
  | index :: place, .group _ _ steps => steps[index]?.bind (at? place)

/-! ## Lists of steps -/

theorem leavesList_eq (steps : List Step) : leavesList steps = steps.flatMap leaves := by
  induction steps with
  | nil => rfl
  | cons s rest ih => rw [leavesList, ih, List.flatMap_cons]

theorem resetList_eq (steps : List Step) : resetList steps = steps.map reset := by
  induction steps with
  | nil => rfl
  | cons s rest ih => rw [resetList, ih, List.map_cons]

theorem planList_eq (steps : List Step) : planList steps = steps.map plan := by
  induction steps with
  | nil => rfl
  | cons s rest ih => rw [planList, ih, List.map_cons]

theorem underList_iff {policy : FailurePolicy} {steps : List Step} :
    UnderList policy steps ↔ ∀ s ∈ steps, s.Under policy := by
  induction steps with
  | nil => simp [UnderList]
  | cons s rest ih => rw [UnderList, ih, List.forall_mem_cons]

@[simp] theorem leavesList_append (steps steps' : List Step) :
    leavesList (steps ++ steps') = leavesList steps ++ leavesList steps' := by
  simp only [leavesList_eq, List.flatMap_append]

theorem leaves_subset {s : Step} {steps : List Step} (h : s ∈ steps) :
    s.leaves ⊆ leavesList steps := by
  intro a ha
  rw [leavesList_eq]
  exact List.mem_flatMap.2 ⟨s, h, ha⟩

theorem height_le {s : Step} {steps : List Step} (h : s ∈ steps) : s.height ≤ heightList steps := by
  induction steps with
  | nil => cases h
  | cons t rest ih =>
    rcases List.mem_cons.1 h with rfl | h
    · exact Nat.le_max_left _ _
    · exact Nat.le_trans (ih h) (Nat.le_max_right _ _)

/-! ## What resetting forgets -/

theorem leavesList_congr {steps steps' : List Step}
    (h : steps.map leaves = steps'.map leaves) : leavesList steps = leavesList steps' := by
  simp only [leavesList_eq, List.flatMap_def, h]

@[simp] theorem leaves_reset (s : Step) : s.reset.leaves = s.leaves := by
  induction s using induction with
  | leaf slot a => rfl
  | group slot g steps ih =>
    simp only [reset, leaves, resetList_eq]
    refine leavesList_congr ?_
    rw [List.map_map]
    exact List.map_congr_left ih

@[simp] theorem plan_reset (s : Step) : s.reset.plan = s.plan := by
  induction s using induction with
  | leaf slot a => rfl
  | group slot g steps ih =>
    have h : planList (resetList steps) = planList steps := by
      rw [planList_eq, planList_eq, resetList_eq, List.map_map]
      exact List.map_congr_left ih
    simp only [reset, plan, Group.fresh, h]

theorem heightList_eq (steps : List Step) :
    heightList steps = (steps.map height).foldr max 0 := by
  induction steps with
  | nil => rfl
  | cons s rest ih => rw [heightList, ih, List.map_cons, List.foldr_cons]

@[simp] theorem height_reset (s : Step) : s.reset.height = s.height := by
  induction s using induction with
  | leaf slot a => rfl
  | group slot g steps ih =>
    have h : (resetList steps).map height = steps.map height := by
      rw [resetList_eq, List.map_map]
      exact List.map_congr_left ih
    simp only [reset, height, heightList_eq, h]

theorem under_reset {policy : FailurePolicy} {s : Step} :
    s.reset.Under policy ↔ s.Under policy := by
  induction s using induction with
  | leaf slot a => exact Iff.rfl
  | group slot g steps ih =>
    simp only [reset, Under, Group.fresh, underList_iff, resetList_eq, List.forall_mem_map]
    exact and_congr_right fun _ => forall₂_congr ih

theorem leaves_congr {s t : Step} (h : s.reset = t.reset) : s.leaves = t.leaves := by
  rw [← leaves_reset s, h, leaves_reset]

theorem plan_congr {s t : Step} (h : s.reset = t.reset) : s.plan = t.plan := by
  rw [← plan_reset s, h, plan_reset]

theorem height_congr {s t : Step} (h : s.reset = t.reset) : s.height = t.height := by
  rw [← height_reset s, h, height_reset]

theorem under_congr {policy : FailurePolicy} {s t : Step} (h : s.reset = t.reset) :
    s.Under policy ↔ t.Under policy := by
  rw [← under_reset, h, under_reset]

theorem kind_of_under {policy : FailurePolicy} {slot : Slot} {g : Group} {steps : List Step}
    (h : (Step.group slot g steps).Under policy)
    (hk : g.kind ≠ .sequence) : ∃ keys, g.kind = .parallel keys policy := by
  have hpolicy := h.1
  cases hkind : g.kind with
  | sequence => exact absurd hkind hk
  | parallel keys policy' =>
    rw [hkind] at hpolicy
    obtain rfl : policy' = policy := hpolicy
    exact ⟨keys, rfl⟩

theorem length_of_resetList {steps steps' : List Step} (h : resetList steps = resetList steps') :
    steps.length = steps'.length := by
  simpa only [resetList_eq, List.length_map] using congrArg List.length h

/-- Steps that were compiled alike correspond to one another. -/
theorem getElem?_of_resetList {steps steps' : List Step} (h : resetList steps' = resetList steps)
    {i : Nat} {s : Step} (hi : steps[i]? = some s) :
    ∃ s', steps'[i]? = some s' ∧ s'.reset = s.reset := by
  have hi' := congrArg (·[i]?) h
  simp only [resetList_eq, List.getElem?_map, hi] at hi'
  exact Option.map_eq_some_iff.1 hi'

theorem leavesList_of_resetList {steps steps' : List Step}
    (h : resetList steps = resetList steps') : leavesList steps = leavesList steps' := by
  have hleaves : ∀ l : List Step, leavesList (resetList l) = leavesList l := by
    intro l
    rw [resetList_eq]
    refine leavesList_congr ?_
    rw [List.map_map]
    exact List.map_congr_left fun s _ => leaves_reset s
  rw [← hleaves steps, h, hleaves]

theorem heightList_of_resetList {steps steps' : List Step}
    (h : resetList steps = resetList steps') : heightList steps = heightList steps' := by
  have hheight : ∀ l : List Step, (resetList l).map height = l.map height := by
    intro l
    rw [resetList_eq, List.map_map]
    exact List.map_congr_left fun s _ => height_reset s
  rw [heightList_eq, ← hheight, h, hheight, heightList_eq]

/-! ## Steps inside a step -/

theorem at?_append (place place' : List Nat) (s : Step) :
    s.at? (place ++ place') = (s.at? place).bind (at? place') := by
  induction place generalizing s with
  | nil => rfl
  | cons index place ih =>
    cases s with
    | leaf => rfl
    | group slot g steps =>
      simp only [List.cons_append, at?, Option.bind_assoc]
      exact Option.bind_congr fun t _ => ih t

theorem at?_child {root s : Step} {place : List Nat} {slot : Slot} {g : Group} {steps : List Step}
    {i : Nat} (h : root.at? place = some (.group slot g steps)) (hi : steps[i]? = some s) :
    root.at? (place ++ [i]) = some s := by
  simp only [at?_append, h, at?, Option.bind_some, hi]

theorem leaves_sublist {s : Step} {steps : List Step} (h : s ∈ steps) :
    s.leaves.Sublist (leavesList steps) := by
  obtain ⟨front, back, rfl⟩ := List.append_of_mem h
  rw [leavesList_append]
  exact (List.sublist_append_left _ _).trans (List.sublist_append_right _ _)

/-- An action that belongs to one leaf at most is below one step only. -/
theorem notMem_of_count_le {steps : List Step} {i j : Nat} {s t : Step} {a : ActionId}
    (h : (leavesList steps).count a ≤ 1) (hi : steps[i]? = some s) (hj : steps[j]? = some t)
    (hne : i ≠ j) (ha : a ∈ s.leaves) : a ∉ t.leaves := by
  have first {u : Step} {rest : List Step} {k : Nat} (h : (leavesList (u :: rest)).count a ≤ 1)
      (hu : a ∈ u.leaves) {x : Step} (hk : rest[k]? = some x) : a ∉ x.leaves := by
    intro hx
    rw [leavesList, List.count_append] at h
    have := List.count_pos_iff.2 hu
    have := List.count_pos_iff.2 (leaves_subset (List.mem_of_getElem? hk) hx)
    omega
  induction steps generalizing i j with
  | nil => cases hi
  | cons u rest ih =>
    cases i with
    | zero =>
      cases hi
      cases j with
      | zero => exact absurd rfl hne
      | succ j => exact first h ha hj
    | succ i =>
      cases j with
      | zero =>
        cases hj
        exact fun ht => first h ht hi ha
      | succ j =>
        refine ih (Nat.le_trans ?_ h) hi hj fun heq => hne (congrArg _ heq)
        exact List.Sublist.count_le a (List.sublist_append_right _ _)

theorem at?_sublist {s t : Step} {place : List Nat} (h : s.at? place = some t) :
    t.leaves.Sublist s.leaves := by
  induction place generalizing s with
  | nil =>
    cases h
    exact List.Sublist.refl _
  | cons index place ih =>
    cases s with
    | leaf => cases h
    | group slot g steps =>
      obtain ⟨u, hi, h⟩ := Option.bind_eq_some_iff.1 h
      exact (ih h).trans (leaves_sublist (List.mem_of_getElem? hi))

theorem at?_leaves {s t : Step} {place : List Nat} (h : s.at? place = some t) :
    t.leaves ⊆ s.leaves := (at?_sublist h).subset

theorem at?_under {policy : FailurePolicy} {s t : Step} {place : List Nat}
    (h : s.at? place = some t) (hu : s.Under policy) : t.Under policy := by
  induction place generalizing s with
  | nil =>
    cases h
    exact hu
  | cons index place ih =>
    cases s with
    | leaf => cases h
    | group slot g steps =>
      obtain ⟨u, hi, h⟩ := Option.bind_eq_some_iff.1 h
      exact ih h (underList_iff.1 hu.2 u (List.mem_of_getElem? hi))

theorem at?_congr {s s' t : Step} {place : List Nat} (hr : s'.reset = s.reset)
    (h : s.at? place = some t) : ∃ t', s'.at? place = some t' ∧ t'.reset = t.reset := by
  induction place generalizing s s' with
  | nil =>
    cases h
    exact ⟨s', rfl, hr⟩
  | cons index place ih =>
    cases s with
    | leaf => cases h
    | group slot g steps =>
      obtain ⟨u, hi, h⟩ := Option.bind_eq_some_iff.1 h
      cases s' with
      | leaf => cases hr
      | group slot' g' steps' =>
        have hsteps : resetList steps' = resetList steps := (Step.group.inj hr).2.2
        obtain ⟨u', hu', hr'⟩ := getElem?_of_resetList hsteps hi
        obtain ⟨t', ht', hrt⟩ := ih hr' h
        exact ⟨t', by simp only [at?, hu', Option.bind_some, ht'], hrt⟩

@[simp] theorem reset_withSlot (slot : Slot) (s : Step) : (s.withSlot slot).reset = s.reset := by
  cases s <;> rfl

@[simp] theorem reset_forgotten (s : Step) : s.forgotten.reset = s.reset := by
  cases s <;> rfl

@[simp] theorem slot_withSlot (slot : Slot) (s : Step) : (s.withSlot slot).slot = slot := by
  cases s <;> rfl

@[simp] theorem slot_forgotten (s : Step) : s.forgotten.slot = s.slot := by
  cases s <;> rfl

@[simp] theorem leaves_withSlot (slot : Slot) (s : Step) : (s.withSlot slot).leaves = s.leaves :=
  leaves_congr (reset_withSlot slot s)

end Rundown.Step
