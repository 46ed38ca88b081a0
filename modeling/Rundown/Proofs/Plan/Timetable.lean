import Rundown.Proofs.Plan

/-!
# When the leaves of a plan are due

If every leaf takes a known time and nothing fails, it can be said beforehand when each leaf of a
plan begins (`Plan.timetable`) and how long the plan takes (`Plan.duration`): steps follow one
another without a gap, and branches begin together.

The second half relates the timetable to the completions that have settled at some moment, without
looking at how a playlist is run.  Where no leaf has settled before its time, the plan has a value
only when its time is up (`Plan.duration_le_of_value?`) and has begun only leaves that are due
(`Plan.due_of_begins`).  Where a leaf is missing, another one is still running that has to end
first (`Plan.running_of_value?`, `Plan.begins_or_running`).
-/

namespace Rundown.Plan

mutual

/-- How long the plan takes when every leaf `a` takes `time a`. -/
def duration (time : ActionId → Nat) : Plan → Nat
  | leaf a => time a
  | sequence plans => durationList time plans
  | parallel branches => durationBranches time branches

/-- Steps take as long as all of them together. -/
def durationList (time : ActionId → Nat) : List Plan → Nat
  | [] => 0
  | p :: rest => p.duration time + durationList time rest

/-- Branches take as long as the longest of them. -/
def durationBranches (time : ActionId → Nat) : List (String × Plan) → Nat
  | [] => 0
  | (_, p) :: rest => max (p.duration time) (durationBranches time rest)

end

mutual

/-- The leaves with the times at which they begin when the plan is entered at `start`. -/
def timetable (time : ActionId → Nat) (start : Nat) : Plan → List (ActionId × Nat)
  | leaf a => [(a, start)]
  | sequence plans => timetableList time start plans
  | parallel branches => timetableBranches time start branches

/-- A step begins when the one before has ended. -/
def timetableList (time : ActionId → Nat) (start : Nat) : List Plan → List (ActionId × Nat)
  | [] => []
  | p :: rest => p.timetable time start ++ timetableList time (start + p.duration time) rest

/-- All branches begin at once. -/
def timetableBranches (time : ActionId → Nat) (start : Nat) :
    List (String × Plan) → List (ActionId × Nat)
  | [] => []
  | (_, p) :: rest => p.timetable time start ++ timetableBranches time start rest

end

variable {time : ActionId → Nat} {a : ActionId} {s start now : Nat}

/-- A step alone takes as long as it does anyway. -/
theorem duration_single (p : Plan) : (sequence [p]).duration time = p.duration time := rfl

theorem timetable_single (p : Plan) :
    (sequence [p]).timetable time start = p.timetable time start := List.append_nil _

mutual

/-- Every leaf is on the timetable once. -/
theorem keys_timetable (start : Nat) :
    ∀ p : Plan, (p.timetable time start).map Prod.fst = p.leaves
  | .leaf _ => rfl
  | .sequence plans => keys_timetableList start plans
  | .parallel branches => keys_timetableBranches start branches

theorem keys_timetableList (start : Nat) :
    ∀ plans : List Plan, (timetableList time start plans).map Prod.fst = leavesList plans
  | [] => rfl
  | p :: rest => by
    rw [timetableList, List.map_append, keys_timetable start p, keys_timetableList _ rest,
      leavesList]

theorem keys_timetableBranches (start : Nat) : ∀ branches : List (String × Plan),
    (timetableBranches time start branches).map Prod.fst = leavesBranches branches
  | [] => rfl
  | (_, p) :: rest => by
    rw [timetableBranches, List.map_append, keys_timetable start p, keys_timetableBranches _ rest,
      leavesBranches]

end

mutual

/-- A leaf begins when the plan has been entered, and ends before the time of the plan is up. -/
theorem timetable_within (start : Nat) : ∀ p : Plan, (a, s) ∈ p.timetable time start →
    start ≤ s ∧ s + time a ≤ start + p.duration time
  | .leaf _, h => by
    obtain ⟨rfl, rfl⟩ := Prod.mk.inj (List.mem_singleton.1 h)
    exact ⟨Nat.le_refl _, Nat.le_refl _⟩
  | .sequence plans, h => timetableList_within start plans h
  | .parallel branches, h => timetableBranches_within start branches h

theorem timetableList_within (start : Nat) : ∀ plans : List Plan,
    (a, s) ∈ timetableList time start plans →
      start ≤ s ∧ s + time a ≤ start + durationList time plans
  | p :: rest, h => by
    rw [durationList]
    rcases List.mem_append.1 h with h | h
    · have := timetable_within start p h
      omega
    · have := timetableList_within _ rest h
      omega

theorem timetableBranches_within (start : Nat) : ∀ branches : List (String × Plan),
    (a, s) ∈ timetableBranches time start branches →
      start ≤ s ∧ s + time a ≤ start + durationBranches time branches
  | (_, p) :: rest, h => by
    rw [durationBranches]
    rcases List.mem_append.1 h with h | h
    · have := timetable_within start p h
      omega
    · have := timetableBranches_within start rest h
      omega

end

/-! ## Nothing is early -/

/-- What was due to begin by `now` and has settled was also due to end by then. -/
def Punctual (time : ActionId → Nat) (settled : Settlements) (now : Nat)
    (table : List (ActionId × Nat)) : Prop :=
  ∀ a s, (a, s) ∈ table → s ≤ now → settled a ≠ none → s + time a ≤ now

variable {settled : Settlements} {input v u : Json} {table table' : List (ActionId × Nat)}

theorem punctual_append : Punctual time settled now (table ++ table') ↔
    Punctual time settled now table ∧ Punctual time settled now table' := by
  simp only [Punctual, List.mem_append, or_imp, forall_and]

mutual

/-- A plan that has its value has had its time. -/
theorem duration_le_of_value? (input : Json) (u : Json) : ∀ (start : Nat) (p : Plan),
    Punctual time settled now (p.timetable time start) → start ≤ now →
      p.value? settled input = some u → start + p.duration time ≤ now
  | start, .leaf a, h, hstart, hvalue => by
    refine h a start List.mem_cons_self hstart fun hnone => ?_
    rw [value?, hnone] at hvalue
    cases hvalue
  | start, .sequence plans, h, hstart, hvalue =>
    durationList_le_of_value? input u start plans h hstart hvalue
  | start, .parallel branches, h, hstart, hvalue => by
    obtain ⟨members, hmembers, -⟩ := Option.map_eq_some_iff.1 hvalue
    exact durationBranches_le_of_values? input members start branches h hstart hmembers

theorem durationList_le_of_value? (input : Json) (u : Json) : ∀ (start : Nat) (plans : List Plan),
    Punctual time settled now (timetableList time start plans) → start ≤ now →
      sequenceValue? settled plans input = some u → start + durationList time plans ≤ now
  | _, [], _, hstart, _ => hstart
  | start, p :: rest, h, hstart, hvalue => by
    obtain ⟨hp, hrest⟩ := punctual_append.1 h
    obtain ⟨v, hv, hu⟩ := Option.bind_eq_some_iff.1 hvalue
    have hentered := duration_le_of_value? input v start p hp hstart hv
    have hall := durationList_le_of_value? v u _ rest hrest hentered hu
    rw [durationList]
    omega

theorem durationBranches_le_of_values? (input : Json) (members : List (String × Json)) :
    ∀ (start : Nat) (branches : List (String × Plan)),
      Punctual time settled now (timetableBranches time start branches) → start ≤ now →
        branchValues? settled branches input = some members →
          start + durationBranches time branches ≤ now
  | _, [], _, hstart, _ => hstart
  | start, (_, p) :: rest, h, hstart, hvalue => by
    obtain ⟨hp, hrest⟩ := punctual_append.1 h
    obtain ⟨v, hv, hmembers⟩ := Option.bind_eq_some_iff.1 hvalue
    obtain ⟨others, hothers, -⟩ := Option.map_eq_some_iff.1 hmembers
    have hfirst := duration_le_of_value? input v start p hp hstart hv
    have hlater := durationBranches_le_of_values? input others start rest hrest hstart hothers
    rw [durationBranches]
    omega

end

mutual

/-- What has begun was due. -/
theorem due_of_begins (input : Json) (v : Json) : ∀ (start : Nat) (p : Plan),
    Punctual time settled now (p.timetable time start) → start ≤ now →
      (a, v) ∈ p.begins settled input → ∃ s, (a, s) ∈ p.timetable time start ∧ s ≤ now
  | start, .leaf _, _, hstart, hb => by
    obtain ⟨rfl, -⟩ := Prod.mk.inj (List.mem_singleton.1 hb)
    exact ⟨start, List.mem_cons_self, hstart⟩
  | start, .sequence plans, h, hstart, hb => due_of_sequenceBegins input v start plans h hstart hb
  | start, .parallel branches, h, hstart, hb =>
    due_of_branchBegins input v start branches h hstart hb

theorem due_of_sequenceBegins (input : Json) (v : Json) : ∀ (start : Nat) (plans : List Plan),
    Punctual time settled now (timetableList time start plans) → start ≤ now →
      (a, v) ∈ sequenceBegins settled plans input →
        ∃ s, (a, s) ∈ timetableList time start plans ∧ s ≤ now
  | start, p :: rest, h, hstart, hb => by
    obtain ⟨hp, hrest⟩ := punctual_append.1 h
    rcases List.mem_append.1 hb with hb | hb
    · obtain ⟨s, hs, hle⟩ := due_of_begins input v start p hp hstart hb
      exact ⟨s, List.mem_append_left _ hs, hle⟩
    · cases hvalue : p.value? settled input with
      | none =>
        rw [hvalue] at hb
        cases hb
      | some u =>
        rw [hvalue] at hb
        have hentered := duration_le_of_value? input u start p hp hstart hvalue
        obtain ⟨s, hs, hle⟩ := due_of_sequenceBegins u v _ rest hrest hentered hb
        exact ⟨s, List.mem_append_right _ hs, hle⟩

theorem due_of_branchBegins (input : Json) (v : Json) :
    ∀ (start : Nat) (branches : List (String × Plan)),
      Punctual time settled now (timetableBranches time start branches) → start ≤ now →
        (a, v) ∈ branchBegins settled branches input →
          ∃ s, (a, s) ∈ timetableBranches time start branches ∧ s ≤ now
  | start, (_, p) :: rest, h, hstart, hb => by
    obtain ⟨hp, hrest⟩ := punctual_append.1 h
    rcases List.mem_append.1 hb with hb | hb
    · obtain ⟨s, hs, hle⟩ := due_of_begins input v start p hp hstart hb
      exact ⟨s, List.mem_append_left _ hs, hle⟩
    · obtain ⟨s, hs, hle⟩ := due_of_branchBegins input v start rest hrest hstart hb
      exact ⟨s, List.mem_append_right _ hs, hle⟩

end

/-! ## Nothing is late -/

/-- One of these begins is still to settle, and is to do so by `limit`. -/
def Running (time : ActionId → Nat) (settled : Settlements) (begun : List (ActionId × Json))
    (table : List (ActionId × Nat)) (limit : Nat) : Prop :=
  ∃ b v s, (b, v) ∈ begun ∧ (b, s) ∈ table ∧ settled b = none ∧ s + time b ≤ limit

theorem Running.mono {begun begun' : List (ActionId × Json)} {limit limit' : Nat}
    (h : Running time settled begun table limit) (hbegun : begun ⊆ begun')
    (htable : table ⊆ table') (hle : limit ≤ limit') :
    Running time settled begun' table' limit' := by
  obtain ⟨b, v, s, hb, hs, hnone, hend⟩ := h
  exact ⟨b, v, s, hbegun hb, htable hs, hnone, Nat.le_trans hend hle⟩

/-- None of the leaves has failed. -/
def Unfailing (settled : Settlements) (leaves : List ActionId) : Prop :=
  ∀ a ∈ leaves, ∀ err, settled a ≠ some (.error err)

theorem unfailing_append {l l' : List ActionId} :
    Unfailing settled (l ++ l') ↔ Unfailing settled l ∧ Unfailing settled l' :=
  List.forall_mem_append

mutual

/-- While a plan has no value, one of its leaves is running. -/
theorem running_of_value? (input : Json) : ∀ (start : Nat) (p : Plan),
    Unfailing settled p.leaves → p.value? settled input = none →
      Running time settled (p.begins settled input) (p.timetable time start)
        (start + p.duration time)
  | start, .leaf a, h, hnone => by
    refine ⟨a, input, start, List.mem_cons_self, List.mem_cons_self, ?_, Nat.le_refl _⟩
    rw [value?] at hnone
    cases hs : settled a with
    | none => rfl
    | some o =>
      rw [hs] at hnone
      cases o with
      | ok v => cases hnone
      | error err => exact absurd hs (h a List.mem_cons_self err)
  | start, .sequence plans, h, hnone => running_of_sequenceValue? input start plans h hnone
  | start, .parallel branches, h, hnone =>
    running_of_branchValues? input start branches h (Option.map_eq_none_iff.1 hnone)

theorem running_of_sequenceValue? (input : Json) : ∀ (start : Nat) (plans : List Plan),
    Unfailing settled (leavesList plans) → sequenceValue? settled plans input = none →
      Running time settled (sequenceBegins settled plans input) (timetableList time start plans)
        (start + durationList time plans)
  | start, p :: rest, h, hnone => by
    obtain ⟨hp, hrest⟩ := unfailing_append.1 h
    rw [sequenceValue?] at hnone
    rw [sequenceBegins, timetableList, durationList]
    cases hvalue : p.value? settled input with
    | none =>
      exact (running_of_value? input start p hp hvalue).mono (List.subset_append_left ..)
        (List.subset_append_left ..) (by omega)
    | some v =>
      rw [hvalue] at hnone
      exact (running_of_sequenceValue? v _ rest hrest hnone).mono (List.subset_append_right ..)
        (List.subset_append_right ..) (by omega)

theorem running_of_branchValues? (input : Json) : ∀ (start : Nat) (branches : List (String × Plan)),
    Unfailing settled (leavesBranches branches) → branchValues? settled branches input = none →
      Running time settled (branchBegins settled branches input)
        (timetableBranches time start branches) (start + durationBranches time branches)
  | start, (_, p) :: rest, h, hnone => by
    obtain ⟨hp, hrest⟩ := unfailing_append.1 h
    rw [branchValues?] at hnone
    rw [branchBegins, timetableBranches, durationBranches]
    cases hvalue : p.value? settled input with
    | none =>
      exact (running_of_value? input start p hp hvalue).mono (List.subset_append_left ..)
        (List.subset_append_left ..) (by omega)
    | some v =>
      rw [hvalue, Option.bind_some, Option.map_eq_none_iff] at hnone
      exact (running_of_branchValues? input start rest hrest hnone).mono
        (List.subset_append_right ..) (List.subset_append_right ..) (by omega)

end

mutual

/-- A leaf that has not begun waits for one that is running and has to end before it is due. -/
theorem begins_or_running (input : Json) : ∀ (start : Nat) (p : Plan),
    Unfailing settled p.leaves → (a, s) ∈ p.timetable time start →
      (∃ v, (a, v) ∈ p.begins settled input) ∨
        Running time settled (p.begins settled input) (p.timetable time start) s
  | start, .leaf _, _, hs => by
    obtain ⟨rfl, -⟩ := Prod.mk.inj (List.mem_singleton.1 hs)
    exact .inl ⟨input, List.mem_cons_self⟩
  | start, .sequence plans, h, hs => sequenceBegins_or_running input start plans h hs
  | start, .parallel branches, h, hs => branchBegins_or_running input start branches h hs

theorem sequenceBegins_or_running (input : Json) : ∀ (start : Nat) (plans : List Plan),
    Unfailing settled (leavesList plans) → (a, s) ∈ timetableList time start plans →
      (∃ v, (a, v) ∈ sequenceBegins settled plans input) ∨
        Running time settled (sequenceBegins settled plans input) (timetableList time start plans) s
  | start, p :: rest, h, hs => by
    obtain ⟨hp, hrest⟩ := unfailing_append.1 h
    rw [sequenceBegins, timetableList]
    rcases List.mem_append.1 hs with hs | hs
    · rcases begins_or_running input start p hp hs with ⟨v, hv⟩ | hr
      · exact .inl ⟨v, List.mem_append_left _ hv⟩
      · exact .inr (hr.mono (List.subset_append_left ..) (List.subset_append_left ..)
          (Nat.le_refl s))
    · cases hvalue : p.value? settled input with
      | none =>
        refine .inr ((running_of_value? input start p hp hvalue).mono (List.subset_append_left ..)
          (List.subset_append_left ..) ?_)
        exact (timetableList_within _ rest hs).1
      | some u =>
        rcases sequenceBegins_or_running u _ rest hrest hs with ⟨v, hv⟩ | hr
        · exact .inl ⟨v, List.mem_append_right _ hv⟩
        · exact .inr (hr.mono (List.subset_append_right ..) (List.subset_append_right ..)
            (Nat.le_refl s))

theorem branchBegins_or_running (input : Json) : ∀ (start : Nat) (branches : List (String × Plan)),
    Unfailing settled (leavesBranches branches) → (a, s) ∈ timetableBranches time start branches →
      (∃ v, (a, v) ∈ branchBegins settled branches input) ∨
        Running time settled (branchBegins settled branches input)
          (timetableBranches time start branches) s
  | start, (_, p) :: rest, h, hs => by
    obtain ⟨hp, hrest⟩ := unfailing_append.1 h
    rw [branchBegins, timetableBranches]
    rcases List.mem_append.1 hs with hs | hs
    · rcases begins_or_running input start p hp hs with ⟨v, hv⟩ | hr
      · exact .inl ⟨v, List.mem_append_left _ hv⟩
      · exact .inr (hr.mono (List.subset_append_left ..) (List.subset_append_left ..)
          (Nat.le_refl s))
    · rcases branchBegins_or_running input start rest hrest hs with ⟨v, hv⟩ | hr
      · exact .inl ⟨v, List.mem_append_right _ hv⟩
      · exact .inr (hr.mono (List.subset_append_right ..) (List.subset_append_right ..)
          (Nat.le_refl s))

end

end Rundown.Plan
