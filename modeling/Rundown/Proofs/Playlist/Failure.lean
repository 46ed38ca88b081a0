import Rundown.Proofs.Playlist.Accomplished
import Rundown.Proofs.Playlist.Progress

/-!
# The failure of a group

`Group.failure?` is the failure that a group has come by: it has ended with that, or waits for the
rest of its branches and will.  It is never lost (`Step.Onward.failure?_eq`), and it is that of a
leaf below (`Step.Known.failure?_leaf`).  At rest a parallel group has come by one exactly when a
branch has failed (`Step.Entered.failure?_ne_none_iff`), unless it ends at the first failure and is
too wide to look at each branch.
-/

namespace Rundown

/-- The failure with which a group has ended. -/
def Stage.failure? : Stage → Option PlaylistError
  | finished (.error e) => some e
  | _ => none

/-- The failure that the group has come by: a group that waits for every branch keeps it until all
of them have settled. -/
def Group.failure? (g : Group) : Option PlaylistError :=
  match g.kind with
  | .parallel _ .settleAll => g.firstFailure
  | .sequence | .parallel _ .failFast => g.stage.failure?

namespace Stage

variable {stage : Stage} {e : PlaylistError}

theorem failure?_eq_some_iff : stage.failure? = some e ↔ stage = .finished (.error e) := by
  cases stage with
  | finished o => cases o <;> simp [failure?]
  | created | expired | triggered | running => simp [failure?]

theorem failure?_eq_of_outcome? (h : stage.outcome? = none) : stage.failure? = none := by
  cases stage with
  | finished => cases h
  | created | expired | triggered | running => rfl

end Stage

namespace Group

variable {g g' : Group} {keys : List String} {e : PlaylistError}

theorem failure?_of_sequence (hk : g.kind = .sequence) : g.failure? = g.stage.failure? := by
  rw [failure?, hk]

theorem failure?_of_failFast (hk : g.kind = .parallel keys .failFast) :
    g.failure? = g.stage.failure? := by
  rw [failure?, hk]

theorem failure?_of_settleAll (hk : g.kind = .parallel keys .settleAll) :
    g.failure? = g.firstFailure := by
  rw [failure?, hk]

/-- A group that has come by a failure has ended with it, or keeps it. -/
theorem failure?_cases (h : g.failure? = some e) :
    g.stage = .finished (.error e) ∨
      ((∃ keys, g.kind = .parallel keys .settleAll) ∧ g.firstFailure = some e) := by
  cases hk : g.kind with
  | sequence => exact .inl (Stage.failure?_eq_some_iff.1 (failure?_of_sequence hk ▸ h))
  | parallel keys policy =>
    cases policy with
    | failFast => exact .inl (Stage.failure?_eq_some_iff.1 (failure?_of_failFast hk ▸ h))
    | settleAll => exact .inr ⟨⟨keys, rfl⟩, failure?_of_settleAll hk ▸ h⟩

/-- A group that has not been looked at has come by no failure. -/
theorem failure?_of_unseen (hs : g.stage.outcome? = none) (hf : g.firstFailure = none) :
    g.failure? = none := by
  unfold failure?
  split
  · exact hf
  all_goals exact Stage.failure?_eq_of_outcome? hs

end Group

namespace Step

variable {x : Scene} {place : List Nat} {v : Json} {s : Step} {steps steps' : List Step}
  {slot slot' : Slot} {g g' : Group} {keys : List String} {policy : FailurePolicy}
  {e : PlaylistError}

/-- What a group has come by stays. -/
theorem Onward.failure?_eq (h : (Step.group slot g steps).Onward (.group slot' g' steps'))
    (he : g.failure? = some e) : g'.failure? = some e := by
  obtain ⟨hkind, hstage, hfailure, -⟩ := h
  unfold Group.failure? at he ⊢
  rw [hkind]
  split at he
  · exact hfailure e he
  all_goals
    have hs := Stage.failure?_eq_some_iff.1 he
    rw [hstage (.error e) (by rw [hs]; rfl)]
    exact he

/-- The failure of a parallel group was taken from a branch. -/
theorem Entered.tookFailure (h : (Step.group slot g steps).Entered x place v)
    (hk : g.kind = .parallel keys policy) (he : g.failure? = some e) :
    ∃ s ∈ steps, ∃ place, s.Entered x place v ∧ s.Tied ∧ s.taken? = some (.error e) := by
  have hr : g.Runs x place v steps _ _ := h
  have hne : g.kind ≠ .sequence := by rw [hk]; exact fun h => by cases h
  have hstarted : g.stage.isStarted = true := by
    rcases Group.failure?_cases he with hs | ⟨-, hf⟩
    · rw [hs]
      rfl
    · cases hs : g.stage with
      | created => exact absurd hs hr.created
      | expired => exact absurd hs hr.expired
      | triggered input =>
        rw [(hr.triggered input hs).2.1] at hf
        cases hf
      | running | finished => rfl
  have hjoins := hr.joins hstarted hne
  obtain ⟨s, hm, ht⟩ : Group.TookFailure steps e := by
    rcases Group.failure?_cases he with hs | ⟨-, hf⟩
    · exact (hjoins.decided _ hs).tookFailure hjoins.recorded hk
    · exact hjoins.recorded.took e hf
  obtain ⟨i, hi⟩ := List.mem_iff_getElem?.1 hm
  obtain ⟨hent, htied⟩ := enteredAll_iff.1 (hr.together hstarted hne) i s hi
  exact ⟨s, hm, _, hent, htied, ht⟩

/-- The failure of a group is that of a leaf below. -/
theorem Known.failure?_leaf (h : (Step.group slot g steps).Known x place)
    (hsole : ∀ a ∈ leavesList steps, x.sole a) (he : g.failure? = some e) :
    ∃ a ∈ leavesList steps, ∃ err, e = .action err ∧ x.world.settlement? a = some (.error err) := by
  rcases h with ⟨v, h⟩ | h | h
  · cases hk : g.kind with
    | sequence =>
      rw [Group.failure?_of_sequence hk, Stage.failure?_eq_some_iff] at he
      exact h.failed_leaf hsole (by rw [answer?, he]; rfl)
    | parallel keys policy =>
      obtain ⟨s, hm, place', hs, htied, ht⟩ := h.tookFailure hk he
      have hssole : ∀ a ∈ s.leaves, x.sole a := fun a ha => hsole a (leaves_subset hm ha)
      obtain ⟨a, ha, herr⟩ := hs.failed_leaf hssole (hs.answer?_of_taken? htied hssole ht)
      exact ⟨a, leaves_subset hm ha, herr⟩
  · obtain ⟨-, hstage, hf, -⟩ := h.1
    rw [Group.failure?_of_unseen (by rw [hstage]; rfl) hf] at he
    cases he
  · obtain ⟨-, hstage, hf, -⟩ := h
    unfold Group.failure? at he
    rw [hf] at he
    rcases hstage with hs | hs <;> rw [hs] at he <;> split at he <;> cases he

/-- The failure of a sequence is the one that it has ended with. -/
theorem Entered.failure?_iff_of_sequence (hs : (Step.group slot g steps).Entered x place v)
    (hk : g.kind = .sequence) (e : PlaylistError) :
    g.failure? = some e ↔ (Step.group slot g steps).answer? x.world = some (.error e) := by
  rw [Group.failure?_of_sequence hk, Stage.failure?_eq_some_iff]
  exact ⟨fun h => by rw [answer?, h]; rfl, fun h => finished_of_outcome? hs h⟩

/-! ## At rest -/

/-- What the group around a step has from it is what the step leads to. -/
theorem Entered.result?_eq (h : s.Entered x place v) (ht : s.Tied)
    (hsole : ∀ a ∈ s.leaves, x.sole a) : s.result? x.world = s.answer? x.world := by
  cases hs : s.taken? with
  | none => rw [result?, hs, Option.none_or]
  | some o => rw [result?_of_taken? hs, h.answer?_of_taken? ht hsole hs]

theorem Entered.answer?_leaf {a : ActionId} (h : (Step.leaf slot a).Entered x place v)
    (ha : x.sole a) : (Step.leaf slot a).answer? x.world =
      (x.world.settlement? a).map (Except.mapError .action) := by
  have hsole : ∀ b ∈ (Step.leaf slot a).leaves, x.sole b := fun b hb =>
    List.mem_singleton.1 hb ▸ ha
  rw [← h.result?_eq trivial hsole, h.result?_leaf ha]

section

variable (h : (Step.group slot g steps).Entered x place v) (hrest : x.AtRest)

include h hrest

/-- At rest a parallel group that looks at each branch has come by a failure exactly when a branch
has failed. -/
theorem Entered.failure?_ne_none_iff (hk : g.kind = .parallel keys policy)
    (hnarrow : policy = .failFast → steps.length ≤ Group.smallWidth) :
    g.failure? ≠ none ↔ ∃ s ∈ steps, s.Failed x.world := by
  cases policy with
  | failFast =>
    rw [Group.failure?_of_failFast hk, Option.ne_none_iff_exists']
    simp only [Stage.failure?_eq_some_iff]
    rw [h.failFast_iff hrest hk, and_iff_left (.inl (hnarrow rfl))]
  | settleAll =>
    have hrested := h.rested hrest hk
    rw [Group.failure?_of_settleAll hk]
    constructor
    · intro hne
      obtain ⟨e, he⟩ := Option.ne_none_iff_exists'.1 hne
      obtain ⟨s, hm, ht⟩ := hrested.recorded.took e he
      exact ⟨s, hm, e, result?_of_taken? ht⟩
    · rintro ⟨s, hm, e, he⟩ hnone
      have htracks : g.tracksWakes steps.length = true := by rw [Group.tracksWakes, hk]
      refine hrested.recorded.keeps htracks hnone e ⟨s, hm, ?_⟩
      rcases hrested.ended with hs | ⟨o, hs⟩
      · rw [hrested.taken?_eq hs hm, he]
      · -- A group that has ended has taken the outcomes of all branches.
        have hverdict := (hrested.decided o hs).resolve_right fun hf => by
          rw [htracks] at hf
          cases hf.1
        obtain ⟨o', ho'⟩ := taken?_of_isDone ((Group.verdict_settleAll hk hverdict).1 s hm)
        rw [result?_of_taken? ho'] at he
        rw [ho', he]

/-- At rest a parallel group has failed when it has come by a failure and need not wait for
branches. -/
theorem Entered.answer?_error_iff (hk : g.kind = .parallel keys policy) :
    (Step.group slot g steps).answer? x.world = some (.error e) ↔
      g.failure? = some e ∧ (policy = .settleAll → ∀ s ∈ steps, s.result? x.world ≠ none) := by
  have hfinished : (Step.group slot g steps).answer? x.world = some (.error e) ↔
      g.stage = .finished (.error e) :=
    ⟨fun ha => finished_of_outcome? h ha, fun hs => by rw [answer?, hs]; rfl⟩
  rw [hfinished]
  cases policy with
  | failFast =>
    rw [Group.failure?_of_failFast hk, Stage.failure?_eq_some_iff]
    exact ⟨fun hs => ⟨hs, fun hp => by cases hp⟩, And.left⟩
  | settleAll =>
    have hrested := h.rested hrest hk
    have htracks : g.tracksWakes steps.length = true := by rw [Group.tracksWakes, hk]
    have hended {o : Outcome} (hs : g.stage = .finished o) :
        (∀ s ∈ steps, s.isDone = true) ∧ ∀ e, g.firstFailure = some e → o = .error e := by
      refine Group.verdict_settleAll hk ((hrested.decided o hs).resolve_right fun hf => ?_)
      rw [htracks] at hf
      cases hf.1
    rw [Group.failure?_of_settleAll hk]
    constructor
    · intro hs
      obtain ⟨hdone, hfailure⟩ := hended hs
      refine ⟨?_, fun _ s hm => ?_⟩
      · cases hf : g.firstFailure with
        | none =>
          obtain ⟨s, hm, ht⟩ := (hrested.decided _ hs).tookFailure hrested.recorded hk
          exact absurd ⟨s, hm, ht⟩ (hrested.recorded.keeps htracks hf e)
        | some e' =>
          cases hfailure e' hf
          rfl
      · obtain ⟨o, ho⟩ := taken?_of_isDone (hdone s hm)
        rw [result?_of_taken? ho]
        exact Option.some_ne_none o
    · rintro ⟨hf, hall⟩
      obtain ⟨⟨o, hs⟩, -⟩ := h.settleAll_iff hrest hk (hall rfl)
      rw [hs, (hended hs).2 e hf]

end

end Step

end Rundown
