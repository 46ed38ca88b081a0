import Rundown.Proofs.Plan.Matching
import Rundown.Proofs.Playlist.Failure

/-!
# Steps side by side

Two steps whose plans differ in the order of branches are looked at side by side.  When their leaves
have settled alike and no task waits, their groups have come by the same failures and have ended
alike (`Step.Abreast.at_rest`).  Which of several failures of one instant a group comes by may depend
on the order of its branches, so outcomes are compared as far as a `view` tells failures apart, and
failures that a group might choose from must look the same in this view (`Step.Unanimous`).
-/

namespace Rundown

/-- The steps with these indices stand in the same place of two groups: under the same key, or in the
same place of a sequence. -/
def GroupKind.Pairs : GroupKind → GroupKind → Nat → Nat → Prop
  | .sequence, .sequence, i, j => i = j
  | .parallel keys _, .parallel keys' _, i, j =>
    ∃ key, keys[i]? = some key ∧ keys'[j]? = some key
  | _, _, _, _ => False

theorem GroupKind.Pairs.symm {kind kind' : GroupKind} {i j : Nat} (h : kind.Pairs kind' i j) :
    kind'.Pairs kind j i := by
  cases kind with
  | sequence =>
    cases kind' with
    | sequence => exact Eq.symm h
    | parallel => exact h.elim
  | parallel keys policy =>
    cases kind' with
    | sequence => exact h.elim
    | parallel keys' policy' =>
      obtain ⟨key, hi, hj⟩ := h
      exact ⟨key, hj, hi⟩

namespace Step

variable {ε : Type} {view : PlaylistError → ε} {r : ActionId → ActionId → Prop}
  {policy : FailurePolicy} {x x' : Scene} {place place' : List Nat} {index index' i j : Nat}
  {v : Json} {s s' t t' before before' : Step} {steps steps' : List Step} {slot slot' : Slot}
  {g g' : Group} {o o' : Option Outcome} {w : World}

/-! ## Steps of groups whose plans match -/

theorem planList_getElem? : (planList steps)[i]? = steps[i]?.map plan := by
  rw [planList_eq, List.getElem?_map]

theorem mem_zip_planList {keys : List String} {key : String} {p : Plan} :
    (key, p) ∈ keys.zip (planList steps) ↔
      ∃ (i : Nat) (s : Step), keys[i]? = some key ∧ steps[i]? = some s ∧ s.plan = p := by
  rw [List.mem_iff_getElem?]
  simp only [List.getElem?_zip_eq_some, planList_getElem?, Option.map_eq_some_iff]
  exact exists_congr fun i => ⟨fun ⟨hk, s, hs, hp⟩ => ⟨s, hk, hs, hp⟩,
    fun ⟨s, hk, hs, hp⟩ => ⟨hk, s, hs, hp⟩⟩

theorem leaf_of_matches {a : ActionId} (h : (leaf slot a).plan.Matches r s'.plan) :
    ∃ slot' a', s' = leaf slot' a' ∧ r a a' := by
  cases s' with
  | leaf slot' a' =>
    rw [plan, plan, Plan.Matches] at h
    exact ⟨slot', a', rfl, h⟩
  | group slot' g' steps' =>
    unfold plan at h
    split at h <;> simp [Plan.Matches] at h

theorem group_of_matches (h : (Step.group slot g steps).plan.Matches r s'.plan) :
    ∃ slot' g' steps', s' = .group slot' g' steps' := by
  cases s' with
  | group slot' g' steps' => exact ⟨slot', g', steps', rfl⟩
  | leaf slot' a' =>
    unfold plan at h
    split at h <;> simp [Plan.Matches] at h

section

variable (h : (Step.group slot g steps).plan.Matches r (Step.group slot' g' steps').plan)

include h

/-- Groups whose plans match are of one kind. -/
theorem matches_kinds : (g.kind = .sequence ∧ g'.kind = .sequence) ∨
    ∃ keys keys' policy policy', g.kind = .parallel keys policy ∧
      g'.kind = .parallel keys' policy' := by
  cases hk : g.kind with
  | sequence =>
    cases hk' : g'.kind with
    | sequence => exact .inl ⟨rfl, rfl⟩
    | parallel =>
      rw [plan_sequence hk, plan_parallel hk'] at h
      simp [Plan.Matches] at h
  | parallel keys policy =>
    cases hk' : g'.kind with
    | sequence =>
      rw [plan_parallel hk, plan_sequence hk'] at h
      simp [Plan.Matches] at h
    | parallel keys' policy' => exact .inr ⟨keys, keys', policy, policy', rfl, rfl⟩

theorem matches_child (hpairs : g.kind.Pairs g'.kind i j) (hi : steps[i]? = some s)
    (hj : steps'[j]? = some s') : s.plan.Matches r s'.plan := by
  rcases matches_kinds h with ⟨hk, hk'⟩ | ⟨keys, keys', policy, policy', hk, hk'⟩
  · rw [plan_sequence hk, plan_sequence hk', Plan.Matches, Plan.matchesList_iff] at h
    rw [hk, hk'] at hpairs
    obtain rfl : i = j := hpairs
    have hp : (planList steps)[i]? = some s.plan := by rw [planList_getElem?, hi]; rfl
    obtain ⟨p', hp', hm⟩ := forall₂_getElem? h hp
    rw [planList_getElem?, hj] at hp'
    exact Option.some.inj hp' ▸ hm
  · rw [plan_parallel hk, plan_parallel hk'] at h
    rw [hk, hk'] at hpairs
    obtain ⟨key, hkey, hkey'⟩ := hpairs
    obtain ⟨p', hp', hm⟩ := h.parallel_branch (mem_zip_planList.2 ⟨i, s, hkey, hi, rfl⟩)
    exact eq_of_key h.parallel_keys.2 hp' (mem_zip_planList.2 ⟨j, s', hkey', hj, rfl⟩) ▸ hm

/-- Every branch has a partner under the same key. -/
theorem matches_branch {keys : List String} (hk : g.kind = .parallel keys policy)
    (hfits : keys.length = steps.length) (hs : s ∈ steps) :
    ∃ i j s', steps[i]? = some s ∧ steps'[j]? = some s' ∧ g.kind.Pairs g'.kind i j := by
  rcases matches_kinds h with ⟨hk₀, -⟩ | ⟨keys₀, keys', policy₀, policy', hk₀, hk'⟩
  · rw [hk] at hk₀
    cases hk₀
  · rw [plan_parallel hk, plan_parallel hk'] at h
    obtain ⟨i, hi⟩ := List.mem_iff_getElem?.1 hs
    have hlt : i < keys.length := hfits ▸ (List.getElem?_eq_some_iff.1 hi).1
    have hkey : keys[i]? = some keys[i] := List.getElem?_eq_getElem hlt
    obtain ⟨p', hp', -⟩ := h.parallel_branch (mem_zip_planList.2 ⟨i, s, hkey, hi, rfl⟩)
    obtain ⟨j, s', hkey', hj, -⟩ := mem_zip_planList.1 hp'
    rw [hk, hk']
    exact ⟨i, j, s', hi, hj, _, hkey, hkey'⟩

end

/-! ## Groups that have come by the same failures -/

/-- In both steps the groups in the same places have come by the same failures, as far as `view`
tells them apart. -/
inductive Mirrors (view : PlaylistError → ε) : Step → Step → Prop
  | leaf (slot slot' : Slot) (a a' : ActionId) : Mirrors view (leaf slot a) (leaf slot' a')
  | group {slot slot' : Slot} {g g' : Group} {steps steps' : List Step}
      (failures : g'.failure?.map view = g.failure?.map view)
      (below : ∀ i j s s', g.kind.Pairs g'.kind i j → steps[i]? = some s → steps'[j]? = some s' →
        Mirrors view s s') : Mirrors view (.group slot g steps) (.group slot' g' steps')

/-- No group of the step has come by a failure. -/
def Fine (s : Step) : Prop :=
  ∀ place slot g steps, s.at? place = some (.group slot g steps) → g.failure? = none

theorem Fine.child (h : (Step.group slot g steps).Fine) (hi : steps[i]? = some s) : s.Fine :=
  fun place slot' g' steps' hat => h (i :: place) slot' g' steps' (by rw [at?, hi]; exact hat)

theorem Untouched.fine (h : s.Untouched x) : s.Fine := by
  intro place slot g steps hat
  induction place generalizing s with
  | nil =>
    cases hat
    obtain ⟨-, hstage, hf, -⟩ := h.1
    exact Group.failure?_of_unseen (by rw [hstage]; rfl) hf
  | cons i place ih =>
    cases s with
    | leaf => cases hat
    | group slot' g' steps' =>
      obtain ⟨t, hi, hat⟩ := Option.bind_eq_some_iff.1 hat
      exact ih (h.child t (List.mem_of_getElem? hi)) hat

/-- As long as no action has failed, no group has come by a failure. -/
theorem Known.fine (h : s.Known x place) (hsole : ∀ a ∈ s.leaves, x.sole a)
    (hfine : ∀ a err, x.world.settlement? a ≠ some (.error err)) : s.Fine := by
  intro below slot g steps hat
  refine Option.eq_none_iff_forall_ne_some.2 fun e he => ?_
  have hleaves := at?_leaves hat
  obtain ⟨a, -, err, -, herr⟩ := (h.at? hat).failure?_leaf (fun a ha => hsole a (hleaves ha)) he
  exact hfine a err herr

theorem Mirrors.of_fine (hs : s.Fine) (hs' : s'.Fine) (h : s.plan.Matches r s'.plan) :
    s.Mirrors view s' := by
  induction s using induction generalizing s' with
  | leaf slot a =>
    obtain ⟨slot', a', rfl, -⟩ := leaf_of_matches h
    exact .leaf slot slot' a a'
  | group slot g steps ih =>
    obtain ⟨slot', g', steps', rfl⟩ := group_of_matches h
    refine .group ?_ fun i j s s' hpairs hi hj => ?_
    · rw [hs [] slot g steps rfl, hs' [] slot' g' steps' rfl]
    · exact ih s (List.mem_of_getElem? hi) (hs.child hi) (hs'.child hj)
        (matches_child h hpairs hi hj)

/-! ## Two steps at rest -/

/-- The failures that steps have led to. -/
def failures (w : World) (steps : List Step) : List PlaylistError :=
  steps.filterMap fun s => match s.result? w with
    | some (.error e) => some e
    | _ => none

theorem mem_failures {e : PlaylistError} :
    e ∈ failures w steps ↔ ∃ s ∈ steps, s.result? w = some (.error e) := by
  rw [failures, List.mem_filterMap]
  refine exists_congr fun s => and_congr_right fun _ => ?_
  rcases s.result? w with _ | _ | _ <;> simp

mutual

/-- Failures that a parallel group may choose from look the same: those of its branches, if in the
step as it was before the group had come by none. -/
def Unanimous (view : PlaylistError → ε) (w : World) : Step → Step → Prop
  | .group _ g₀ steps₀, .group _ g steps =>
    (g.kind ≠ .sequence → g₀.failure? = none →
      ∀ e ∈ failures w steps, ∀ e' ∈ failures w steps, view e = view e') ∧
        UnanimousList view w steps₀ steps
  | leaf _ _, _ | _, leaf _ _ => True

/-- The same for the steps in the same places of two lists. -/
def UnanimousList (view : PlaylistError → ε) (w : World) : List Step → List Step → Prop
  | s₀ :: rest₀, s :: rest => Unanimous view w s₀ s ∧ UnanimousList view w rest₀ rest
  | [], _ | _, [] => True

end

mutual

def decUnanimous [DecidableEq ε] (w : World) : ∀ s₀ s, Decidable (Unanimous view w s₀ s)
  | .group _ g₀ steps₀, .group _ g steps =>
    have := decUnanimousList w steps₀ steps
    inferInstanceAs (Decidable ((g.kind ≠ .sequence → g₀.failure? = none →
      ∀ e ∈ failures w steps, ∀ e' ∈ failures w steps, view e = view e') ∧
        UnanimousList view w steps₀ steps))
  | leaf _ _, _ => isTrue (by unfold Unanimous; trivial)
  | .group _ _ _, leaf _ _ => isTrue trivial

def decUnanimousList [DecidableEq ε] (w : World) :
    ∀ steps₀ steps, Decidable (UnanimousList view w steps₀ steps)
  | s₀ :: rest₀, s :: rest =>
    have := decUnanimous w s₀ s
    have := decUnanimousList w rest₀ rest
    inferInstanceAs (Decidable (Unanimous view w s₀ s ∧ UnanimousList view w rest₀ rest))
  | [], _ => isTrue (by unfold UnanimousList; trivial)
  | _ :: _, [] => isTrue trivial

end

instance [DecidableEq ε] (w : World) (s₀ s : Step) : Decidable (Unanimous view w s₀ s) :=
  decUnanimous w s₀ s

instance [DecidableEq ε] (w : World) (steps₀ steps : List Step) :
    Decidable (UnanimousList view w steps₀ steps) :=
  decUnanimousList w steps₀ steps

theorem UnanimousList.nth (h : UnanimousList view w steps steps') (hi : steps[i]? = some s)
    (hi' : steps'[i]? = some s') : Unanimous view w s s' := by
  induction steps generalizing steps' i with
  | nil => cases hi
  | cons t rest ih =>
    cases steps' with
    | nil => cases hi'
    | cons t' rest' =>
      cases i with
      | zero =>
        cases hi
        cases hi'
        exact h.1
      | succ i => exact ih h.2 hi hi'

mutual

/-- When all failures look the same, nothing is asked for. -/
theorem unanimous_of_subsingleton [Subsingleton ε] (w : World) :
    ∀ s₀ s, Unanimous view w s₀ s
  | .group _ _ steps₀, .group _ _ steps =>
    ⟨fun _ _ _ _ _ _ => Subsingleton.elim _ _, unanimousList_of_subsingleton w steps₀ steps⟩
  | leaf _ _, leaf _ _ | leaf _ _, .group _ _ _ | .group _ _ _, leaf _ _ => trivial

theorem unanimousList_of_subsingleton [Subsingleton ε] (w : World) :
    ∀ steps₀ steps, UnanimousList view w steps₀ steps
  | s₀ :: rest₀, s :: rest =>
    ⟨unanimous_of_subsingleton w s₀ s, unanimousList_of_subsingleton w rest₀ rest⟩
  | [], [] | [], _ :: _ | _ :: _, [] => trivial

end

/-- What the step has led to, with no more of a failure than `view` tells. -/
def told (view : PlaylistError → ε) (w : World) (s : Step) : Option (Except ε Json) :=
  (s.answer? w).map (Except.mapError view)

/-- What is known of two steps that are looked at side by side, and of what they were before. -/
structure Abreast (view : PlaylistError → ε) (r : ActionId → ActionId → Prop)
    (policy : FailurePolicy) (w : World) (before before' s s' : Step) : Prop where
  under : s.Under policy
  under' : s'.Under policy
  plans : s.plan.Matches r s'.plan
  narrow : policy = .failFast → s.plan.width ≤ Group.smallWidth
  onward : before.Onward s
  onward' : before'.Onward s'
  mirrors : before.Mirrors view before'
  unanimous : Unanimous view w before s

theorem Onward.group (h : before.Onward (.group slot g steps)) :
    ∃ slot₀ g₀ steps₀, before = .group slot₀ g₀ steps₀ := by
  cases before with
  | leaf => exact h.elim
  | group slot₀ g₀ steps₀ => exact ⟨slot₀, g₀, steps₀, rfl⟩

theorem Onward.child (h : before.Onward (.group slot g steps)) (hi : steps[i]? = some s) :
    ∃ slot₀ g₀ steps₀ t, before = .group slot₀ g₀ steps₀ ∧ g.kind = g₀.kind ∧
      steps₀[i]? = some t ∧ t.Onward s := by
  obtain ⟨slot₀, g₀, steps₀, rfl⟩ := h.group
  obtain ⟨hkind, -, -, hsteps⟩ := h
  obtain ⟨t, ht, honward⟩ := forall₂_getElem? (onwardList_iff.1 hsteps).flip hi
  exact ⟨slot₀, g₀, steps₀, t, rfl, hkind, ht, honward⟩

theorem width_child {n : Nat} (hwidth : (Step.group slot g steps).plan.width ≤ n)
    (hfits : g.kind.Fits steps.length) (hs : s ∈ steps) : s.plan.width ≤ n := by
  cases hk : g.kind with
  | sequence =>
    rw [plan_sequence hk, Plan.width_sequence_le_iff, planList_eq] at hwidth
    exact hwidth _ (List.mem_map_of_mem hs)
  | parallel keys policy =>
    rw [plan_parallel hk, Plan.width_parallel_le_iff] at hwidth
    rw [hk] at hfits
    obtain ⟨i, hi⟩ := List.mem_iff_getElem?.1 hs
    have hlt : i < keys.length := by
      rw [show keys.length = steps.length from hfits]
      exact (List.getElem?_eq_some_iff.1 hi).1
    exact hwidth.2 (keys[i], s.plan)
      (mem_zip_planList.2 ⟨i, s, List.getElem?_eq_getElem hlt, hi, rfl⟩)

theorem length_le_of_width {n : Nat} {keys : List String}
    (hwidth : (Step.group slot g steps).plan.width ≤ n) (hk : g.kind = .parallel keys policy)
    (hfits : g.kind.Fits steps.length) : steps.length ≤ n := by
  rw [plan_parallel hk, Plan.width_parallel_le_iff, List.length_zip, planList_eq,
    List.length_map] at hwidth
  rw [hk] at hfits
  rw [show keys.length = steps.length from hfits, Nat.min_self] at hwidth
  exact hwidth.1

theorem Abreast.child
    (h : Abreast view r policy w before before' (.group slot g steps) (.group slot' g' steps'))
    (hfits : g.kind.Fits steps.length) (hpairs : g.kind.Pairs g'.kind i j)
    (hi : steps[i]? = some s) (hj : steps'[j]? = some s') :
    ∃ t t', Abreast view r policy w t t' s s' := by
  obtain ⟨slot₀, g₀, steps₀, t, rfl, hkind, ht, honward⟩ := h.onward.child hi
  obtain ⟨slot₀', g₀', steps₀', t', rfl, hkind', ht', honward'⟩ := h.onward'.child hj
  have hm := List.mem_of_getElem? hi
  refine ⟨t, t', underList_iff.1 h.under.2 s hm,
    underList_iff.1 h.under'.2 s' (List.mem_of_getElem? hj), matches_child h.plans hpairs hi hj,
    fun hp => width_child (h.narrow hp) hfits hm, honward, honward', ?_, ?_⟩
  · obtain _ | ⟨-, hbelow⟩ := h.mirrors
    exact hbelow i j t t' (hkind ▸ hkind' ▸ hpairs) ht ht'
  · exact h.unanimous.2.nth ht hi

/-- Launched with the same input, the two steps have come to the same. -/
def Agree (view : PlaylistError → ε) (x x' : Scene) (s s' : Step) : Prop :=
  ∀ ⦃place place' : List Nat⦄ ⦃v : Json⦄, s.Entered x place v → s'.Entered x' place' v →
    s.Mirrors view s' ∧ s'.told view x'.world = s.told view x.world

theorem told_eq_some_ok_iff (view : PlaylistError → ε) {u : Json} :
    s.told view w = some (.ok u) ↔ s.answer? w = some (.ok u) := by
  rw [told, Option.map_eq_some_iff]
  constructor
  · rintro ⟨_ | _, ho, h⟩
    · cases h
    · cases h
      exact ho
  · exact fun h => ⟨_, h, rfl⟩

theorem told_eq_some_error_iff {c : ε} :
    s.told view w = some (.error c) ↔ ∃ e, s.answer? w = some (.error e) ∧ view e = c := by
  rw [told, Option.map_eq_some_iff]
  constructor
  · rintro ⟨e | _, ho, h⟩
    · cases h
      exact ⟨e, ho, rfl⟩
    · cases h
  · rintro ⟨e, he, rfl⟩
    exact ⟨_, he, rfl⟩

theorem told_eq_none_iff (view : PlaylistError → ε) :
    s.told view w = none ↔ s.answer? w = none := Option.map_eq_none_iff

/-- The steps of two sequences, side by side: both were launched with the same input, or neither
was. -/
theorem EnteredInOrder.abreast (view : PlaylistError → ε)
    (h : EnteredInOrder x place index v o steps)
    (h' : EnteredInOrder x' place' index' v o' steps') (hlength : steps'.length = steps.length)
    (hquiet : o = none → ∀ s ∈ steps, s.isAwaited = true → s.Quiet x.world)
    (hquiet' : o' = none → ∀ s ∈ steps', s.isAwaited = true → s.Quiet x'.world)
    (hsole : ∀ a, x.sole a) (hsole' : ∀ a, x'.sole a)
    (hagree : ∀ (i : Nat) (s s' : Step), steps[i]? = some s → steps'[i]? = some s' →
      Agree view x x' s s') :
    o'.map (Except.mapError view) = o.map (Except.mapError view) ∧
      ∀ (i : Nat) (s s' : Step), steps[i]? = some s → steps'[i]? = some s' →
        (∃ place place' v, s.Entered x place v ∧ s'.Entered x' place' v) ∨
          (s.Untouched x ∧ s'.Untouched x') := by
  induction steps generalizing steps' index index' v with
  | nil =>
    obtain rfl := List.length_eq_zero_iff.1 hlength
    obtain rfl : o = some (.ok v) := h
    obtain rfl : o' = some (.ok v) := h'
    exact ⟨rfl, fun i s s' hi => by cases hi⟩
  | cons s rest ih =>
    obtain ⟨s', rest', rfl⟩ := List.exists_cons_of_length_eq_add_one hlength
    have htaken := h.taken?_eq (fun a _ => hsole a) fun ho => hquiet ho s List.mem_cons_self
    have htaken' := h'.taken?_eq (fun a _ => hsole' a) fun ho => hquiet' ho s' List.mem_cons_self
    obtain ⟨hs, -, hnext⟩ := h
    obtain ⟨hs', -, hnext'⟩ := h'
    have hsame := (hagree 0 s s' rfl rfl hs hs').2
    have hfirst {P : Nat → Step → Step → Prop} (hzero : P 0 s s')
        (hsucc : ∀ (i : Nat) (t t' : Step), rest[i]? = some t → rest'[i]? = some t' →
          P (i + 1) t t') (i : Nat) (t t' : Step) (hi : (s :: rest)[i]? = some t)
        (hi' : (s' :: rest')[i]? = some t') : P i t t' := by
      cases i with
      | zero =>
        cases hi
        cases hi'
        exact hzero
      | succ i => exact hsucc i t t' hi hi'
    have hstopped (hu : ∀ t ∈ rest, t.Untouched x) (hu' : ∀ t ∈ rest', t.Untouched x') :=
      hfirst (P := fun _ t t' => (∃ place place' v, t.Entered x place v ∧ t'.Entered x' place' v) ∨
        (t.Untouched x ∧ t'.Untouched x')) (.inl ⟨_, _, v, hs, hs'⟩) fun i t t' hi hi' =>
          .inr ⟨hu t (List.mem_of_getElem? hi), hu' t' (List.mem_of_getElem? hi')⟩
    split at hnext
    next ht =>
      have ht' : s'.taken? = none := by
        rw [htaken', ← told_eq_none_iff view, hsame, told_eq_none_iff, ← htaken, ht]
      rw [ht'] at hnext'
      obtain ⟨rfl, hu⟩ := hnext
      obtain ⟨rfl, hu'⟩ := hnext'
      exact ⟨rfl, hstopped hu hu'⟩
    next e ht =>
      obtain ⟨e', he', hview⟩ := told_eq_some_error_iff.1
        (hsame.trans (told_eq_some_error_iff.2 ⟨e, htaken ▸ ht, rfl⟩))
      rw [htaken', he'] at hnext'
      obtain ⟨rfl, hu⟩ := hnext
      obtain ⟨rfl, hu'⟩ := hnext'
      exact ⟨congrArg (fun c => some (Except.error c)) hview, hstopped hu hu'⟩
    next u ht =>
      have ht' : s'.taken? = some (.ok u) := by
        rw [htaken', ← told_eq_some_ok_iff view, hsame, told_eq_some_ok_iff, ← htaken, ht]
      rw [ht'] at hnext'
      obtain ⟨ho, hrest⟩ := ih hnext hnext' (Nat.succ.inj hlength)
        (fun ho s hm => hquiet ho s (List.mem_cons_of_mem _ hm))
        (fun ho s hm => hquiet' ho s (List.mem_cons_of_mem _ hm))
        fun i t t' hi hi' => hagree (i + 1) t t' hi hi'
      exact ⟨ho, hfirst (.inl ⟨_, _, v, hs, hs'⟩) hrest⟩

/-- A step of two parallel groups has a partner that has led to the same. -/
def Answered (view : PlaylistError → ε) (w w' : World) (steps steps' : List Step) : Prop :=
  ∀ s ∈ steps, ∃ s' ∈ steps', (s'.result? w').map (Except.mapError view) =
    (s.result? w).map (Except.mapError view)

theorem Answered.failed {w' : World} (h : Answered view w w' steps steps')
    (hfailed : ∃ s ∈ steps, s.Failed w) : ∃ s' ∈ steps', s'.Failed w' := by
  obtain ⟨s, hm, e, he⟩ := hfailed
  obtain ⟨s', hm', heq⟩ := h s hm
  rw [he] at heq
  obtain ⟨o, ho, hmap⟩ := Option.map_eq_some_iff.1 heq
  cases o with
  | ok => cases hmap
  | error e' => exact ⟨s', hm', e', ho⟩

theorem Answered.error {w' : World} (h : Answered view w w' steps steps') (hm : s ∈ steps)
    {e : PlaylistError} (he : s.result? w = some (.error e)) :
    ∃ s' ∈ steps', ∃ e', s'.result? w' = some (.error e') ∧ view e' = view e := by
  obtain ⟨s', hm', heq⟩ := h s hm
  rw [he] at heq
  obtain ⟨o, ho, hmap⟩ := Option.map_eq_some_iff.1 heq
  cases o with
  | ok => cases hmap
  | error e' => exact ⟨s', hm', e', ho, Except.error.inj hmap⟩

theorem Answered.all {w' : World} (h : Answered view w w' steps steps')
    (hall : ∀ s' ∈ steps', s'.result? w' ≠ none) : ∀ s ∈ steps, s.result? w ≠ none := by
  intro s hm hnone
  obtain ⟨s', hm', heq⟩ := h s hm
  rw [hnone] at heq
  exact hall s' hm' (Option.map_eq_none_iff.1 heq)

section

variable (hrest : x.AtRest) (hrest' : x'.AtRest) (hsole : ∀ a, x.sole a) (hsole' : ∀ a, x'.sole a)
  (halike : ∀ a a', r a a' → x'.world.settlement? a' = x.world.settlement? a)

include hrest hrest' hsole hsole' halike

/-- At rest both have ended with the same value. -/
theorem Abreast.answer?_ok_iff
    (h : Abreast view r policy x.world before before' s s') (hs : s.Entered x place v)
    (hs' : s'.Entered x' place' v) (u : Json) :
    s'.answer? x'.world = some (.ok u) ↔ s.answer? x.world = some (.ok u) := by
  have hvalue : s.answer? x.world = some (.ok u) ↔
      s.plan.value? x.world.settlement? v = some u :=
    ⟨hs.value?_of_answer? fun a _ => hsole a, hs.answer?_of_value? hrest fun a _ => hsole a⟩
  have hvalue' : s'.answer? x'.world = some (.ok u) ↔
      s'.plan.value? x'.world.settlement? v = some u :=
    ⟨hs'.value?_of_answer? fun a _ => hsole' a, hs'.answer?_of_value? hrest' fun a _ => hsole' a⟩
  rw [hvalue, hvalue']
  constructor
  · exact (h.plans.symm.carries fun a' a u s hr _ _ hset =>
      (halike a a' hr).symm.trans hset).value u
  · exact (h.plans.carries fun a a' u s hr _ _ hset => (halike a a' hr).trans hset).value u

section

variable {keys keys' : List String}
  (h : Abreast view r policy x.world before before' (.group slot g steps) (.group slot' g' steps'))
  (hs : (Step.group slot g steps).Entered x place v)
  (hs' : (Step.group slot' g' steps').Entered x' place' v)
  (hk : g.kind = .parallel keys policy) (hk' : g'.kind = .parallel keys' policy)
  (hforth : Answered view x.world x'.world steps steps')
  (hback : Answered view x'.world x.world steps' steps)

include h hs hs' hk hk' hforth hback

omit hsole hsole' halike in
/-- Two parallel groups with the same branches have come by the same failure. -/
theorem Abreast.failure?_eq : g'.failure?.map view = g.failure?.map view := by
  have hsome : g'.failure? ≠ none ↔ g.failure? ≠ none := by
    rw [hs.failure?_ne_none_iff hrest hk fun hp => length_le_of_width (h.narrow hp) hk hs.1,
      hs'.failure?_ne_none_iff hrest' hk' fun hp =>
        length_le_of_width (h.plans.width_le (h.narrow hp)) hk' hs'.1]
    exact ⟨hback.failed, hforth.failed⟩
  obtain ⟨slot₀, g₀, steps₀, rfl⟩ := h.onward.group
  obtain ⟨slot₀', g₀', steps₀', rfl⟩ := h.onward'.group
  cases hf₀ : g₀.failure? with
  | some e₀ =>
    -- Both had come by a failure before, and these have stayed.
    obtain ⟨hsame, -⟩ | hsame := h.mirrors
    rw [hf₀] at hsame
    obtain ⟨e₀', hf₀', hview⟩ := Option.map_eq_some_iff.1 hsame
    rw [h.onward.failure?_eq hf₀, h.onward'.failure?_eq hf₀', Option.map_some, Option.map_some,
      hview]
  | none =>
    have hk₀ : g.kind ≠ .sequence := by rw [hk]; exact fun h => by cases h
    have hunanimous := h.unanimous.1 hk₀ hf₀
    cases hf : g.failure? with
    | none =>
      cases hf' : g'.failure? with
      | none => rfl
      | some e' => exact absurd hf (hsome.1 (by rw [hf']; exact Option.some_ne_none e'))
    | some e =>
      obtain ⟨e', hf'⟩ := Option.ne_none_iff_exists'.1
        (hsome.2 (by rw [hf]; exact Option.some_ne_none e))
      obtain ⟨s, hm, -, -, -, ht⟩ := hs.tookFailure hk hf
      obtain ⟨s', hm', -, -, -, ht'⟩ := hs'.tookFailure hk' hf'
      obtain ⟨t, hmt, e'', he'', hview⟩ := hback.error hm' (result?_of_taken? ht')
      rw [hf', Option.map_some, Option.map_some, ← hview,
        hunanimous e'' (mem_failures.2 ⟨t, hmt, he''⟩) e
          (mem_failures.2 ⟨s, hm, result?_of_taken? ht⟩)]

/-- Two parallel groups with the same branches have ended alike. -/
theorem Abreast.told_eq :
    (Step.group slot' g' steps').told view x'.world =
      (Step.group slot g steps).told view x.world := by
  have hfailure := Abreast.failure?_eq hrest hrest' h hs hs' hk hk' hforth hback
  refine Option.ext fun o => ?_
  cases o with
  | ok u =>
    rw [told_eq_some_ok_iff, told_eq_some_ok_iff]
    exact h.answer?_ok_iff hrest hrest' hsole hsole' halike hs hs' u
  | error c =>
    have hall : (policy = .settleAll → ∀ s ∈ steps', s.result? x'.world ≠ none) ↔
        (policy = .settleAll → ∀ s ∈ steps, s.result? x.world ≠ none) :=
      forall_congr' fun _ => ⟨hforth.all, hback.all⟩
    simp only [told_eq_some_error_iff, hs.answer?_error_iff hrest hk,
      hs'.answer?_error_iff hrest' hk', hall]
    have hsome :
        (∃ e, g'.failure? = some e ∧ view e = c) ↔ ∃ e, g.failure? = some e ∧ view e = c := by
      rw [← Option.map_eq_some_iff, ← Option.map_eq_some_iff, hfailure]
    constructor
    · rintro ⟨e, ⟨he, hended⟩, hview⟩
      obtain ⟨e', he', hview'⟩ := hsome.1 ⟨e, he, hview⟩
      exact ⟨e', ⟨he', hended⟩, hview'⟩
    · rintro ⟨e, ⟨he, hended⟩, hview⟩
      obtain ⟨e', he', hview'⟩ := hsome.2 ⟨e, he, hview⟩
      exact ⟨e', ⟨he', hended⟩, hview'⟩

end

section

variable (h : Abreast view r policy x.world before before' (.group slot g steps)
    (.group slot' g' steps'))
  (hchild : ∀ (i j : Nat) (s s' : Step), g.kind.Pairs g'.kind i j → steps[i]? = some s →
    steps'[j]? = some s' → Agree view x x' s s')

include h hchild

omit halike in
/-- Two sequences have come to the same if their steps have. -/
theorem Abreast.at_rest_sequence (hk : g.kind = .sequence) (hk' : g'.kind = .sequence) :
    Agree view x x' (.group slot g steps) (.group slot' g' steps') := by
  intro place place' v hs hs'
  have hplans := h.plans
  have hr : g.Runs x place v steps _ _ := hs
  have hr' : g'.Runs x' place' v steps' _ _ := hs'
  have hsame {i : Nat} : g.kind.Pairs g'.kind i i := by
    rw [hk, hk']
    rfl
  have hlength : steps'.length = steps.length := by
    rw [plan_sequence hk, plan_sequence hk', Plan.Matches, Plan.matchesList_iff] at hplans
    have := hplans.length_eq
    rw [planList_eq, planList_eq, List.length_map, List.length_map] at this
    exact this.symm
  obtain ⟨htold, hsteps⟩ := (hr.inOrder (hr.started hrest) hk).abreast view
    (hr'.inOrder (hr'.started hrest') hk') hlength (hr.quiet hrest) (hr'.quiet hrest') hsole hsole'
    fun i s s' hi hi' => hchild i i s s' hsame hi hi'
  have htold : (Step.group slot' g' steps').told view x'.world =
      (Step.group slot g steps).told view x.world := htold
  refine ⟨.group (Option.ext fun c => ?_) fun i j s s' hpairs hi hj => ?_, htold⟩
  · simp only [Option.map_eq_some_iff, hs.failure?_iff_of_sequence hk,
      hs'.failure?_iff_of_sequence hk']
    rw [← told_eq_some_error_iff, ← told_eq_some_error_iff, htold]
  · have hij := hpairs
    rw [hk, hk'] at hij
    obtain rfl : i = j := hij
    rcases hsteps i s s' hi hj with ⟨_, _, _, hs, hs'⟩ | ⟨hu, hu'⟩
    · exact (hchild i i s s' hpairs hi hj hs hs').1
    · exact .of_fine hu.fine hu'.fine (matches_child h.plans hpairs hi hj)

/-- Two parallel groups have come to the same if their branches have. -/
theorem Abreast.at_rest_parallel {keys keys' : List String} (hk : g.kind = .parallel keys policy)
    (hk' : g'.kind = .parallel keys' policy) :
    Agree view x x' (.group slot g steps) (.group slot' g' steps') := by
  intro place place' v hs hs'
  have hrested := hs.rested hrest hk
  have hrested' := hs'.rested hrest' hk'
  have hfits : keys.length = steps.length := by
    have := hs.1
    rwa [hk] at this
  have hfits' : keys'.length = steps'.length := by
    have := hs'.1
    rwa [hk'] at this
  have hresult {i j : Nat} {s s' : Step} (hpairs : g.kind.Pairs g'.kind i j)
      (hi : steps[i]? = some s) (hj : steps'[j]? = some s') :
      s.Mirrors view s' ∧ (s'.result? x'.world).map (Except.mapError view) =
        (s.result? x.world).map (Except.mapError view) := by
    obtain ⟨place, hs, ht⟩ := hrested.branches s (List.mem_of_getElem? hi)
    obtain ⟨place', hs', ht'⟩ := hrested'.branches s' (List.mem_of_getElem? hj)
    rw [hs.result?_eq ht fun a _ => hsole a, hs'.result?_eq ht' fun a _ => hsole' a]
    exact hchild i j s s' hpairs hi hj hs hs'
  have hforth : Answered view x.world x'.world steps steps' := fun s hm => by
    obtain ⟨i, j, s', hi, hj, hpairs⟩ := matches_branch h.plans hk hfits hm
    exact ⟨s', List.mem_of_getElem? hj, (hresult hpairs hi hj).2⟩
  have hback : Answered view x'.world x.world steps' steps := fun s' hm => by
    obtain ⟨j, i, s, hj, hi, hpairs⟩ := matches_branch h.plans.symm hk' hfits' hm
    exact ⟨s, List.mem_of_getElem? hi, (hresult hpairs.symm hi hj).2.symm⟩
  exact ⟨.group (h.failure?_eq hrest hrest' hs hs' hk hk' hforth hback)
      fun i j s s' hpairs hi hj => (hresult hpairs hi hj).1,
    h.told_eq hrest hrest' hsole hsole' halike hs hs' hk hk' hforth hback⟩

end

/-- When no task waits, two steps whose leaves have settled alike have ended alike, and so have their
groups. -/
theorem Abreast.at_rest (h : Abreast view r policy x.world before before' s s') :
    Agree view x x' s s' := by
  induction s using induction generalizing before before' s' with
  | leaf slot a =>
    intro place place' v hs hs'
    obtain ⟨slot', a', rfl, hr⟩ := leaf_of_matches h.plans
    refine ⟨.leaf slot slot' a a', ?_⟩
    rw [told, told, hs.answer?_leaf (hsole a), hs'.answer?_leaf (hsole' a'), halike a a' hr]
  | group slot g steps ih =>
    intro place place' v hs hs'
    obtain ⟨slot', g', steps', rfl⟩ := group_of_matches h.plans
    have hchild (i j : Nat) (s s' : Step) (hpairs : g.kind.Pairs g'.kind i j)
        (hi : steps[i]? = some s) (hj : steps'[j]? = some s') : Agree view x x' s s' := by
      obtain ⟨t, t', hbelow⟩ := h.child hs.1 hpairs hi hj
      exact ih s (List.mem_of_getElem? hi) hbelow
    rcases matches_kinds h.plans with ⟨hk, hk'⟩ | ⟨keys, keys', policy₁, policy₂, hk, hk'⟩
    · exact h.at_rest_sequence hrest hrest' hsole hsole' hchild hk hk' hs hs'
    · obtain rfl : policy₁ = policy := by
        have := h.under.1
        rwa [hk] at this
      obtain rfl : policy₂ = policy₁ := by
        have := h.under'.1
        rwa [hk'] at this
      exact h.at_rest_parallel hrest hrest' hsole hsole' halike hchild hk hk' hs hs'

end

end Step

end Rundown
