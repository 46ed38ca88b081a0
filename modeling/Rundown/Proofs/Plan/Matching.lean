import Rundown.Proofs.Members
import Rundown.Proofs.Plan

/-!
# Plans that differ in the order of branches

Two plans match when one is the other with the branches of its parallel groups in another order, and
with other actions at the leaves.  What began and what it ended with carries over from one plan to
the other as far as settlements do (`Plan.Matches.carries`): the order of branches matters neither
to the begins nor to the value of a plan.
-/

namespace Rundown

namespace Plan

mutual

/-- Induction over the tree of plans. -/
@[elab_as_elim]
theorem induction {P : Plan → Prop} (leaf : ∀ a, P (.leaf a))
    (sequence : ∀ plans, (∀ p ∈ plans, P p) → P (.sequence plans))
    (parallel : ∀ branches, (∀ b ∈ branches, P b.2) → P (.parallel branches)) : ∀ p, P p
  | .leaf a => leaf a
  | .sequence plans => sequence plans (inductionList leaf sequence parallel plans)
  | .parallel branches => parallel branches (inductionBranches leaf sequence parallel branches)

theorem inductionList {P : Plan → Prop} (leaf : ∀ a, P (.leaf a))
    (sequence : ∀ plans, (∀ p ∈ plans, P p) → P (.sequence plans))
    (parallel : ∀ branches, (∀ b ∈ branches, P b.2) → P (.parallel branches)) :
    ∀ plans : List Plan, ∀ p ∈ plans, P p
  | [], _, h => by cases h
  | p :: rest, q, h => (List.mem_cons.1 h).elim
      (fun hq => hq ▸ induction leaf sequence parallel p)
      (inductionList leaf sequence parallel rest q)

theorem inductionBranches {P : Plan → Prop} (leaf : ∀ a, P (.leaf a))
    (sequence : ∀ plans, (∀ p ∈ plans, P p) → P (.sequence plans))
    (parallel : ∀ branches, (∀ b ∈ branches, P b.2) → P (.parallel branches)) :
    ∀ branches : List (String × Plan), ∀ b ∈ branches, P b.2
  | [], _, h => by cases h
  | (_, p) :: rest, b, h => (List.mem_cons.1 h).elim
      (fun hb => hb ▸ induction leaf sequence parallel p)
      (inductionBranches leaf sequence parallel rest b)

end

mutual

/-- The same plan but for the order of branches, with related actions at the leaves. -/
def Matches (r : ActionId → ActionId → Prop) : Plan → Plan → Prop
  | leaf a, leaf a' => r a a'
  | sequence plans, sequence plans' => MatchesList r plans plans'
  | parallel branches, parallel branches' => (branches.map Prod.fst).Nodup ∧
      (branches'.map Prod.fst).Perm (branches.map Prod.fst) ∧ MatchesBranches r branches branches'
  | _, _ => False

/-- Each plan matches the one in its place. -/
def MatchesList (r : ActionId → ActionId → Prop) : List Plan → List Plan → Prop
  | [], [] => True
  | p :: rest, p' :: rest' => p.Matches r p' ∧ MatchesList r rest rest'
  | _, _ => False

/-- Each branch matches one with the same key. -/
def MatchesBranches (r : ActionId → ActionId → Prop) :
    List (String × Plan) → List (String × Plan) → Prop
  | [], _ => True
  | (key, p) :: rest, branches' =>
    (∃ p', (key, p') ∈ branches' ∧ p.Matches r p') ∧ MatchesBranches r rest branches'

end

variable {r : ActionId → ActionId → Prop} {a : ActionId} {p p' q : Plan} {plans plans' : List Plan}
  {branches branches' : List (String × Plan)} {settled settled' : Settlements} {v u : Json}

theorem matchesList_iff :
    MatchesList r plans plans' ↔ List.Forall₂ (Matches r) plans plans' := by
  induction plans generalizing plans' with
  | nil => cases plans' <;> simp [MatchesList]
  | cons p rest ih => cases plans' <;> simp [MatchesList, ih]

theorem matchesBranches_iff : MatchesBranches r branches branches' ↔
    ∀ key p, (key, p) ∈ branches → ∃ p', (key, p') ∈ branches' ∧ p.Matches r p' := by
  induction branches with
  | nil => simp [MatchesBranches]
  | cons b rest ih =>
    obtain ⟨k, q⟩ := b
    rw [MatchesBranches, ih]
    simp only [List.mem_cons, Prod.mk.injEq, or_imp, forall_and, and_imp, forall_eq_apply_imp_iff,
      forall_eq]

/-- Induction over two plans that match; they are of one kind all the way down. -/
@[elab_as_elim]
theorem Matches.induction {motive : (p p' : Plan) → p.Matches r p' → Prop}
    (leaf : ∀ a a' h, motive (.leaf a) (.leaf a') h)
    (sequence : ∀ plans plans' h,
      List.Forall₂ (fun p p' => ∃ h : p.Matches r p', motive p p' h) plans plans' →
        motive (.sequence plans) (.sequence plans') h)
    (parallel : ∀ branches branches' h,
      (∀ key p p', (key, p) ∈ branches → (key, p') ∈ branches' →
        ∀ h : p.Matches r p', motive p p' h) →
        motive (.parallel branches) (.parallel branches') h)
    {p p' : Plan} (h : p.Matches r p') : motive p p' h := by
  induction p using Plan.induction generalizing p' with
  | leaf a =>
    cases p' with
    | leaf a' => exact leaf a a' h
    | sequence | parallel => exact absurd h (by simp [Matches])
  | sequence plans ih =>
    cases p' with
    | sequence plans' =>
      have hplans := h
      rw [Matches, matchesList_iff] at hplans
      refine sequence plans plans' h ?_
      clear h
      induction hplans with
      | nil => exact .nil
      | cons hp _ ihrest =>
        rw [List.forall_mem_cons] at ih
        exact .cons ⟨hp, ih.1 hp⟩ (ihrest ih.2)
    | leaf | parallel => exact absurd h (by simp [Matches])
  | parallel branches ih =>
    cases p' with
    | parallel branches' => exact parallel branches branches' h fun key p p' hp _ => ih (key, p) hp
    | leaf | sequence => exact absurd h (by simp [Matches])

theorem Matches.parallel_keys (h : (parallel branches).Matches r (parallel branches')) :
    (branches.map Prod.fst).Nodup ∧ (branches'.map Prod.fst).Nodup := by
  rw [Matches] at h
  exact ⟨h.1, h.2.1.nodup_iff.2 h.1⟩

theorem Matches.parallel_branch (h : (parallel branches).Matches r (parallel branches'))
    {key : String} (hp : (key, p) ∈ branches) :
    ∃ p', (key, p') ∈ branches' ∧ p.Matches r p' := by
  rw [Matches] at h
  exact matchesBranches_iff.1 h.2.2 key p hp

theorem Matches.parallel_branch' (h : (parallel branches).Matches r (parallel branches'))
    {key : String} (hp' : (key, p') ∈ branches') :
    ∃ p, (key, p) ∈ branches ∧ p.Matches r p' := by
  have ⟨_, hkeys'⟩ := h.parallel_keys
  have hkey : key ∈ branches.map Prod.fst := by
    rw [Matches] at h
    exact h.2.1.mem_iff.1 (List.mem_map_of_mem hp')
  obtain ⟨⟨k, p⟩, hp, rfl⟩ := List.mem_map.1 hkey
  obtain ⟨p'', hp'', hm⟩ := h.parallel_branch hp
  exact ⟨p, hp, eq_of_key hkeys' hp'' hp' ▸ hm⟩

/-- Matching does not depend on the side from which it is seen. -/
theorem Matches.symm (h : p.Matches r p') : p'.Matches (fun a' a => r a a') p := by
  induction h using Matches.induction with
  | leaf a a' h =>
    rw [Matches] at h ⊢
    exact h
  | sequence plans plans' _ hplans =>
    rw [Matches, matchesList_iff]
    exact (hplans.imp fun _ _ hp => hp.2).flip
  | parallel branches branches' h ih =>
    have hperm := h
    rw [Matches] at hperm ⊢
    refine ⟨h.parallel_keys.2, hperm.2.1.symm, matchesBranches_iff.2 fun key q' hq' => ?_⟩
    obtain ⟨q, hq, hm⟩ := h.parallel_branch' hq'
    exact ⟨q, hq, ih key q q' hq hq' hm⟩

/-! ## Branches -/

theorem mem_branchBegins {b : ActionId × Json} : b ∈ branchBegins settled branches v ↔
    ∃ key p, (key, p) ∈ branches ∧ b ∈ p.begins settled v := by
  induction branches with
  | nil => simp [branchBegins]
  | cons c rest ih =>
    obtain ⟨k, q⟩ := c
    rw [branchBegins, List.mem_append, ih]
    constructor
    · rintro (h | ⟨key, p, hp, h⟩)
      · exact ⟨k, q, List.mem_cons_self, h⟩
      · exact ⟨key, p, List.mem_cons_of_mem _ hp, h⟩
    · rintro ⟨key, p, hp, h⟩
      rcases List.mem_cons.1 hp with hp | hp
      · cases hp
        exact .inl h
      · exact .inr ⟨key, p, hp, h⟩

/-- Branches have values when each of them has. -/
theorem branchValues?_eq_some_iff {members : List (String × Json)} :
    branchValues? settled branches v = some members ↔
      List.Forall₂ (fun b m => b.1 = m.1 ∧ b.2.value? settled v = some m.2) branches members := by
  induction branches generalizing members with
  | nil => simp [branchValues?, eq_comm]
  | cons b rest ih =>
    obtain ⟨k, q⟩ := b
    rw [branchValues?, List.forall₂_cons_left_iff]
    simp only [Option.bind_eq_some_iff, Option.map_eq_some_iff]
    constructor
    · rintro ⟨u, hu, ms, hms, rfl⟩
      exact ⟨(k, u), ms, ⟨rfl, hu⟩, ih.1 hms, rfl⟩
    · rintro ⟨⟨k', u⟩, ms, ⟨rfl, hu⟩, hms, rfl⟩
      exact ⟨u, hu, ms, ih.2 hms, rfl⟩

theorem keys_of_branchValues? {members : List (String × Json)}
    (h : branchValues? settled branches v = some members) :
    members.map Prod.fst = branches.map Prod.fst := by
  have := branchValues?_eq_some_iff.1 h
  clear h
  induction this with
  | nil => rfl
  | cons hb _ ih => rw [List.map_cons, List.map_cons, hb.1, ih]

theorem mem_of_branchValues? {members : List (String × Json)}
    (h : branchValues? settled branches v = some members) {key : String} :
    (key, u) ∈ members → ∃ p, (key, p) ∈ branches ∧ p.value? settled v = some u := by
  have := branchValues?_eq_some_iff.1 h
  clear h
  induction this with
  | nil => exact fun h => by cases h
  | @cons b m rest ms hb _ ih =>
    obtain ⟨k, q⟩ := b
    intro hm
    rcases List.mem_cons.1 hm with rfl | hm
    · obtain ⟨rfl, hv⟩ := hb
      exact ⟨q, List.mem_cons_self, hv⟩
    · obtain ⟨p, hp, hv⟩ := ih hm
      exact ⟨p, List.mem_cons_of_mem _ hp, hv⟩

theorem exists_branchValues? (h : ∀ key p, (key, p) ∈ branches → ∃ u, p.value? settled v = some u) :
    ∃ members, branchValues? settled branches v = some members := by
  induction branches with
  | nil => exact ⟨[], rfl⟩
  | cons b rest ih =>
    obtain ⟨k, q⟩ := b
    obtain ⟨u, hu⟩ := h k q List.mem_cons_self
    obtain ⟨ms, hms⟩ := ih fun key p hp => h key p (List.mem_cons_of_mem _ hp)
    exact ⟨(k, u) :: ms, by rw [branchValues?, hu, hms]; rfl⟩

/-- Under the key of a branch stands its value. -/
theorem exists_mem_of_branchValues? {members : List (String × Json)}
    (h : branchValues? settled branches v = some members)
    (hkeys : (branches.map Prod.fst).Nodup) {key : String} (hp : (key, p) ∈ branches) :
    ∃ u, (key, u) ∈ members ∧ p.value? settled v = some u := by
  have hkey : key ∈ members.map Prod.fst := by
    rw [keys_of_branchValues? h]
    exact List.mem_map_of_mem hp
  obtain ⟨⟨k, u⟩, hu, rfl⟩ := List.mem_map.1 hkey
  obtain ⟨q, hq, hv⟩ := mem_of_branchValues? h hu
  exact ⟨u, hu, eq_of_key hkeys hq hp ▸ hv⟩

/-- Matching groups whose matching branches have the same values yield the same object. -/
theorem Matches.objectOf_branchValues (h : (parallel branches).Matches r (parallel branches'))
    (hvalue : ∀ key p p' u, (key, p) ∈ branches → (key, p') ∈ branches' → p.Matches r p' →
      p.value? settled v = some u → p'.value? settled' v = some u)
    {members : List (String × Json)} (hmembers : branchValues? settled branches v = some members) :
    ∃ members', branchValues? settled' branches' v = some members' ∧
      Json.objectOf members' = Json.objectOf members := by
  obtain ⟨hkeys, hkeys'⟩ := h.parallel_keys
  -- every branch of the other group has the value of the one that it matches
  have hvalue' {key : String} {q' : Plan} (hq' : (key, q') ∈ branches') :
      ∃ u, (key, u) ∈ members ∧ q'.value? settled' v = some u := by
    obtain ⟨q, hq, hm⟩ := h.parallel_branch' hq'
    obtain ⟨u, hu, hv⟩ := exists_mem_of_branchValues? hmembers hkeys hq
    exact ⟨u, hu, hvalue key q q' u hq hq' hm hv⟩
  obtain ⟨members', hmembers'⟩ : ∃ members', branchValues? settled' branches' v = some members' :=
    exists_branchValues? fun key q' hq' => (hvalue' hq').imp fun _ hu => hu.2
  refine ⟨members', hmembers', Json.objectOf_congr ?_ ?_ fun ⟨key, u⟩ =>
    ⟨fun hm => ?_, fun hm => ?_⟩⟩
  · rwa [keys_of_branchValues? hmembers']
  · rwa [keys_of_branchValues? hmembers]
  · obtain ⟨q', hq', hv'⟩ := mem_of_branchValues? hmembers' hm
    obtain ⟨u', hu', hv⟩ := hvalue' hq'
    rw [hv'] at hv
    exact Option.some.inj hv ▸ hu'
  · obtain ⟨q, hq, hv⟩ := mem_of_branchValues? hmembers hm
    obtain ⟨q', hq', hmatch⟩ := h.parallel_branch hq
    obtain ⟨u', hu', hv'⟩ := exists_mem_of_branchValues? hmembers' hkeys' hq'
    rw [hvalue key q q' u hq hq' hmatch hv] at hv'
    exact Option.some.inj hv' ▸ hu'

/-! ## Inputs -/

theorem leavesList_eq (plans : List Plan) : leavesList plans = plans.flatMap leaves := by
  induction plans with
  | nil => rfl
  | cons p rest ih => rw [leavesList, ih, List.flatMap_cons]

theorem leavesBranches_eq (branches : List (String × Plan)) :
    leavesBranches branches = branches.flatMap fun b => b.2.leaves := by
  induction branches with
  | nil => rfl
  | cons b rest ih =>
    obtain ⟨k, p⟩ := b
    rw [leavesBranches, ih, List.flatMap_cons]

/-- The leaves begin at most once, in the order in which the plan gives them. -/
theorem begins_sublist (p : Plan) (settled : Settlements) (v : Json) :
    ((p.begins settled v).map Prod.fst).Sublist p.leaves := by
  induction p using Plan.induction generalizing v with
  | leaf a => exact .refl _
  | sequence plans ih =>
    rw [begins, leaves]
    induction plans generalizing v with
    | nil => exact .refl _
    | cons p rest ihrest =>
      rw [sequenceBegins, List.map_append, leavesList]
      refine (ih p List.mem_cons_self v).append ?_
      split
      · exact ihrest (fun q hq => ih q (List.mem_cons_of_mem _ hq)) _
      · exact List.nil_sublist _
  | parallel branches ih =>
    rw [begins, leaves]
    induction branches with
    | nil => exact .refl _
    | cons b rest ihrest =>
      obtain ⟨k, p⟩ := b
      rw [branchBegins, List.map_append, leavesBranches]
      exact (ih (k, p) List.mem_cons_self v).append
        (ihrest fun q hq => ih q (List.mem_cons_of_mem _ hq))

/-- A leaf begins with one input at most. -/
theorem begins_unique (hleaves : p.leaves.Nodup) {a : ActionId} {w : Json}
    (hu : (a, u) ∈ p.begins settled v) (hw : (a, w) ∈ p.begins settled v) : u = w :=
  congrArg Prod.snd (List.inj_on_of_nodup_map (hleaves.sublist (p.begins_sublist settled v))
    hu hw rfl)

/-! ## What carries over -/

/-- What began with one plan began with the other, and the value of one is that of the other. -/
structure Carried (r : ActionId → ActionId → Prop) (settled settled' : Settlements) (p p' : Plan)
    (v : Json) : Prop where
  begins : ∀ a u, (a, u) ∈ p.begins settled v →
    ∃ a', r a a' ∧ (a', u) ∈ p'.begins settled' v
  value : ∀ u, p.value? settled v = some u → p'.value? settled' v = some u

/-- Of related actions that begin with the same input in both plans, the second settles as the first
does. -/
def Follows (r : ActionId → ActionId → Prop) (settled settled' : Settlements)
    (begins begins' : List (ActionId × Json)) : Prop :=
  ∀ a a' u s, r a a' → (a, u) ∈ begins → (a', u) ∈ begins' → settled a = some s →
    settled' a' = some s

theorem Follows.mono {begins begins' begun begun' : List (ActionId × Json)}
    (h : Follows r settled settled' begins begins') (hsub : begun ⊆ begins)
    (hsub' : begun' ⊆ begins') : Follows r settled settled' begun begun' :=
  fun a a' u s hr ha ha' => h a a' u s hr (hsub ha) (hsub' ha')

/-- A sequence goes on as long as its steps have values. -/
theorem carried_sequence
    (h : List.Forall₂ (fun p p' => ∃ _ : p.Matches r p', ∀ {v : Json},
      Follows r settled settled' (p.begins settled v) (p'.begins settled' v) →
        Carried r settled settled' p p' v) plans plans')
    (hfollows : Follows r settled settled' (sequenceBegins settled plans v)
      (sequenceBegins settled' plans' v)) :
    Carried r settled settled' (.sequence plans) (.sequence plans') v := by
  induction h generalizing v with
  | nil => exact ⟨fun _ _ hb => by simp [begins, sequenceBegins] at hb, fun _ hu => hu⟩
  | @cons p p' rest rest' hp _ ih =>
    rw [sequenceBegins, sequenceBegins] at hfollows
    have hfirst := hp.2 (hfollows.mono (List.subset_append_left _ _) (List.subset_append_left _ _))
    cases hv : p.value? settled v with
    | none =>
      constructor
      · intro a u hb
        rw [begins, sequenceBegins, hv, List.append_nil] at hb
        obtain ⟨a', hr, hb'⟩ := hfirst.begins a u hb
        exact ⟨a', hr, List.mem_append_left _ hb'⟩
      · intro u hu
        rw [value?, sequenceValue?, hv] at hu
        cases hu
    | some w =>
      have hv' := hfirst.value w hv
      rw [hv, hv'] at hfollows
      have hlater := ih
        (hfollows.mono (List.subset_append_right _ _) (List.subset_append_right _ _))
      constructor
      · intro a u hb
        rw [begins, sequenceBegins, hv, List.mem_append] at hb
        rw [begins, sequenceBegins, hv']
        rcases hb with hb | hb
        · obtain ⟨a', hr, hb'⟩ := hfirst.begins a u hb
          exact ⟨a', hr, List.mem_append_left _ hb'⟩
        · obtain ⟨a', hr, hb'⟩ := hlater.begins a u hb
          exact ⟨a', hr, List.mem_append_right _ hb'⟩
      · intro u hu
        rw [value?, sequenceValue?, hv] at hu
        rw [value?, sequenceValue?, hv']
        exact hlater.value u hu

/-- Begins and values of a plan carry over to a plan that differs in the order of branches, as far
as settlements do. -/
theorem Matches.carries (h : p.Matches r p')
    (hfollows : Follows r settled settled' (p.begins settled v) (p'.begins settled' v)) :
    Carried r settled settled' p p' v := by
  induction h using Matches.induction generalizing v with
  | leaf a a' h =>
    rw [Matches] at h
    constructor
    · intro b u hb
      rw [begins, List.mem_singleton] at hb
      cases hb
      exact ⟨a', h, List.mem_singleton_self _⟩
    · intro u hu
      rw [value?, Option.bind_eq_some_iff] at hu ⊢
      obtain ⟨s, hs, hu⟩ := hu
      have hmem := List.mem_singleton_self (a, v)
      exact ⟨s, hfollows a a' v s h hmem (List.mem_singleton_self _) hs, hu⟩
  | sequence plans plans' _ hplans => exact carried_sequence hplans hfollows
  | parallel branches branches' h ih =>
    have hbranch {key : String} {q q' : Plan} (hq : (key, q) ∈ branches)
        (hq' : (key, q') ∈ branches') (hm : q.Matches r q') : Carried r settled settled' q q' v :=
      ih key q q' hq hq' hm (hfollows.mono (fun b hb => mem_branchBegins.2 ⟨key, q, hq, hb⟩)
        fun b hb => mem_branchBegins.2 ⟨key, q', hq', hb⟩)
    constructor
    · intro a u hb
      obtain ⟨key, q, hq, hb⟩ := mem_branchBegins.1 hb
      obtain ⟨q', hq', hm⟩ := h.parallel_branch hq
      obtain ⟨a', hr, hb'⟩ := (hbranch hq hq' hm).begins a u hb
      exact ⟨a', hr, mem_branchBegins.2 ⟨key, q', hq', hb'⟩⟩
    · intro u hu
      rw [value?, Option.map_eq_some_iff] at hu ⊢
      obtain ⟨members, hmembers, rfl⟩ := hu
      obtain ⟨members', hmembers', hobject⟩ := h.objectOf_branchValues
        (fun key q q' u hq hq' hm => (hbranch hq hq' hm).value u) hmembers
      exact ⟨members', hmembers', hobject⟩

/-! ## Width -/

mutual

/-- The largest number of branches that a parallel group has. -/
def width : Plan → Nat
  | leaf _ => 0
  | sequence plans => widthList plans
  | parallel branches => max branches.length (widthBranches branches)

def widthList : List Plan → Nat
  | [] => 0
  | p :: rest => max p.width (widthList rest)

def widthBranches : List (String × Plan) → Nat
  | [] => 0
  | (_, p) :: rest => max p.width (widthBranches rest)

end

variable {n : Nat}

theorem width_sequence_le_iff : (sequence plans).width ≤ n ↔ ∀ p ∈ plans, p.width ≤ n := by
  rw [width]
  induction plans with
  | nil => simp [widthList]
  | cons p rest ih => rw [widthList, Nat.max_le, ih, List.forall_mem_cons]

theorem width_parallel_le_iff : (parallel branches).width ≤ n ↔
    branches.length ≤ n ∧ ∀ b ∈ branches, b.2.width ≤ n := by
  have hall : widthBranches branches ≤ n ↔ ∀ b ∈ branches, b.2.width ≤ n := by
    induction branches with
    | nil => simp [widthBranches]
    | cons b rest ih =>
      obtain ⟨k, p⟩ := b
      rw [widthBranches, Nat.max_le, ih, List.forall_mem_cons]
  rw [width, Nat.max_le, hall]

/-- Reordering branches does not make a group wider. -/
theorem Matches.width_le (h : p.Matches r p') (hwidth : p.width ≤ n) : p'.width ≤ n := by
  induction h using Matches.induction with
  | leaf => exact Nat.zero_le n
  | sequence plans plans' h hplans =>
    clear h
    rw [width_sequence_le_iff] at hwidth ⊢
    induction hplans with
    | nil => exact hwidth
    | cons hp _ ih =>
      rw [List.forall_mem_cons] at hwidth ⊢
      exact ⟨hp.2 hwidth.1, ih hwidth.2⟩
  | parallel branches branches' h ih =>
    rw [width_parallel_le_iff] at hwidth ⊢
    refine ⟨?_, fun b' hb' => ?_⟩
    · rw [Matches] at h
      have := h.2.1.length_eq
      rw [List.length_map, List.length_map] at this
      exact this ▸ hwidth.1
    · obtain ⟨q, hq, hm⟩ := h.parallel_branch' hb'
      exact ih _ q b'.2 hq hb' hm (hwidth.2 _ hq)

/-! ## The place of a leaf -/

/-- The leaf that is reached by the path. -/
def leafAt : Path → Plan → Option ActionId
  | [], leaf a => some a
  | .index i :: path, sequence plans => plans[i]?.bind (leafAt path)
  | .key key :: path, parallel branches => (branches.lookup key).bind (leafAt path)
  | _, _ => none

/-- The part of the plan that a segment leads to. -/
def child? : Segment → Plan → Option Plan
  | .index i, sequence plans => plans[i]?
  | .key key, parallel branches => branches.lookup key
  | _, _ => none

theorem leafAt_nil (h : p.leafAt [] = some a) : p = leaf a := by
  cases p with
  | leaf b => exact congrArg leaf (Option.some.inj h)
  | sequence | parallel => cases h

theorem leafAt_cons (segment : Segment) (path : Path) (p : Plan) :
    p.leafAt (segment :: path) = (p.child? segment).bind (leafAt path) := by
  cases segment <;> cases p <;> rfl

theorem child?_leaves {segment : Segment} (h : p.child? segment = some q) :
    q.leaves.Sublist p.leaves := by
  cases p with
  | leaf => cases segment <;> cases h
  | sequence plans =>
    cases segment with
    | key => cases h
    | index i =>
      rw [leaves, leavesList_eq, List.flatMap_def]
      exact List.sublist_flatten_of_mem (List.mem_map_of_mem (List.mem_of_getElem? h))
  | parallel branches =>
    cases segment with
    | index => cases h
    | key key =>
      rw [leaves, leavesBranches_eq, List.flatMap_def]
      exact List.sublist_flatten_of_mem
        (List.mem_map_of_mem (f := fun b : String × Plan => b.2.leaves) (mem_of_lookup h))

theorem leafAt_mem {path : Path} (h : p.leafAt path = some a) : a ∈ p.leaves := by
  induction path generalizing p with
  | nil =>
    rw [leafAt_nil h]
    exact List.mem_singleton_self a
  | cons segment path ih =>
    rw [leafAt_cons] at h
    obtain ⟨q, hq, h⟩ := Option.bind_eq_some_iff.1 h
    exact (child?_leaves hq).subset (ih h)

/-- In a list of lists that have no member in common, a member tells in which list it is. -/
theorem index_unique {α : Type} {ls : List (List α)} (h : ls.flatten.Nodup) {i j : Nat}
    {l l' : List α} {a : α} (hi : ls[i]? = some l) (hj : ls[j]? = some l') (ha : a ∈ l)
    (ha' : a ∈ l') : i = j := by
  have hdisjoint := (List.nodup_flatten.1 h).2
  by_contra hne
  obtain ⟨hilt, rfl⟩ := List.getElem?_eq_some_iff.1 hi
  obtain ⟨hjlt, rfl⟩ := List.getElem?_eq_some_iff.1 hj
  rcases Nat.lt_or_gt_of_ne hne with hlt | hlt
  · exact List.pairwise_iff_getElem.1 hdisjoint i j hilt hjlt hlt ha ha'
  · exact List.pairwise_iff_getElem.1 hdisjoint j i hjlt hilt hlt ha' ha

/-- In a plan without shared actions, a leaf tells in which part it is. -/
theorem child?_unique (h : p.leaves.Nodup) {segment segment' : Segment} {q' : Plan}
    (hq : p.child? segment = some q) (hq' : p.child? segment' = some q') (ha : a ∈ q.leaves)
    (ha' : a ∈ q'.leaves) : segment = segment' := by
  cases p with
  | leaf => cases segment <;> cases hq
  | sequence plans =>
    cases segment with
    | key => cases hq
    | index i =>
      cases segment' with
      | key => cases hq'
      | index j =>
        rw [leaves, leavesList_eq, List.flatMap_def] at h
        have hi : plans[i]? = some q := hq
        have hj : plans[j]? = some q' := hq'
        exact congrArg Segment.index (index_unique h (by rw [List.getElem?_map, hi]; rfl)
          (by rw [List.getElem?_map, hj]; rfl) ha ha')
  | parallel branches =>
    cases segment with
    | index => cases hq
    | key key =>
      cases segment' with
      | index => cases hq'
      | key key' =>
        rw [leaves, leavesBranches_eq, List.flatMap_def] at h
        obtain ⟨i, hi⟩ := List.mem_iff_getElem?.1 (mem_of_lookup hq)
        obtain ⟨j, hj⟩ := List.mem_iff_getElem?.1 (mem_of_lookup hq')
        have hij : i = j := index_unique h (by rw [List.getElem?_map, hi]; rfl)
          (by rw [List.getElem?_map, hj]; rfl) ha ha'
        rw [hij, hj] at hi
        cases hi
        rfl

/-- A plan without shared actions has each of them in one place only. -/
theorem leafAt_unique (h : p.leaves.Nodup) {path path' : Path} (ha : p.leafAt path = some a)
    (ha' : p.leafAt path' = some a) : path = path' := by
  induction path generalizing p path' with
  | nil =>
    rw [leafAt_nil ha] at ha'
    cases path' with
    | nil => rfl
    | cons segment path' => cases segment <;> cases ha'
  | cons segment path ih =>
    cases path' with
    | nil =>
      rw [leafAt_nil ha'] at ha
      cases segment <;> cases ha
    | cons segment' path' =>
      rw [leafAt_cons] at ha ha'
      obtain ⟨q, hq, ha⟩ := Option.bind_eq_some_iff.1 ha
      obtain ⟨q', hq', ha'⟩ := Option.bind_eq_some_iff.1 ha'
      obtain rfl := child?_unique h hq hq' (leafAt_mem ha) (leafAt_mem ha')
      obtain rfl : q = q' := Option.some.inj (hq.symm.trans hq')
      rw [ih (h.sublist (child?_leaves hq)) ha ha']

/-- Every leaf has its counterpart. -/
theorem Matches.partner (h : p.Matches r p') {a : ActionId} (ha : a ∈ p.leaves) :
    ∃ a' ∈ p'.leaves, r a a' := by
  induction h using Matches.induction with
  | leaf b a' h =>
    rw [Matches] at h
    obtain rfl := List.mem_singleton.1 ha
    exact ⟨a', List.mem_singleton_self _, h⟩
  | sequence plans plans' h hplans =>
    clear h
    rw [leaves, leavesList_eq] at ha ⊢
    induction hplans with
    | nil => cases ha
    | cons hp _ ih =>
      rw [List.flatMap_cons, List.mem_append] at ha
      rw [List.flatMap_cons]
      rcases ha with ha | ha
      · obtain ⟨a', ha', hr⟩ := hp.2 ha
        exact ⟨a', List.mem_append_left _ ha', hr⟩
      · obtain ⟨a', ha', hr⟩ := ih ha
        exact ⟨a', List.mem_append_right _ ha', hr⟩
  | parallel branches branches' h ih =>
    rw [leaves, leavesBranches_eq] at ha ⊢
    obtain ⟨⟨key, q⟩, hq, ha⟩ := List.mem_flatMap.1 ha
    obtain ⟨q', hq', hm⟩ := h.parallel_branch hq
    obtain ⟨a', ha', hr⟩ := ih key q q' hq hq' hm ha
    exact ⟨a', List.mem_flatMap.2 ⟨_, hq', ha'⟩, hr⟩

/-- Plans of the same shape match as their leaves in the same places do. -/
theorem Matches.refine {r' : ActionId → ActionId → Prop} (h : p.Matches r' p')
    (hleaf : ∀ path a a', p.leafAt path = some a → p'.leafAt path = some a' → r a a') :
    p.Matches r p' := by
  induction h using Matches.induction with
  | leaf a a' =>
    rw [Matches]
    exact hleaf [] a a' rfl rfl
  | sequence plans plans' h hplans =>
    rw [Matches, matchesList_iff]
    have hnth : ∀ (i : Nat) (q q' : Plan), plans[i]? = some q → plans'[i]? = some q' →
        ∀ path a a', q.leafAt path = some a → q'.leafAt path = some a' → r a a' := by
      intro i q q' hq hq' path a a' ha ha'
      exact hleaf (.index i :: path) a a' (by rw [leafAt, hq]; exact ha)
        (by rw [leafAt, hq']; exact ha')
    clear hleaf h
    induction hplans with
    | nil => exact .nil
    | cons hp _ ih => exact .cons (hp.2 (hnth 0 _ _ rfl rfl)) (ih fun i => hnth (i + 1))
  | parallel branches branches' h ih =>
    obtain ⟨hkeys, hkeys'⟩ := h.parallel_keys
    have hperm := h
    rw [Matches] at hperm ⊢
    refine ⟨hperm.1, hperm.2.1, matchesBranches_iff.2 fun key q hq => ?_⟩
    obtain ⟨q', hq', hm⟩ := h.parallel_branch hq
    refine ⟨q', hq', ih key q q' hq hq' hm fun path a a' ha ha' => ?_⟩
    exact hleaf (.key key :: path) a a' (by rw [leafAt, lookup_of_mem hkeys hq]; exact ha)
      (by rw [leafAt, lookup_of_mem hkeys' hq']; exact ha')

end Plan

end Rundown
