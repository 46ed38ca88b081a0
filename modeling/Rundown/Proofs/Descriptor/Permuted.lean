import Rundown.Proofs.Compiler
import Rundown.Proofs.Plan.Matching

/-!
# Descriptors that differ in the order of branches

`Descriptor.Permutes d d'` says that `d'` is `d` with the branches of its parallel groups in another
order.  Such descriptors have matching plans, and the same actions are built for matching leaves
(`Descriptor.Permutes.plan_matches`, `Descriptor.refAt_of_leafAt`).
-/

namespace Rundown

namespace Descriptor

mutual

/-- The same node but for the order in which parallel groups give their branches: the same keys, and
under each key the same node in this sense. -/
def Permutes : Descriptor → Descriptor → Prop
  | action ref, action ref' => ref = ref'
  | .instance a, .instance a' => a = a'
  | sequence nodes, sequence nodes' => PermutesNodes nodes nodes'
  | parallel branches, parallel branches' =>
    (branches'.map Prod.fst).Perm (branches.map Prod.fst) ∧ PermutesBranches branches branches'
  | _, _ => False

def PermutesNodes : List Descriptor → List Descriptor → Prop
  | [], [] => True
  | node :: rest, node' :: rest' => node.Permutes node' ∧ PermutesNodes rest rest'
  | _, _ => False

def PermutesBranches : List (String × Descriptor) → List (String × Descriptor) → Prop
  | [], _ => True
  | (key, node) :: rest, branches' =>
    (∃ node', (key, node') ∈ branches' ∧ node.Permutes node') ∧ PermutesBranches rest branches'

end

mutual

/-- No parallel group has two branches with one key. -/
def Keyed : Descriptor → Prop
  | action _ | .instance _ => True
  | sequence nodes => KeyedNodes nodes
  | parallel branches => (branches.map Prod.fst).Nodup ∧ KeyedBranches branches

def KeyedNodes : List Descriptor → Prop
  | [] => True
  | node :: rest => node.Keyed ∧ KeyedNodes rest

def KeyedBranches : List (String × Descriptor) → Prop
  | [] => True
  | (_, node) :: rest => node.Keyed ∧ KeyedBranches rest

end

variable {d d' : Descriptor} {nodes nodes' : List Descriptor}
  {branches branches' : List (String × Descriptor)} {key : String} {n n' : ActionId}

theorem permutesNodes_iff : PermutesNodes nodes nodes' ↔ List.Forall₂ Permutes nodes nodes' := by
  induction nodes generalizing nodes' with
  | nil => cases nodes' <;> simp [PermutesNodes]
  | cons node rest ih => cases nodes' <;> simp [PermutesNodes, ih]

theorem permutesBranches_iff : PermutesBranches branches branches' ↔
    ∀ key node, (key, node) ∈ branches →
      ∃ node', (key, node') ∈ branches' ∧ node.Permutes node' := by
  induction branches with
  | nil => simp [PermutesBranches]
  | cons b rest ih =>
    obtain ⟨k, node⟩ := b
    rw [PermutesBranches, ih]
    simp only [List.mem_cons, Prod.mk.injEq, or_imp, forall_and, and_imp, forall_eq_apply_imp_iff,
      forall_eq]

theorem keyedNodes_iff : KeyedNodes nodes ↔ ∀ node ∈ nodes, node.Keyed := by
  induction nodes with
  | nil => simp [KeyedNodes]
  | cons node rest ih => rw [KeyedNodes, ih, List.forall_mem_cons]

theorem keyedBranches_iff : KeyedBranches branches ↔ ∀ b ∈ branches, b.2.Keyed := by
  induction branches with
  | nil => simp [KeyedBranches]
  | cons b rest ih =>
    obtain ⟨k, node⟩ := b
    rw [KeyedBranches, ih, List.forall_mem_cons]

/-- Induction over two descriptors that differ in the order of branches; they are of one kind all the
way down. -/
@[elab_as_elim]
theorem Permutes.induction {motive : (d d' : Descriptor) → d.Permutes d' → Prop}
    (action : ∀ ref h, motive (.action ref) (.action ref) h)
    («instance» : ∀ a h, motive (.instance a) (.instance a) h)
    (sequence : ∀ nodes nodes' h,
      List.Forall₂ (fun d d' => ∃ h : d.Permutes d', motive d d' h) nodes nodes' →
        motive (.sequence nodes) (.sequence nodes') h)
    (parallel : ∀ branches branches' h,
      (∀ key d d', (key, d) ∈ branches → (key, d') ∈ branches' →
        ∀ h : d.Permutes d', motive d d' h) →
        motive (.parallel branches) (.parallel branches') h)
    {d d' : Descriptor} (h : d.Permutes d') : motive d d' h := by
  induction d using Descriptor.induction generalizing d' with
  | action ref =>
    cases d' with
    | action ref' =>
      obtain rfl : ref = ref' := by rwa [Permutes] at h
      exact action ref h
    | «instance» | sequence | parallel => exact absurd h (by simp [Permutes])
  | «instance» a =>
    cases d' with
    | «instance» a' =>
      obtain rfl : a = a' := by rwa [Permutes] at h
      exact «instance» a h
    | action | sequence | parallel => exact absurd h (by simp [Permutes])
  | sequence nodes ih =>
    cases d' with
    | sequence nodes' =>
      have hnodes := h
      rw [Permutes, permutesNodes_iff] at hnodes
      refine sequence nodes nodes' h ?_
      clear h
      induction hnodes with
      | nil => exact .nil
      | cons hp _ ihrest =>
        rw [List.forall_mem_cons] at ih
        exact .cons ⟨hp, ih.1 hp⟩ (ihrest ih.2)
    | action | «instance» | parallel => exact absurd h (by simp [Permutes])
  | parallel branches ih =>
    cases d' with
    | parallel branches' => exact parallel branches branches' h fun key d d' hd _ => ih (key, d) hd
    | action | «instance» | sequence => exact absurd h (by simp [Permutes])

theorem Permutes.refl (d : Descriptor) : d.Permutes d := by
  induction d using Descriptor.induction with
  | action ref => rfl
  | «instance» a => rfl
  | sequence nodes ih =>
    rw [Permutes, permutesNodes_iff]
    exact List.forall₂_same.2 ih
  | parallel branches ih =>
    rw [Permutes, permutesBranches_iff]
    exact ⟨.refl _, fun key node hb => ⟨node, hb, ih _ hb⟩⟩

theorem Permutes.of_perm (h : branches'.Perm branches) :
    (parallel branches).Permutes (parallel branches') := by
  rw [Permutes, permutesBranches_iff]
  exact ⟨h.map _, fun key node hb => ⟨node, h.mem_iff.2 hb, .refl node⟩⟩

/-! ## Branches by their keys -/

theorem Permutes.branch (h : (parallel branches).Permutes (parallel branches'))
    (hd : (key, d) ∈ branches) : ∃ d', (key, d') ∈ branches' ∧ d.Permutes d' := by
  rw [Permutes] at h
  exact permutesBranches_iff.1 h.2 key d hd

theorem Permutes.keys' (h : (parallel branches).Permutes (parallel branches'))
    (hkeys : (branches.map Prod.fst).Nodup) : (branches'.map Prod.fst).Nodup := by
  rw [Permutes] at h
  exact h.1.nodup_iff.2 hkeys

theorem Permutes.branch' (h : (parallel branches).Permutes (parallel branches'))
    (hkeys : (branches.map Prod.fst).Nodup) (hd' : (key, d') ∈ branches') :
    ∃ d, (key, d) ∈ branches ∧ d.Permutes d' := by
  have hkey : key ∈ branches.map Prod.fst := by
    rw [Permutes] at h
    exact h.1.mem_iff.1 (List.mem_map_of_mem hd')
  obtain ⟨⟨k, d⟩, hd, rfl⟩ := List.mem_map.1 hkey
  obtain ⟨d'', hd'', hp⟩ := h.branch hd
  exact ⟨d, hd, eq_of_key (h.keys' hkeys) hd'' hd' ▸ hp⟩

theorem instancesBranches_eq_nil :
    instancesBranches branches = [] ↔ ∀ b ∈ branches, b.2.instances = [] := by
  induction branches with
  | nil => simp [instancesBranches]
  | cons b rest ih =>
    obtain ⟨k, node⟩ := b
    rw [instancesBranches, List.append_eq_nil_iff, ih, List.forall_mem_cons]

theorem instancesNodes_eq_nil :
    instancesNodes nodes = [] ↔ ∀ node ∈ nodes, node.instances = [] := by
  induction nodes with
  | nil => simp [instancesNodes]
  | cons node rest ih =>
    rw [instancesNodes, List.append_eq_nil_iff, ih, List.forall_mem_cons]

theorem Permutes.instances (h : d.Permutes d') (hkeyed : d.Keyed) (hd : d.instances = []) :
    d'.instances = [] := by
  induction h using Permutes.induction with
  | action | «instance» => exact hd
  | sequence nodes nodes' h hnodes =>
    clear h
    rw [Keyed, keyedNodes_iff] at hkeyed
    rw [Descriptor.instances, instancesNodes_eq_nil] at hd ⊢
    induction hnodes with
    | nil => exact hd
    | cons hp _ ih =>
      rw [List.forall_mem_cons] at hkeyed hd ⊢
      exact ⟨hp.2 hkeyed.1 hd.1, ih hkeyed.2 hd.2⟩
  | parallel branches branches' h ih =>
    rw [Keyed, keyedBranches_iff] at hkeyed
    rw [Descriptor.instances, instancesBranches_eq_nil] at hd ⊢
    intro b hb
    obtain ⟨node, hnode, hp⟩ := h.branch' hkeyed.1 hb
    exact ih _ node b.2 hnode hb hp (hkeyed.2 _ hnode) (hd _ hnode)

/-! ## References and depth -/

theorem mem_refsBranches {ref : ActionRef} :
    ref ∈ refsBranches branches ↔ ∃ b ∈ branches, ref ∈ b.2.refs := by
  induction branches with
  | nil => simp [refsBranches]
  | cons b rest ih =>
    obtain ⟨k, node⟩ := b
    simp [refsBranches, ih]

/-- Reordering branches changes no reference. -/
theorem Permutes.mem_refs (h : d.Permutes d') (hkeyed : d.Keyed) {ref : ActionRef} :
    ref ∈ d'.refs ↔ ref ∈ d.refs := by
  induction h using Permutes.induction with
  | action | «instance» => rfl
  | sequence nodes nodes' h hnodes =>
    clear h
    rw [Keyed, keyedNodes_iff] at hkeyed
    rw [refs, refs]
    induction hnodes with
    | nil => rfl
    | cons hp _ ih =>
      rw [List.forall_mem_cons] at hkeyed
      rw [refsNodes, refsNodes, List.mem_append, List.mem_append, hp.2 hkeyed.1, ih hkeyed.2]
  | parallel branches branches' h ih =>
    rw [Keyed, keyedBranches_iff] at hkeyed
    rw [refs, refs, mem_refsBranches, mem_refsBranches]
    constructor
    · rintro ⟨⟨key, node'⟩, hnode', href⟩
      obtain ⟨node, hnode, hp⟩ := h.branch' hkeyed.1 hnode'
      exact ⟨_, hnode, (ih key node node' hnode hnode' hp (hkeyed.2 _ hnode)).1 href⟩
    · rintro ⟨⟨key, node⟩, hnode, href⟩
      obtain ⟨node', hnode', hp⟩ := h.branch hnode
      exact ⟨_, hnode', (ih key node node' hnode hnode' hp (hkeyed.2 _ hnode)).2 href⟩

theorem depthNodes_le_iff {n : Nat} : depthNodes nodes ≤ n ↔ ∀ node ∈ nodes, node.depth ≤ n := by
  induction nodes with
  | nil => simp [depthNodes]
  | cons node rest ih => rw [depthNodes, Nat.max_le, ih, List.forall_mem_cons]

theorem depthBranches_le_iff {n : Nat} :
    depthBranches branches ≤ n ↔ ∀ b ∈ branches, b.2.depth ≤ n := by
  induction branches with
  | nil => simp [depthBranches]
  | cons b rest ih =>
    obtain ⟨k, node⟩ := b
    rw [depthBranches, Nat.max_le, ih, List.forall_mem_cons]

/-- Reordering branches does not change how deep the groups stand. -/
theorem Permutes.depth_eq (h : d.Permutes d') (hkeyed : d.Keyed) : d'.depth = d.depth := by
  induction h using Permutes.induction with
  | action | «instance» => rfl
  | sequence nodes nodes' h hnodes =>
    clear h
    rw [Keyed, keyedNodes_iff] at hkeyed
    rw [depth, depth]
    refine congrArg (· + 1) ?_
    induction hnodes with
    | nil => rfl
    | cons hp _ ih =>
      rw [List.forall_mem_cons] at hkeyed
      rw [depthNodes, depthNodes, hp.2 hkeyed.1, ih hkeyed.2]
  | parallel branches branches' h ih =>
    rw [Keyed, keyedBranches_iff] at hkeyed
    rw [depth, depth]
    refine congrArg (· + 1) (Nat.le_antisymm ?_ ?_)
    · refine depthBranches_le_iff.2 fun b' hb' => ?_
      obtain ⟨node, hnode, hp⟩ := h.branch' hkeyed.1 hb'
      rw [ih _ node b'.2 hnode hb' hp (hkeyed.2 _ hnode)]
      exact depthBranches_le_iff.1 (Nat.le_refl _) _ hnode
    · refine depthBranches_le_iff.2 fun b hb => ?_
      obtain ⟨node', hnode', hp⟩ := h.branch hb
      rw [← ih _ b.2 node' hb hnode' hp (hkeyed.2 _ hb)]
      exact depthBranches_le_iff.1 (Nat.le_refl _) _ hnode'

/-- The same descriptors compile, in whatever order they give their branches. -/
theorem Permutes.compile_succeeds_iff (h : d.Permutes d') (hkeyed : d.Keyed) (c : Compiler)
    (e : Engine) :
    (∃ r, (c.compile d' e).result = .ok r) ↔ ∃ r, (c.compile d e).result = .ok r := by
  simp only [Compiler.compile_succeeds_iff, h.depth_eq hkeyed, Compiler.Buildable,
    h.mem_refs hkeyed]

/-! ## Plans -/

theorem mem_planBranches {p : Plan} (h : (key, p) ∈ planBranches n branches) :
    ∃ d m, (key, d) ∈ branches ∧ p = d.plan m := by
  induction branches generalizing n with
  | nil => cases h
  | cons b rest ih =>
    obtain ⟨k, node⟩ := b
    rcases List.mem_cons.1 h with h | h
    · cases h
      exact ⟨node, n, List.mem_cons_self, rfl⟩
    · obtain ⟨d, m, hd, hp⟩ := ih h
      exact ⟨d, m, List.mem_cons_of_mem _ hd, hp⟩

theorem exists_mem_planBranches (n : ActionId) (h : (key, d) ∈ branches) :
    ∃ m, (key, d.plan m) ∈ planBranches n branches := by
  induction branches generalizing n with
  | nil => cases h
  | cons b rest ih =>
    obtain ⟨k, node⟩ := b
    rcases List.mem_cons.1 h with h | h
    · cases h
      exact ⟨n, List.mem_cons_self⟩
    · obtain ⟨m, hm⟩ := ih (n + node.references) h
      exact ⟨m, List.mem_cons_of_mem _ hm⟩

theorem keys_planBranches (n : ActionId) (branches : List (String × Descriptor)) :
    (planBranches n branches).map Prod.fst = branches.map Prod.fst := by
  induction branches generalizing n with
  | nil => rfl
  | cons b rest ih =>
    obtain ⟨k, node⟩ := b
    simp only [planBranches, List.map_cons, ih]

/-- Descriptors that differ in the order of branches have plans that do. -/
theorem Permutes.plan_matches (h : d.Permutes d') (hkeyed : d.Keyed) (n n' : ActionId) :
    (d.plan n).Matches (fun _ _ => True) (d'.plan n') := by
  induction h using Permutes.induction generalizing n n' with
  | action | «instance» => trivial
  | sequence nodes nodes' h hnodes =>
    clear h
    rw [Keyed, keyedNodes_iff] at hkeyed
    rw [plan, plan, Plan.Matches]
    induction hnodes generalizing n n' with
    | nil => trivial
    | cons hp _ ih =>
      rw [List.forall_mem_cons] at hkeyed
      exact ⟨hp.2 hkeyed.1 n n', ih hkeyed.2 _ _⟩
  | parallel branches branches' h ih =>
    rw [Keyed, keyedBranches_iff] at hkeyed
    rw [plan, plan, Plan.Matches, keys_planBranches, keys_planBranches, Plan.matchesBranches_iff]
    have hperm := h
    rw [Permutes] at hperm
    refine ⟨hkeyed.1, hperm.1, fun key p hp => ?_⟩
    obtain ⟨node, m, hnode, rfl⟩ := mem_planBranches hp
    obtain ⟨node', hnode', hpn⟩ := h.branch hnode
    obtain ⟨m', hm'⟩ := exists_mem_planBranches n' hnode'
    exact ⟨_, hm', ih key node node' hnode hnode' hpn (hkeyed.2 _ hnode) m m'⟩

/-! ## The actions at the leaves -/

/-- The reference that is reached by the path. -/
def refAt : Path → Descriptor → Option ActionRef
  | [], action ref => some ref
  | .index i :: path, sequence nodes => nodes[i]?.bind (refAt path)
  | .key key :: path, parallel branches => (branches.lookup key).bind (refAt path)
  | _, _ => none

/-- The same reference stands in the same place. -/
theorem Permutes.refAt_eq (h : d.Permutes d') (hkeyed : d.Keyed) (path : Path) :
    d'.refAt path = d.refAt path := by
  induction h using Permutes.induction generalizing path with
  | action | «instance» => rfl
  | sequence nodes nodes' h hnodes =>
    clear h
    rw [Keyed, keyedNodes_iff] at hkeyed
    cases path with
    | nil => rfl
    | cons segment path =>
      cases segment with
      | key => rfl
      | index i =>
        rw [refAt, refAt]
        induction hnodes generalizing i with
        | nil => rfl
        | cons hp _ ih =>
          rw [List.forall_mem_cons] at hkeyed
          cases i with
          | zero => exact hp.2 hkeyed.1 path
          | succ i => exact ih hkeyed.2 i
  | parallel branches branches' h ih =>
    rw [Keyed, keyedBranches_iff] at hkeyed
    cases path with
    | nil => rfl
    | cons segment path =>
      cases segment with
      | index => rfl
      | key key =>
        rw [refAt, refAt]
        cases hl : branches.lookup key with
        | some d =>
          have hd := mem_of_lookup hl
          obtain ⟨d', hd', hp⟩ := h.branch hd
          rw [lookup_of_mem (h.keys' hkeyed.1) hd']
          exact ih key d d' hd hd' hp (hkeyed.2 _ hd) path
        | none =>
          cases hl' : branches'.lookup key with
          | none => rfl
          | some d' =>
            obtain ⟨d, hd, -⟩ := h.branch' hkeyed.1 (mem_of_lookup hl')
            rw [lookup_of_mem hkeyed.1 hd] at hl
            cases hl

/-- A step of the plan of a sequence is the plan of a node, whose references come at some place. -/
theorem planNodes_getElem? {i : Nat} {p : Plan} (h : (planNodes n nodes)[i]? = some p) :
    ∃ d m, nodes[i]? = some d ∧ p = d.plan (n + m) ∧
      ∀ k ref, d.refs[k]? = some ref → (refsNodes nodes)[m + k]? = some ref := by
  induction nodes generalizing n i with
  | nil => cases h
  | cons node rest ih =>
    cases i with
    | zero =>
      cases h
      refine ⟨node, 0, rfl, rfl, fun k ref hk => ?_⟩
      rw [refsNodes, Nat.zero_add, List.getElem?_append_left (List.getElem?_eq_some_iff.1 hk).1, hk]
    | succ i =>
      obtain ⟨d, m, hd, rfl, hrefs⟩ := ih h
      refine ⟨d, node.references + m, hd, by rw [Nat.add_assoc], fun k ref hk => ?_⟩
      rw [refsNodes, ← length_refs, Nat.add_assoc, List.getElem?_append_right (by omega),
        Nat.add_sub_cancel_left, hrefs k ref hk]

theorem planBranches_lookup {p : Plan} (h : (planBranches n branches).lookup key = some p) :
    ∃ d m, branches.lookup key = some d ∧ p = d.plan (n + m) ∧
      ∀ k ref, d.refs[k]? = some ref → (refsBranches branches)[m + k]? = some ref := by
  induction branches generalizing n with
  | nil => cases h
  | cons b rest ih =>
    obtain ⟨k, node⟩ := b
    rw [planBranches, List.lookup_cons] at h
    rw [List.lookup_cons]
    by_cases hk : key = k
    · subst hk
      rw [beq_self_eq_true] at h ⊢
      cases h
      refine ⟨node, 0, rfl, rfl, fun k ref hk => ?_⟩
      rw [refsBranches, Nat.zero_add, List.getElem?_append_left (List.getElem?_eq_some_iff.1 hk).1,
        hk]
    · rw [beq_eq_false_iff_ne.2 hk] at h ⊢
      obtain ⟨d, m, hd, rfl, hrefs⟩ := ih h
      refine ⟨d, node.references + m, hd, by rw [Nat.add_assoc], fun k ref hk => ?_⟩
      rw [refsBranches, ← length_refs, Nat.add_assoc, List.getElem?_append_right (by omega),
        Nat.add_sub_cancel_left, hrefs k ref hk]

/-- The leaf in a place is the action that is built for the reference in that place. -/
theorem refAt_of_leafAt (hd : d.instances = []) {path : Path} {a : ActionId}
    (h : (d.plan n).leafAt path = some a) :
    ∃ ref k, d.refAt path = some ref ∧ a = n + k ∧ d.refs[k]? = some ref := by
  induction path generalizing d n with
  | nil =>
    cases d with
    | action ref =>
      cases h
      exact ⟨ref, 0, rfl, rfl, rfl⟩
    | «instance» b => simp [instances] at hd
    | sequence | parallel => cases h
  | cons segment path ih =>
    cases d with
    | action | «instance» => cases segment <;> cases h
    | sequence nodes =>
      rw [instances, instancesNodes_eq_nil] at hd
      cases segment with
      | key => cases h
      | index i =>
        obtain ⟨p, hp, h⟩ := Option.bind_eq_some_iff.1 h
        obtain ⟨d, m, hnode, rfl, hrefs⟩ := planNodes_getElem? hp
        obtain ⟨ref, k, href, rfl, hk⟩ := ih (hd d (List.mem_of_getElem? hnode)) h
        exact ⟨ref, m + k, by rw [refAt, hnode]; exact href, by rw [Nat.add_assoc],
          hrefs k ref hk⟩
    | parallel branches =>
      rw [instances, instancesBranches_eq_nil] at hd
      cases segment with
      | index => cases h
      | key key =>
        obtain ⟨p, hp, h⟩ := Option.bind_eq_some_iff.1 h
        obtain ⟨d, m, hnode, rfl, hrefs⟩ := planBranches_lookup hp
        obtain ⟨ref, k, href, rfl, hk⟩ := ih (hd _ (mem_of_lookup hnode)) h
        exact ⟨ref, m + k, by rw [refAt, hnode]; exact href, by rw [Nat.add_assoc],
          hrefs k ref hk⟩

/-- The leaves of a descriptor without ready built actions are numbered in document order. -/
theorem plan_leaves_eq (hd : d.instances = []) (n : ActionId) :
    (d.plan n).leaves = List.range' n d.references := by
  induction d using Descriptor.induction generalizing n with
  | action ref => rfl
  | «instance» a => simp [instances] at hd
  | sequence nodes ih =>
    rw [instances, instancesNodes_eq_nil] at hd
    rw [plan, Plan.leaves, references]
    induction nodes generalizing n with
    | nil => rfl
    | cons node rest ihrest =>
      simp only [List.mem_cons, forall_eq_or_imp] at ih hd
      rw [planNodes, Plan.leavesList, referencesNodes, ih.1 hd.1, ihrest ih.2 hd.2,
        List.range'_append_1]
  | parallel branches ih =>
    rw [instances, instancesBranches_eq_nil] at hd
    rw [plan, Plan.leaves, references]
    induction branches generalizing n with
    | nil => rfl
    | cons b rest ihrest =>
      obtain ⟨k, node⟩ := b
      simp only [List.mem_cons, forall_eq_or_imp] at ih hd
      rw [planBranches, Plan.leavesBranches, referencesBranches, ih.1 hd.1, ihrest ih.2 hd.2,
        List.range'_append_1]

/-! ## Counterparts -/

/-- The leaves in the same place of two plans. -/
def Counterparts (p p' : Plan) (a a' : ActionId) : Prop :=
  ∃ path, p.leafAt path = some a ∧ p'.leafAt path = some a'

theorem Counterparts.right_unique {p p' : Plan} {a a' b' : ActionId} (h : Counterparts p p' a a')
    (h' : Counterparts p p' a b') (hleaves : p.leaves.Nodup) : a' = b' := by
  obtain ⟨path, ha, ha'⟩ := h
  obtain ⟨path', hb, hb'⟩ := h'
  rw [Plan.leafAt_unique hleaves hb ha, ha'] at hb'
  exact Option.some.inj hb'

theorem Counterparts.left_unique {p p' : Plan} {a b a' : ActionId} (h : Counterparts p p' a a')
    (h' : Counterparts p p' b a') (hleaves : p'.leaves.Nodup) : a = b := by
  obtain ⟨path, ha, ha'⟩ := h
  obtain ⟨path', hb, hb'⟩ := h'
  rw [Plan.leafAt_unique hleaves hb' ha', ha] at hb
  exact Option.some.inj hb

theorem rootPlan_leaves (d : Descriptor) (n : ActionId) :
    (d.rootPlan n).leaves = (d.plan n).leaves := by
  rcases d.rootPlan_eq_or n with h | h
  · rw [h]
  · rw [h, Plan.leaves, Plan.leavesList, Plan.leavesList, List.append_nil]

theorem Permutes.rootPlan_matches (h : d.Permutes d') (hkeyed : d.Keyed) (n n' : ActionId) :
    (d.rootPlan n).Matches (Counterparts (d.rootPlan n) (d'.rootPlan n')) (d'.rootPlan n') := by
  suffices hm : (d.rootPlan n).Matches (fun _ _ => True) (d'.rootPlan n') from
    hm.refine fun path a a' ha ha' => ⟨path, ha, ha'⟩
  have hplan := h.plan_matches hkeyed n n'
  unfold rootPlan
  cases d <;> cases d' <;> simp only [Permutes] at h <;>
    first | exact hplan | exact ⟨hplan, trivial⟩

/-- Counterparts are built from the same reference. -/
theorem Permutes.refs_of_counterparts (h : d.Permutes d') (hkeyed : d.Keyed)
    (hd : d.instances = []) {a a' : ActionId}
    (ha : Counterparts (d.rootPlan n) (d'.rootPlan n') a a') :
    ∃ ref k k', a = n + k ∧ a' = n' + k' ∧ d.refs[k]? = some ref ∧ d'.refs[k']? = some ref := by
  have hd' := h.instances hkeyed hd
  obtain ⟨path, ha, ha'⟩ := ha
  have inner {path : Path} (ha : (d.plan n).leafAt path = some a)
      (ha' : (d'.plan n').leafAt path = some a') :
      ∃ ref k k', a = n + k ∧ a' = n' + k' ∧ d.refs[k]? = some ref ∧ d'.refs[k']? = some ref := by
    obtain ⟨ref, k, href, rfl, hk⟩ := refAt_of_leafAt hd ha
    obtain ⟨ref', k', href', rfl, hk'⟩ := refAt_of_leafAt hd' ha'
    rw [h.refAt_eq hkeyed, href] at href'
    exact ⟨ref, k, k', rfl, rfl, hk, Option.some.inj href' ▸ hk'⟩
  have alone {p : Plan} {path : Path} {b : ActionId}
      (hb : (Plan.sequence [p]).leafAt path = some b) :
      ∃ rest, path = .index 0 :: rest ∧ p.leafAt rest = some b := by
    cases path with
    | nil => cases hb
    | cons segment rest =>
      cases segment with
      | key => cases hb
      | index i =>
        obtain ⟨q, hq, hb⟩ := Option.bind_eq_some_iff.1 hb
        obtain ⟨rfl, rfl⟩ : i = 0 ∧ q = p := by
          cases i with
          | zero => exact ⟨rfl, (Option.some.inj hq).symm⟩
          | succ i => cases hq
        exact ⟨rest, rfl, hb⟩
  unfold rootPlan at ha ha'
  cases d <;> cases d' <;> simp only [Permutes] at h
  case action.action =>
    obtain ⟨rest, rfl, ha⟩ := alone ha
    obtain ⟨rest', heq, ha'⟩ := alone ha'
    cases heq
    exact inner ha ha'
  case «instance».instance => simp [Descriptor.instances] at hd
  all_goals exact inner ha ha'

end Descriptor

end Rundown
