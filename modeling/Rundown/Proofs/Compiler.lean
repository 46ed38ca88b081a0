import Rundown.Proofs.Playlist.Entered

/-!
# What compiling builds

`Compiler.compileRoot_yields`: a compiled tree is untouched, does what its descriptor plans, and has
the configured policy everywhere; its references were built one after another.
-/

namespace Rundown

namespace Step

theorem leavesList_planList {steps : List Step} (h : ∀ s ∈ steps, s.plan.leaves = s.leaves) :
    Plan.leavesList (planList steps) = leavesList steps := by
  induction steps with
  | nil => rfl
  | cons s rest ih =>
    rw [List.forall_mem_cons] at h
    rw [planList, Plan.leavesList, leavesList, h.1, ih h.2]

theorem leavesBranches_planList {keys : List String} {steps : List Step}
    (hlength : keys.length = steps.length) (h : ∀ s ∈ steps, s.plan.leaves = s.leaves) :
    Plan.leavesBranches (keys.zip (planList steps)) = leavesList steps := by
  induction steps generalizing keys with
  | nil =>
    obtain rfl := List.length_eq_zero_iff.1 hlength
    rfl
  | cons s rest ih =>
    cases keys with
    | nil => cases hlength
    | cons key keys =>
      rw [List.forall_mem_cons] at h
      rw [planList, List.zip_cons_cons, Plan.leavesBranches, leavesList, h.1,
        ih (Nat.succ.inj hlength) h.2]

/-- A step and its plan have the same leaves. -/
theorem Fresh.plan_leaves {s : Step} (h : s.Fresh) : s.plan.leaves = s.leaves := by
  induction s using induction with
  | leaf slot a => rfl
  | group slot g steps ih =>
    obtain ⟨-, -, -, hfits, hfresh⟩ := h
    have hsteps : ∀ s ∈ steps, s.plan.leaves = s.leaves := fun s hs =>
      ih s hs (freshList_iff.1 hfresh s hs)
    unfold GroupKind.Fits at hfits
    unfold plan leaves
    cases hk : g.kind with
    | sequence => exact leavesList_planList hsteps
    | parallel keys policy =>
      rw [hk] at hfits
      exact leavesBranches_planList hfits hsteps

end Step

namespace Compiler

open Step

variable {α β : Type} {c : Compiler} {m : CompileM α} {f : α → CompileM β} {a a' : α} {b : β}
  {shop shop' : Workshop}

/-- The part of a compilation succeeds with `a` and leaves `shop'` behind. -/
def Yields (m : CompileM α) (shop : Workshop) (a : α) (shop' : Workshop) : Prop :=
  m.run.run shop = (.ok a, shop')

theorem Yields.of_pure (h : Yields (pure a) shop a' shop') : a' = a ∧ shop' = shop := by
  cases h
  exact ⟨rfl, rfl⟩

/-- What comes after a part that fails is not done. -/
theorem run_bind (m : CompileM α) (f : α → CompileM β) (shop : Workshop) :
    (m >>= f).run.run shop = match m.run.run shop with
      | (.ok a, mid) => (f a).run.run mid
      | (.error e, mid) => (.error e, mid) := by
  simp only [ExceptT.run_bind, StateT.run_bind]
  rcases m.run.run shop with ⟨a | e, mid⟩ <;> rfl

theorem Yields.of_bind (h : Yields (m >>= f) shop b shop') :
    ∃ a mid, Yields m shop a mid ∧ Yields (f a) mid b shop' := by
  unfold Yields at h ⊢
  rw [run_bind] at h
  rcases hm : m.run.run shop with ⟨e | a, mid⟩
  · rw [hm] at h
    cases h
  · rw [hm] at h
    exact ⟨a, mid, rfl, h⟩

/-- The actions that were built. -/
def built (calls : List Construction) : List Action :=
  calls.filterMap fun call => call.result.toOption

/-- The reference is built as this action. -/
def Builds (c : Compiler) (ref : ActionRef) (action : Action) : Prop :=
  ∃ constructor, c.registry.resolve ref.name = some constructor ∧
    constructor ref.options = .ok action

/-- The references have been built one after another, under consecutive numbers. -/
structure Grown (c : Compiler) (refs : List ActionRef) (shop shop' : Workshop) : Prop where
  next : shop'.next = shop.next + refs.length
  built : ∃ actions, built shop'.calls = built shop.calls ++ actions ∧
    List.Forall₂ c.Builds refs actions

theorem Grown.refl (c : Compiler) (shop : Workshop) : Grown c [] shop shop :=
  ⟨rfl, [], (List.append_nil _).symm, .nil⟩

theorem Grown.trans {shop'' : Workshop} {refs refs' : List ActionRef} (h : Grown c refs shop shop')
    (h' : Grown c refs' shop' shop'') : Grown c (refs ++ refs') shop shop'' := by
  obtain ⟨actions, hactions, hbuilds⟩ := h.built
  obtain ⟨actions', hactions', hbuilds'⟩ := h'.built
  refine ⟨?_, actions ++ actions', ?_, List.rel_append hbuilds hbuilds'⟩
  · rw [h'.next, h.next, List.length_append, Nat.add_assoc]
  · rw [hactions', hactions, List.append_assoc]

/-- An action is built for every reference. -/
theorem Grown.length_built {refs : List ActionRef} (h : Grown c refs shop shop') :
    (Compiler.built shop'.calls).length = (Compiler.built shop.calls).length + refs.length := by
  obtain ⟨actions, hactions, hbuilds⟩ := h.built
  rw [hactions, List.length_append, hbuilds.length_eq]

theorem build_yields {path : Path} {ref : ActionRef} {id : ActionId}
    (h : Yields (c.build path ref) shop id shop') :
    id = shop.next ∧ Grown c [ref] shop shop' := by
  unfold build at h
  cases hr : c.registry.resolve ref.name with
  | none =>
    rw [hr] at h
    cases h
  | some constructor =>
    rw [hr] at h
    dsimp only at h
    cases hc : constructor ref.options with
    | error e =>
      rw [hc] at h
      cases h
    | ok action =>
      rw [hc] at h
      cases h
      refine ⟨rfl, rfl, [action], ?_, .cons ⟨constructor, hr, hc⟩ .nil⟩
      simp [built, List.filterMap_append, Except.toOption]

theorem checkLevel_yields {path : Path} {level : Nat} {u : Unit}
    (h : Yields (c.checkLevel path level) shop u shop') : shop' = shop := by
  unfold checkLevel at h
  split at h
  · cases h
  · exact h.of_pure.2

/-- What a node has been compiled to. -/
structure Compiled (c : Compiler) (d : Descriptor) (shop : Workshop) (s : Step) (shop' : Workshop) :
    Prop where
  fresh : s.Fresh
  plan : s.plan = d.plan shop.next
  under : s.Under c.config.parallelFailure
  grown : Grown c d.refs shop shop'

mutual

theorem compileNode_yields {path : Path} {level : Nat} {s : Step} {shop shop' : Workshop} :
    ∀ {d : Descriptor}, Yields (c.compileNode path level d) shop s shop' → Compiled c d shop s shop'
  | .action ref => fun h => by
    obtain ⟨id, mid, hb, h⟩ := Yields.of_bind h
    obtain ⟨rfl, rfl⟩ := h.of_pure
    obtain ⟨rfl, hgrown⟩ := build_yields hb
    exact ⟨rfl, rfl, trivial, hgrown⟩
  | .instance id => fun h => by
    obtain ⟨rfl, rfl⟩ := h.of_pure
    exact ⟨rfl, rfl, trivial, .refl c _⟩
  | .sequence nodes => fun h => by
    obtain ⟨u, mid, hl, hrest⟩ := Yields.of_bind h
    obtain rfl := checkLevel_yields hl
    obtain ⟨steps, mid, hn, h⟩ := Yields.of_bind hrest
    obtain ⟨rfl, rfl⟩ := h.of_pure
    obtain ⟨hfresh, hplan, hunder, hgrown⟩ := compileNodes_yields hn
    refine ⟨⟨rfl, rfl, rfl, trivial, hfresh⟩, ?_, ⟨trivial, hunder⟩, hgrown⟩
    simp only [Step.plan, Group.fresh, Descriptor.plan, hplan]
  | .parallel branches => fun h => by
    obtain ⟨u, mid, hl, hrest⟩ := Yields.of_bind h
    obtain rfl := checkLevel_yields hl
    obtain ⟨steps, mid, hn, h⟩ := Yields.of_bind hrest
    obtain ⟨rfl, rfl⟩ := h.of_pure
    obtain ⟨hfresh, hplan, hlength, hunder, hgrown⟩ := compileBranches_yields hn
    refine ⟨⟨rfl, rfl, rfl, ?_, hfresh⟩, ?_, ⟨rfl, hunder⟩, hgrown⟩
    · show (branches.map Prod.fst).length = steps.length
      rw [List.length_map, hlength]
    · simp only [Step.plan, Group.fresh, Descriptor.plan, hplan]

theorem compileNodes_yields {path : Path} {level index : Nat} {steps : List Step}
    {shop shop' : Workshop} :
    ∀ {nodes : List Descriptor}, Yields (c.compileNodes path level index nodes) shop steps shop' →
      FreshList steps ∧ planList steps = Descriptor.planNodes shop.next nodes ∧
        UnderList c.config.parallelFailure steps ∧
        Grown c (Descriptor.refsNodes nodes) shop shop'
  | [] => fun h => by
    obtain ⟨rfl, rfl⟩ := h.of_pure
    exact ⟨trivial, rfl, trivial, .refl c _⟩
  | node :: rest => fun h => by
    obtain ⟨s, mid, hs, h⟩ := Yields.of_bind h
    obtain ⟨steps, mid', hr, h⟩ := Yields.of_bind h
    obtain ⟨rfl, rfl⟩ := h.of_pure
    have hs := compileNode_yields hs
    obtain ⟨hfresh, hplan, hunder, hgrown⟩ := compileNodes_yields hr
    refine ⟨⟨hs.fresh, hfresh⟩, ?_, ⟨hs.under, hunder⟩, hs.grown.trans hgrown⟩
    simp only [planList, Descriptor.planNodes, hs.plan, hplan, hs.grown.next,
      Descriptor.length_refs]

theorem compileBranches_yields {path : Path} {level : Nat} {steps : List Step}
    {shop shop' : Workshop} :
    ∀ {branches : List (String × Descriptor)},
      Yields (c.compileBranches path level branches) shop steps shop' →
      FreshList steps ∧
        (branches.map Prod.fst).zip (planList steps) = Descriptor.planBranches shop.next branches ∧
        steps.length = branches.length ∧ UnderList c.config.parallelFailure steps ∧
        Grown c (Descriptor.refsBranches branches) shop shop'
  | [] => fun h => by
    obtain ⟨rfl, rfl⟩ := h.of_pure
    exact ⟨trivial, rfl, rfl, trivial, .refl c _⟩
  | (key, node) :: rest => fun h => by
    obtain ⟨s, mid, hs, h⟩ := Yields.of_bind h
    obtain ⟨steps, mid', hr, h⟩ := Yields.of_bind h
    obtain ⟨rfl, rfl⟩ := h.of_pure
    have hs := compileNode_yields hs
    obtain ⟨hfresh, hplan, hlength, hunder, hgrown⟩ := compileBranches_yields hr
    refine ⟨⟨hs.fresh, hfresh⟩, ?_, congrArg Nat.succ hlength, ⟨hs.under, hunder⟩,
      hs.grown.trans hgrown⟩
    simp only [List.map_cons, planList, List.zip_cons_cons, Descriptor.planBranches, hs.plan, hplan,
      hs.grown.next, Descriptor.length_refs]

end

/-- The tree of a whole descriptor.  An action alone runs as the only step of a sequence. -/
structure Rooted (c : Compiler) (d : Descriptor) (shop : Workshop) (root : Step)
    (shop' : Workshop) : Prop where
  fresh : root.Fresh
  plan : root.plan = d.rootPlan shop.next
  group : root.isLeaf = false
  under : root.Under c.config.parallelFailure
  grown : Grown c d.refs shop shop'

theorem compileRoot_yields {d : Descriptor} {root : Step}
    (h : Yields (c.compileRoot d) shop root shop') : Rooted c d shop root shop' := by
  have single (hk : Yields (do
      c.checkLevel [] 1
      return Step.group .idle (Group.fresh .sequence) [← c.compileNode [] 1 d]) shop root shop') :
      d.kind = .action → Rooted c d shop root shop' := by
    intro haction
    obtain ⟨u, mid, hl, hrest⟩ := hk.of_bind
    obtain rfl := checkLevel_yields hl
    obtain ⟨s, mid, hs, hk⟩ := hrest.of_bind
    obtain ⟨rfl, rfl⟩ := hk.of_pure
    have hs := compileNode_yields hs
    refine ⟨⟨rfl, rfl, rfl, trivial, hs.fresh, trivial⟩, ?_, rfl, ⟨trivial, hs.under, trivial⟩,
      hs.grown⟩
    simp only [Step.plan, Group.fresh, planList, hs.plan, Descriptor.rootPlan, haction]
  have whole (hk : Yields (c.compileNode [] 1 d) shop root shop')
      (haction : d.kind ≠ .action) (hleaf : root.isLeaf = false) : Rooted c d shop root shop' :=
    have hs := compileNode_yields hk
    ⟨hs.fresh, hs.plan.trans (by unfold Descriptor.rootPlan; split <;> first | contradiction | rfl),
      hleaf, hs.under, hs.grown⟩
  cases d with
  | action ref => exact single h rfl
  | «instance» id => exact single h rfl
  | sequence nodes =>
    refine whole h (fun h => by cases h) ?_
    have := (compileNode_yields (d := .sequence nodes) h).plan
    cases root with
    | leaf => cases this
    | group => rfl
  | parallel branches =>
    refine whole h (fun h => by cases h) ?_
    have := (compileNode_yields (d := .parallel branches) h).plan
    cases root with
    | leaf => cases this
    | group => rfl

/-! ## When compiling succeeds -/

/-- The part of a compilation succeeds. -/
def Succeeds (m : CompileM α) (shop : Workshop) : Prop := ∃ a shop', Yields m shop a shop'

theorem Succeeds.pure (a : α) (shop : Workshop) : Succeeds (pure a) shop := ⟨a, shop, rfl⟩

theorem succeeds_bind : Succeeds (m >>= f) shop ↔
    ∃ a mid, Yields m shop a mid ∧ Succeeds (f a) mid := by
  constructor
  · rintro ⟨b, shop', h⟩
    obtain ⟨a, mid, hm, hf⟩ := h.of_bind
    exact ⟨a, mid, hm, b, shop', hf⟩
  · rintro ⟨a, mid, hm, b, shop', hf⟩
    refine ⟨b, shop', ?_⟩
    unfold Yields at hm hf ⊢
    simp only [ExceptT.run_bind, StateT.run_bind, hm]
    exact hf

/-- What comes after succeeds from wherever it starts or not at all. -/
theorem succeeds_bind_of {P : Prop} (h : ∀ a mid, Succeeds (f a) mid ↔ P) :
    Succeeds (m >>= f) shop ↔ Succeeds m shop ∧ P := by
  rw [succeeds_bind]
  constructor
  · rintro ⟨a, mid, hm, hf⟩
    exact ⟨⟨a, mid, hm⟩, (h a mid).1 hf⟩
  · rintro ⟨⟨a, mid, hm⟩, hp⟩
    exact ⟨a, mid, hm, (h a mid).2 hp⟩

theorem succeeds_map (g : α → β) :
    Succeeds (m >>= fun a => Pure.pure (g a)) shop ↔ Succeeds m shop := by
  rw [succeeds_bind_of fun _ _ => iff_of_true (.pure _ _) trivial, and_true]

theorem build_succeeds_iff {path : Path} {ref : ActionRef} :
    Succeeds (c.build path ref) shop ↔ ∃ action, c.Builds ref action := by
  unfold build Builds
  cases hr : c.registry.resolve ref.name with
  | none =>
    refine iff_of_false ?_ (by simp)
    rintro ⟨a, shop', h⟩
    cases h
  | some constructor =>
    dsimp only
    cases hc : constructor ref.options with
    | error e =>
      refine iff_of_false ?_ (by simp [hc])
      rintro ⟨a, shop', h⟩
      cases h
    | ok action => exact iff_of_true ⟨_, _, rfl⟩ ⟨action, constructor, rfl, hc⟩

theorem checkLevel_succeeds_iff {path : Path} {level : Nat} :
    Succeeds (c.checkLevel path level) shop ↔ level ≤ c.config.maxDepth := by
  unfold checkLevel
  split
  next hlt =>
    refine iff_of_false ?_ (Nat.not_le_of_lt hlt)
    rintro ⟨a, shop', h⟩
    cases h
  next hle => exact iff_of_true (.pure () shop) (Nat.le_of_not_lt hle)

/-- Every reference can be built. -/
def Buildable (c : Compiler) (refs : List ActionRef) : Prop :=
  ∀ ref ∈ refs, ∃ action, c.Builds ref action

theorem buildable_append {refs refs' : List ActionRef} :
    c.Buildable (refs ++ refs') ↔ c.Buildable refs ∧ c.Buildable refs' :=
  List.forall_mem_append

mutual

theorem compileNode_succeeds_iff {path : Path} {level : Nat} {shop : Workshop} :
    ∀ {d : Descriptor}, Succeeds (c.compileNode path level d) shop ↔
      (d.depth = 0 ∨ level + d.depth ≤ c.config.maxDepth + 1) ∧ c.Buildable d.refs
  | .action ref => by
    rw [compileNode, succeeds_map, build_succeeds_iff]
    simp [Descriptor.depth, Descriptor.refs, Buildable]
  | .instance id => by
    rw [compileNode]
    exact iff_of_true (.pure _ _) ⟨.inl rfl, fun _ h => by cases h⟩
  | .sequence nodes => by
    rw [compileNode, succeeds_bind_of fun _ _ => (succeeds_map _).trans compileNodes_succeeds_iff,
      checkLevel_succeeds_iff, Descriptor.refs, Descriptor.depth, ← and_assoc]
    refine and_congr_left fun _ => ?_
    omega
  | .parallel branches => by
    rw [compileNode]
    refine (succeeds_bind_of fun _ _ => (succeeds_map _).trans compileBranches_succeeds_iff).trans ?_
    rw [checkLevel_succeeds_iff, Descriptor.refs, Descriptor.depth, ← and_assoc]
    refine and_congr_left fun _ => ?_
    omega

theorem compileNodes_succeeds_iff {path : Path} {level index : Nat} {shop : Workshop} :
    ∀ {nodes : List Descriptor}, Succeeds (c.compileNodes path level index nodes) shop ↔
      (Descriptor.depthNodes nodes = 0 ∨ level + Descriptor.depthNodes nodes ≤ c.config.maxDepth) ∧
        c.Buildable (Descriptor.refsNodes nodes)
  | [] => by
    rw [compileNodes]
    exact iff_of_true (.pure _ _) ⟨.inl rfl, fun _ h => by cases h⟩
  | node :: rest => by
    rw [compileNodes, succeeds_bind_of fun _ _ => (succeeds_map _).trans compileNodes_succeeds_iff,
      compileNode_succeeds_iff, Descriptor.refsNodes, Descriptor.depthNodes, buildable_append,
      and_and_and_comm]
    refine and_congr_left fun _ => ?_
    omega

theorem compileBranches_succeeds_iff {path : Path} {level : Nat} {shop : Workshop} :
    ∀ {branches : List (String × Descriptor)},
      Succeeds (c.compileBranches path level branches) shop ↔
        (Descriptor.depthBranches branches = 0 ∨
          level + Descriptor.depthBranches branches ≤ c.config.maxDepth) ∧
        c.Buildable (Descriptor.refsBranches branches)
  | [] => by
    rw [compileBranches]
    exact iff_of_true (.pure _ _) ⟨.inl rfl, fun _ h => by cases h⟩
  | (key, node) :: rest => by
    rw [compileBranches,
      succeeds_bind_of fun _ _ => (succeeds_map _).trans compileBranches_succeeds_iff,
      compileNode_succeeds_iff, Descriptor.refsBranches, Descriptor.depthBranches, buildable_append,
      and_and_and_comm]
    refine and_congr_left fun _ => ?_
    omega

end

/-- A descriptor compiles exactly when its groups are not too deep, a lone action counting as a
group, and every reference can be built. -/
theorem compile_succeeds_iff {d : Descriptor} {e : Engine} :
    (∃ r, (c.compile d e).result = .ok r) ↔
      1 ≤ c.config.maxDepth ∧ d.depth ≤ c.config.maxDepth ∧ c.Buildable d.refs := by
  have hresult : (∃ r, (c.compile d e).result = .ok r) ↔
      Succeeds (c.compileRoot d) ⟨e.world.instances.length, []⟩ := by
    unfold compile Succeeds Yields
    rcases (c.compileRoot d).run.run ⟨e.world.instances.length, []⟩ with ⟨error | root, shop⟩
    · exact iff_of_false (by rintro ⟨r, h⟩; cases h) (by rintro ⟨a, s, h⟩; cases h)
    · exact iff_of_true ⟨_, rfl⟩ ⟨root, shop, rfl⟩
  have single (hd : d.depth = 0) : Succeeds (do
      c.checkLevel [] 1
      return Step.group .idle (Group.fresh .sequence) [← c.compileNode [] 1 d])
      ⟨e.world.instances.length, []⟩ ↔
        1 ≤ c.config.maxDepth ∧ d.depth ≤ c.config.maxDepth ∧ c.Buildable d.refs := by
    refine (succeeds_bind_of fun _ _ => (succeeds_map _).trans compileNode_succeeds_iff).trans ?_
    rw [checkLevel_succeeds_iff, ← and_assoc, ← and_assoc]
    refine and_congr_left fun _ => ?_
    omega
  have whole (hd : d.depth ≠ 0) : Succeeds (c.compileNode [] 1 d) ⟨e.world.instances.length, []⟩ ↔
      1 ≤ c.config.maxDepth ∧ d.depth ≤ c.config.maxDepth ∧ c.Buildable d.refs := by
    rw [compileNode_succeeds_iff, ← and_assoc]
    refine and_congr_left fun _ => ?_
    omega
  rw [hresult]
  cases d with
  | action ref => exact single rfl
  | «instance» id => exact single rfl
  | sequence nodes => exact whole (Nat.succ_ne_zero _)
  | parallel branches => exact whole (Nat.succ_ne_zero _)

/-- What the constructor calls built is added to the world, and the bus gets more holders. -/
theorem addActions_eq (calls : List Construction) (w : World) :
    ∃ holders, addActions calls w = w.withActions (built calls) holders := by
  unfold addActions
  induction calls generalizing w with
  | nil => exact ⟨w.busHolders, by simp [built, World.withActions]⟩
  | cons call rest ih =>
    rw [List.foldl_cons]
    cases hc : call.result with
    | ok action =>
      have hadd : (w.addAction action).1 = w.withActions [action] (w.addAction action).1.busHolders :=
        rfl
      obtain ⟨holders, h⟩ := ih (w.addAction action).1
      refine ⟨holders, h.trans ?_⟩
      rw [hadd, World.withActions_withActions]
      simp [built, hc, Except.toOption]
    | error e =>
      obtain ⟨holders, h⟩ := ih w
      exact ⟨holders, h.trans (by simp [built, hc, Except.toOption])⟩

/-- Every action that was built becomes an instance that nobody has begun. -/
theorem addActions_instances (calls : List Construction) (w : World) :
    (addActions calls w).instances =
      w.instances ++ (built calls).map fun action => ⟨action, false, none, 1⟩ := by
  obtain ⟨holders, h⟩ := addActions_eq calls w
  rw [h, World.withActions]

theorem actions_addActions (calls : List Construction) (w : World) :
    (addActions calls w).actions = w.actions ++ built calls := by
  obtain ⟨holders, h⟩ := addActions_eq calls w
  rw [h, World.actions_withActions]

/-- Adding actions changes nothing else that a playlist could see. -/
theorem addActions_frame (calls : List Construction) (w : World) :
    (addActions calls w).begun = w.begun ∧ (addActions calls w).running = w.running ∧
      ∀ t, w.Due t → (addActions calls w).Due t := by
  obtain ⟨holders, h⟩ := addActions_eq calls w
  rw [h]
  exact ⟨rfl, rfl, fun _ hdue => hdue⟩

theorem compile_ok {d : Descriptor} {e e' : Engine} {id : PlaylistId}
    (h : (c.compile d e).result = .ok (e', id)) :
    ∃ root shop, Yields (c.compileRoot d) ⟨e.world.instances.length, []⟩ root shop ∧
      id = e.playlists.length ∧
      e' = ⟨addActions shop.calls e.world, e.playlists ++ [⟨d, root, 1⟩]⟩ := by
  unfold compile at h
  rcases hr : (c.compileRoot d).run.run ⟨e.world.instances.length, []⟩ with ⟨error | root, shop⟩
  · rw [hr] at h
    cases h
  · rw [hr] at h
    cases h
    exact ⟨root, shop, hr, rfl, rfl⟩

theorem Rooted.leaves {d : Descriptor} {root : Step} (h : Rooted c d shop root shop') :
    root.leaves = (d.plan shop.next).leaves := by
  rw [← h.fresh.plan_leaves]
  rw [h.plan]
  rcases d.rootPlan_eq_or shop.next with h | h
  · rw [h]
  · rw [h, Plan.leaves, Plan.leavesList, Plan.leavesList, List.append_nil]

end Compiler

end Rundown
