import Rundown.Proofs.Compiler.FirstFault
import Rundown.Proofs.Playlist.Counterpart

/-!
# Compiling under other numbers

The numbers that a compilation gives to the actions it builds depend on how many there were before,
and nothing else does: two compilations of one descriptor lead to the same tree but for these
numbers (`Compiler.compileRoot_twins`).
-/

namespace Rundown

namespace Compiler

open Step

variable {c : Compiler} {r : ActionId → ActionId → Prop} {shop shop' shop₁ shop₁' : Workshop}

/-- Numbers given out by the two workshops from now on are counterparts. -/
def Aligned (r : ActionId → ActionId → Prop) (shop shop' : Workshop) : Prop :=
  ∀ i, r (shop.next + i) (shop'.next + i)

theorem Aligned.grown (h : Aligned r shop shop') {refs : List ActionRef}
    (hgrown : Grown c refs shop shop₁) (hgrown' : Grown c refs shop' shop₁') :
    Aligned r shop₁ shop₁' := by
  intro i
  rw [hgrown.next, hgrown'.next, Nat.add_assoc, Nat.add_assoc]
  exact h (refs.length + i)

mutual

theorem compileNode_twins {path : Path} {level : Nat} {s s' : Step}
    {shop shop' shop₁ shop₁' : Workshop} (hr : Aligned r shop shop') :
    ∀ {d : Descriptor}, (∀ a ∈ d.instances, r a a) →
      Yields (c.compileNode path level d) shop s shop₁ →
      Yields (c.compileNode path level d) shop' s' shop₁' → Twin r s s'
  | .action ref => fun _ h h' => by
    obtain ⟨id, mid, hb, h⟩ := Yields.of_bind h
    obtain ⟨id', mid', hb', h'⟩ := Yields.of_bind h'
    obtain ⟨rfl, rfl⟩ := h.of_pure
    obtain ⟨rfl, rfl⟩ := h'.of_pure
    obtain ⟨rfl, -⟩ := build_yields hb
    obtain ⟨rfl, -⟩ := build_yields hb'
    exact ⟨rfl, hr 0⟩
  | .instance id => fun hi h h' => by
    obtain ⟨rfl, rfl⟩ := h.of_pure
    obtain ⟨rfl, rfl⟩ := h'.of_pure
    exact ⟨rfl, hi id (List.mem_singleton_self id)⟩
  | .sequence nodes => fun hi h h' => by
    obtain ⟨u, mid, hl, hrest⟩ := Yields.of_bind h
    obtain ⟨u', mid', hl', hrest'⟩ := Yields.of_bind h'
    obtain rfl := checkLevel_yields hl
    obtain rfl := checkLevel_yields hl'
    obtain ⟨steps, mid, hn, h⟩ := Yields.of_bind hrest
    obtain ⟨steps', mid', hn', h'⟩ := Yields.of_bind hrest'
    obtain ⟨rfl, rfl⟩ := h.of_pure
    obtain ⟨rfl, rfl⟩ := h'.of_pure
    exact twin_group.2 ⟨rfl, rfl, compileNodes_twins hr hi hn hn'⟩
  | .parallel branches => fun hi h h' => by
    obtain ⟨u, mid, hl, hrest⟩ := Yields.of_bind h
    obtain ⟨u', mid', hl', hrest'⟩ := Yields.of_bind h'
    obtain rfl := checkLevel_yields hl
    obtain rfl := checkLevel_yields hl'
    obtain ⟨steps, mid, hn, h⟩ := Yields.of_bind hrest
    obtain ⟨steps', mid', hn', h'⟩ := Yields.of_bind hrest'
    obtain ⟨rfl, rfl⟩ := h.of_pure
    obtain ⟨rfl, rfl⟩ := h'.of_pure
    exact twin_group.2 ⟨rfl, rfl, compileBranches_twins hr hi hn hn'⟩

theorem compileNodes_twins {path : Path} {level index : Nat} {steps steps' : List Step}
    {shop shop' shop₁ shop₁' : Workshop} (hr : Aligned r shop shop') :
    ∀ {nodes : List Descriptor}, (∀ a ∈ Descriptor.instancesNodes nodes, r a a) →
      Yields (c.compileNodes path level index nodes) shop steps shop₁ →
      Yields (c.compileNodes path level index nodes) shop' steps' shop₁' →
      List.Forall₂ (Twin r) steps steps'
  | [] => fun _ h h' => by
    obtain ⟨rfl, rfl⟩ := h.of_pure
    obtain ⟨rfl, rfl⟩ := h'.of_pure
    exact .nil
  | node :: rest => fun hi h h' => by
    rw [Descriptor.instancesNodes, List.forall_mem_append] at hi
    obtain ⟨s, mid, hs, h⟩ := Yields.of_bind h
    obtain ⟨s', mid', hs', h'⟩ := Yields.of_bind h'
    obtain ⟨steps, mid₁, hn, h⟩ := Yields.of_bind h
    obtain ⟨steps', mid₁', hn', h'⟩ := Yields.of_bind h'
    obtain ⟨rfl, rfl⟩ := h.of_pure
    obtain ⟨rfl, rfl⟩ := h'.of_pure
    have hmid := hr.grown (compileNode_yields hs).grown (compileNode_yields hs').grown
    exact .cons (compileNode_twins hr hi.1 hs hs') (compileNodes_twins hmid hi.2 hn hn')

theorem compileBranches_twins {path : Path} {level : Nat} {steps steps' : List Step}
    {shop shop' shop₁ shop₁' : Workshop} (hr : Aligned r shop shop') :
    ∀ {branches : List (String × Descriptor)},
      (∀ a ∈ Descriptor.instancesBranches branches, r a a) →
      Yields (c.compileBranches path level branches) shop steps shop₁ →
      Yields (c.compileBranches path level branches) shop' steps' shop₁' →
      List.Forall₂ (Twin r) steps steps'
  | [] => fun _ h h' => by
    obtain ⟨rfl, rfl⟩ := h.of_pure
    obtain ⟨rfl, rfl⟩ := h'.of_pure
    exact .nil
  | (key, node) :: rest => fun hi h h' => by
    rw [Descriptor.instancesBranches, List.forall_mem_append] at hi
    obtain ⟨s, mid, hs, h⟩ := Yields.of_bind h
    obtain ⟨s', mid', hs', h'⟩ := Yields.of_bind h'
    obtain ⟨steps, mid₁, hn, h⟩ := Yields.of_bind h
    obtain ⟨steps', mid₁', hn', h'⟩ := Yields.of_bind h'
    obtain ⟨rfl, rfl⟩ := h.of_pure
    obtain ⟨rfl, rfl⟩ := h'.of_pure
    have hmid := hr.grown (compileNode_yields hs).grown (compileNode_yields hs').grown
    exact .cons (compileNode_twins hr hi.1 hs hs') (compileBranches_twins hmid hi.2 hn hn')

end

/-- Two compilations of a descriptor differ in the numbers of the actions built. -/
theorem compileRoot_twins {d : Descriptor} {root root' : Step} (hr : Aligned r shop shop')
    (hi : ∀ a ∈ d.instances, r a a) (h : Yields (c.compileRoot d) shop root shop₁)
    (h' : Yields (c.compileRoot d) shop' root' shop₁') : Twin r root root' := by
  have single (hk : Yields (do
        c.checkLevel [] 1
        return Step.group .idle (Group.fresh .sequence) [← c.compileNode [] 1 d]) shop root shop₁)
      (hk' : Yields (do
        c.checkLevel [] 1
        return Step.group .idle (Group.fresh .sequence) [← c.compileNode [] 1 d])
          shop' root' shop₁') : Twin r root root' := by
    obtain ⟨u, mid, hl, hrest⟩ := hk.of_bind
    obtain ⟨u', mid', hl', hrest'⟩ := hk'.of_bind
    obtain rfl := checkLevel_yields hl
    obtain rfl := checkLevel_yields hl'
    obtain ⟨s, mid, hs, hk⟩ := hrest.of_bind
    obtain ⟨s', mid', hs', hk'⟩ := hrest'.of_bind
    obtain ⟨rfl, rfl⟩ := hk.of_pure
    obtain ⟨rfl, rfl⟩ := hk'.of_pure
    exact twin_group.2 ⟨rfl, rfl, .cons (compileNode_twins hr hi hs hs') .nil⟩
  cases d with
  | action ref => exact single h h'
  | «instance» id => exact single h h'
  | sequence nodes => exact compileNode_twins (d := .sequence nodes) hr hi h h'
  | parallel branches => exact compileNode_twins (d := .parallel branches) hr hi h h'

/-- The constructor calls depend on the descriptor only. -/
theorem calls_of_yields {d : Descriptor} {n : ActionId} {root : Step}
    (h : Yields (c.compileRoot d) ⟨n, []⟩ root shop) : shop.calls = c.callsFor d.visits := by
  by_cases hdepth : c.config.maxDepth = 0
  · cases (compileRoot_refused hdepth _).symm.trans h
  · have hcalls := (compileRoot_surveys (d := d) hdepth ⟨n, []⟩).1
    rwa [show (c.compileRoot d).run.run ⟨n, []⟩ = (.ok root, shop) from h] at hcalls

end Compiler

end Rundown
