import Rundown.Compiler
import Rundown.Proofs.Json.Object

/-!
# Plans

A plan is what a playlist does, apart from how far it has come: a tree of leaves, sequences and
parallel groups.  It does not say what happens when a branch fails.

Given what the completions of the leaves have settled with, a plan has a meaning that knows nothing
of tasks and looks: `Plan.value?` is the value it ends with when nothing fails on the way, and
`Plan.begins` lists the leaves that begin, each with its input.  `Descriptor.plan` is the plan of a
descriptor, `Step.plan` that of a compiled step.
-/

namespace Rundown

/-- Leaves, steps one after another, and branches that start together. -/
inductive Plan where
  | leaf (action : ActionId)
  | sequence (plans : List Plan)
  | parallel (branches : List (String × Plan))

/-- What every completion has settled with so far. -/
abbrev Settlements := ActionId → Option Settlement

namespace Plan

mutual

/-- The actions of the leaves, from left to right. -/
def leaves : Plan → List ActionId
  | leaf a => [a]
  | sequence plans => leavesList plans
  | parallel branches => leavesBranches branches

def leavesList : List Plan → List ActionId
  | [] => []
  | p :: rest => p.leaves ++ leavesList rest

def leavesBranches : List (String × Plan) → List ActionId
  | [] => []
  | (_, p) :: rest => p.leaves ++ leavesBranches rest

end

mutual

/-- The value with which the plan ends, unless it still waits for a leaf or one has failed.  A leaf
ends with the value it completes with, a sequence with the value of its last step, and a parallel
group with the object of its branches' values. -/
def value? (settled : Settlements) : Plan → Json → Option Json
  | leaf a, _ => (settled a).bind Except.toOption
  | sequence plans, input => sequenceValue? settled plans input
  | parallel branches, input => (branchValues? settled branches input).map Json.objectOf

/-- The value of steps, each of which gets the value of the one before. -/
def sequenceValue? (settled : Settlements) : List Plan → Json → Option Json
  | [], input => some input
  | p :: rest, input => (p.value? settled input).bind fun v => sequenceValue? settled rest v

/-- The values of branches, all of which get the same input, under their keys. -/
def branchValues? (settled : Settlements) :
    List (String × Plan) → Json → Option (List (String × Json))
  | [], _ => some []
  | (key, p) :: rest, input =>
    (p.value? settled input).bind fun v =>
      (branchValues? settled rest input).map fun members => (key, v) :: members

end

mutual

/-- The leaves that begin, each with its input. -/
def begins (settled : Settlements) : Plan → Json → List (ActionId × Json)
  | leaf a, input => [(a, input)]
  | sequence plans, input => sequenceBegins settled plans input
  | parallel branches, input => branchBegins settled branches input

/-- The begins below steps.  A step is entered when the one before has succeeded. -/
def sequenceBegins (settled : Settlements) : List Plan → Json → List (ActionId × Json)
  | [], _ => []
  | p :: rest, input =>
    p.begins settled input ++
      match p.value? settled input with
      | some v => sequenceBegins settled rest v
      | none => []

/-- The begins below branches.  Every branch is entered. -/
def branchBegins (settled : Settlements) :
    List (String × Plan) → Json → List (ActionId × Json)
  | [], _ => []
  | (_, p) :: rest, input => p.begins settled input ++ branchBegins settled rest input

end

end Plan

/-! ## The plan of a descriptor -/

namespace Descriptor

mutual

/-- Number of actions that have to be built. -/
def references : Descriptor → Nat
  | action _ => 1
  | .instance _ => 0
  | sequence nodes => referencesNodes nodes
  | parallel branches => referencesBranches branches

def referencesNodes : List Descriptor → Nat
  | [] => 0
  | node :: rest => node.references + referencesNodes rest

def referencesBranches : List (String × Descriptor) → Nat
  | [] => 0
  | (_, node) :: rest => node.references + referencesBranches rest

end

mutual

/-- The actions that have to be built, in document order. -/
def refs : Descriptor → List ActionRef
  | action ref => [ref]
  | .instance _ => []
  | sequence nodes => refsNodes nodes
  | parallel branches => refsBranches branches

def refsNodes : List Descriptor → List ActionRef
  | [] => []
  | node :: rest => node.refs ++ refsNodes rest

def refsBranches : List (String × Descriptor) → List ActionRef
  | [] => []
  | (_, node) :: rest => node.refs ++ refsBranches rest

end

mutual

/-- The plan of a descriptor whose references are built in document order, the first of them as the
action `next`. -/
def plan (next : ActionId) : Descriptor → Plan
  | action _ => .leaf next
  | .instance a => .leaf a
  | sequence nodes => .sequence (planNodes next nodes)
  | parallel branches => .parallel (planBranches next branches)

def planNodes (next : ActionId) : List Descriptor → List Plan
  | [] => []
  | node :: rest => node.plan next :: planNodes (next + node.references) rest

def planBranches (next : ActionId) : List (String × Descriptor) → List (String × Plan)
  | [] => []
  | (key, node) :: rest => (key, node.plan next) :: planBranches (next + node.references) rest

end

/-- What is compiled for a whole descriptor: an action alone runs as the only step of a sequence. -/
def rootPlan (next : ActionId) (d : Descriptor) : Plan :=
  match d.kind with
  | .action => .sequence [d.plan next]
  | _ => d.plan next

theorem rootPlan_eq_or (next : ActionId) (d : Descriptor) :
    d.rootPlan next = d.plan next ∨ d.rootPlan next = .sequence [d.plan next] := by
  cases d <;> first | exact .inl rfl | exact .inr rfl

mutual

/-- The actions that the descriptor holds ready built. -/
def instances : Descriptor → List ActionId
  | action _ => []
  | .instance a => [a]
  | sequence nodes => instancesNodes nodes
  | parallel branches => instancesBranches branches

def instancesNodes : List Descriptor → List ActionId
  | [] => []
  | node :: rest => node.instances ++ instancesNodes rest

def instancesBranches : List (String × Descriptor) → List ActionId
  | [] => []
  | (_, node) :: rest => node.instances ++ instancesBranches rest

end

mutual

/-- Induction over the tree of nodes. -/
@[elab_as_elim]
theorem induction {P : Descriptor → Prop} (action : ∀ ref, P (.action ref))
    («instance» : ∀ a, P (.instance a))
    (sequence : ∀ nodes, (∀ d ∈ nodes, P d) → P (.sequence nodes))
    (parallel : ∀ branches, (∀ b ∈ branches, P b.2) → P (.parallel branches)) : ∀ d, P d
  | .action ref => action ref
  | .instance a => «instance» a
  | .sequence nodes => sequence nodes (inductionNodes action «instance» sequence parallel nodes)
  | .parallel branches =>
    parallel branches (inductionBranches action «instance» sequence parallel branches)

theorem inductionNodes {P : Descriptor → Prop} (action : ∀ ref, P (.action ref))
    («instance» : ∀ a, P (.instance a))
    (sequence : ∀ nodes, (∀ d ∈ nodes, P d) → P (.sequence nodes))
    (parallel : ∀ branches, (∀ b ∈ branches, P b.2) → P (.parallel branches)) :
    ∀ nodes : List Descriptor, ∀ d ∈ nodes, P d
  | [], _, h => by cases h
  | node :: rest, d, h => (List.mem_cons.1 h).elim
      (fun hd => hd ▸ induction action «instance» sequence parallel node)
      (inductionNodes action «instance» sequence parallel rest d)

theorem inductionBranches {P : Descriptor → Prop} (action : ∀ ref, P (.action ref))
    («instance» : ∀ a, P (.instance a))
    (sequence : ∀ nodes, (∀ d ∈ nodes, P d) → P (.sequence nodes))
    (parallel : ∀ branches, (∀ b ∈ branches, P b.2) → P (.parallel branches)) :
    ∀ branches : List (String × Descriptor), ∀ b ∈ branches, P b.2
  | [], _, h => by cases h
  | (_, node) :: rest, b, h => (List.mem_cons.1 h).elim
      (fun hb => hb ▸ induction action «instance» sequence parallel node)
      (inductionBranches action «instance» sequence parallel rest b)

end

theorem length_refs {d : Descriptor} : d.refs.length = d.references := by
  induction d using Descriptor.induction with
  | action ref => rfl
  | «instance» a => rfl
  | sequence nodes ih =>
    rw [refs, references]
    induction nodes with
    | nil => rfl
    | cons node rest ihrest =>
      rw [refsNodes, referencesNodes, List.length_append, ih node List.mem_cons_self,
        ihrest fun d hd => ih d (List.mem_cons_of_mem _ hd)]
  | parallel branches ih =>
    rw [refs, references]
    induction branches with
    | nil => rfl
    | cons b rest ihrest =>
      obtain ⟨k, node⟩ := b
      rw [refsBranches, referencesBranches, List.length_append,
        ih (k, node) List.mem_cons_self, ihrest fun d hd => ih d (List.mem_cons_of_mem _ hd)]

variable {a : Nat}

mutual

/-- A leaf of the plan is an action that existed or one of those that are built. -/
theorem plan_leaves {next : Nat} :
    ∀ {d : Descriptor}, a ∈ (d.plan next).leaves →
      a ∈ d.instances ∨ (next ≤ a ∧ a < next + d.references)
  | .action ref => fun h => by
    obtain rfl := List.mem_singleton.1 h
    exact .inr ⟨Nat.le_refl _, Nat.lt_succ_self _⟩
  | .instance id => fun h => .inl h
  | .sequence nodes => fun h => planNodes_leaves h
  | .parallel branches => fun h => planBranches_leaves h

theorem planNodes_leaves {next : Nat} :
    ∀ {nodes : List Descriptor}, a ∈ Plan.leavesList (planNodes next nodes) →
      a ∈ instancesNodes nodes ∨ (next ≤ a ∧ a < next + referencesNodes nodes)
  | [] => fun h => by cases h
  | node :: rest => fun h => by
    rw [instancesNodes, referencesNodes, List.mem_append]
    rcases List.mem_append.1 h with h | h
    · rcases plan_leaves h with h | h
      · exact .inl (.inl h)
      · exact .inr (by omega)
    · rcases planNodes_leaves h with h | h
      · exact .inl (.inr h)
      · exact .inr (by omega)

theorem planBranches_leaves {next : Nat} :
    ∀ {branches : List (String × Descriptor)},
      a ∈ Plan.leavesBranches (planBranches next branches) →
      a ∈ instancesBranches branches ∨ (next ≤ a ∧ a < next + referencesBranches branches)
  | [] => fun h => by cases h
  | (key, node) :: rest => fun h => by
    rw [instancesBranches, referencesBranches, List.mem_append]
    rcases List.mem_append.1 h with h | h
    · rcases plan_leaves h with h | h
      · exact .inl (.inl h)
      · exact .inr (by omega)
    · rcases planBranches_leaves h with h | h
      · exact .inl (.inr h)
      · exact .inr (by omega)

end

end Descriptor

end Rundown
