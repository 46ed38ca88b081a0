import Rundown.Descriptor.Basic

/-!
# The nodes of a descriptor in order

`Descriptor.visits` lists the nodes of a descriptor in the order of the document: a node before what
is below it, the nodes of a sequence by their indices, and the branches of a parallel group in the
order in which the descriptor holds them.  Every node comes with the path that leads to it.
-/

namespace Rundown

/-- A node and the path that leads to it. -/
structure Visit where
  path : Path
  node : Descriptor

namespace Visit

/-- The level of the node if it is a group.  Whatever stands above a node is a group, so this counts
the groups above it and one more: the root has level 1. -/
def level (v : Visit) : Nat := v.path.length + 1

/-- Whether the node is a group at a level beyond the limit, or the root where no level is
allowed. -/
def TooDeep (limit : Nat) (v : Visit) : Prop :=
  (v.node.kind ≠ .action ∧ limit < v.level) ∨ (v.path = [] ∧ limit = 0)

instance (limit : Nat) (v : Visit) : Decidable (v.TooDeep limit) :=
  inferInstanceAs
    (Decidable ((v.node.kind ≠ .action ∧ limit < v.level) ∨ (v.path = [] ∧ limit = 0)))

variable {limit : Nat} {path : Path} {d : Descriptor}

theorem tooDeep_group (h : d.kind ≠ .action) :
    TooDeep limit ⟨path, d⟩ ↔ limit < path.length + 1 := by
  constructor
  · rintro (⟨-, hlevel⟩ | ⟨hroot, hlimit⟩)
    · exact hlevel
    · omega
  · intro hlevel
    exact .inl ⟨h, hlevel⟩

theorem tooDeep_action (h : d.kind = .action) :
    TooDeep limit ⟨path, d⟩ ↔ path = [] ∧ limit = 0 := by
  constructor
  · rintro (⟨hkind, -⟩ | hroot)
    · exact absurd h hkind
    · exact hroot
  · exact .inr

end Visit

namespace Descriptor

mutual

/-- The nodes from the one at `path` down. -/
def visitsAt (path : Path) : Descriptor → List Visit
  | action ref => [⟨path, action ref⟩]
  | .instance a => [⟨path, .instance a⟩]
  | sequence nodes => ⟨path, sequence nodes⟩ :: visitsNodes path 0 nodes
  | parallel branches => ⟨path, parallel branches⟩ :: visitsBranches path branches

/-- The nodes of the sequence at `path` with what is below them, from the given index on. -/
def visitsNodes (path : Path) (index : Nat) : List Descriptor → List Visit
  | [] => []
  | node :: rest => node.visitsAt (path ++ [.index index]) ++ visitsNodes path (index + 1) rest

def visitsBranches (path : Path) : List (String × Descriptor) → List Visit
  | [] => []
  | (key, node) :: rest => node.visitsAt (path ++ [.key key]) ++ visitsBranches path rest

end

/-- All nodes of a descriptor. -/
def visits (d : Descriptor) : List Visit := d.visitsAt []

/-- An action at the root is the only node. -/
theorem visits_action {d : Descriptor} (h : d.kind = .action) : d.visits = [⟨[], d⟩] := by
  cases d <;> first | rfl | cases h

/-- The root is visited first. -/
theorem exists_visits_eq (d : Descriptor) : ∃ below, d.visits = ⟨[], d⟩ :: below := by
  cases d <;> exact ⟨_, rfl⟩

end Descriptor

end Rundown
