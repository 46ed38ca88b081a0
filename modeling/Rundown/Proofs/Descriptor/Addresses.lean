import Rundown.Proofs.Descriptor.FirstOffence
import Rundown.Proofs.Descriptor.PathText
import Rundown.Proofs.Descriptor.Rendering
import Rundown.Proofs.Descriptor.Visits

/-!
# The addresses of nodes

Where no group has two branches with one key, every node of a descriptor is visited at an address of
its own (`Descriptor.nodup_paths`).  A descriptor that has been read from a value has its nodes
where the value has them, and each of them is what the value at its address is read as
(`Descriptor.readFrom_of_ofJson`).

`Descriptor.keys` and `Json.keys` list the keys of all groups.  If they are plain, so are the
addresses of all nodes.
-/

namespace Rundown

namespace Descriptor

variable {d child child' : Descriptor} {nodes : List Descriptor}
  {branches : List (String × Descriptor)} {path p : Path} {s : Segment} {w : Visit} {key : String}

mutual

/-- The keys of the branches of all parallel groups. -/
def keys : Descriptor → List String
  | action _ | .instance _ => []
  | sequence nodes => keysNodes nodes
  | parallel branches => branches.map Prod.fst ++ keysBranches branches

def keysNodes : List Descriptor → List String
  | [] => []
  | node :: rest => node.keys ++ keysNodes rest

def keysBranches : List (String × Descriptor) → List String
  | [] => []
  | (_, node) :: rest => node.keys ++ keysBranches rest

end

theorem mem_keysNodes : key ∈ keysNodes nodes ↔ ∃ node ∈ nodes, key ∈ node.keys := by
  induction nodes with
  | nil => simp [keysNodes]
  | cons node rest ih => simp [keysNodes, ih]

theorem mem_keysBranches : key ∈ keysBranches branches ↔ ∃ b ∈ branches, key ∈ b.2.keys := by
  induction branches with
  | nil => simp [keysBranches]
  | cons b rest ih =>
    obtain ⟨k, node⟩ := b
    simp [keysBranches, ih]

/-! ## One step down -/

/-- The node `child` stands directly below a group, one step down. -/
inductive HasChild : Descriptor → Segment → Descriptor → Prop
  | node {nodes : List Descriptor} {i : Nat} {child : Descriptor} (h : nodes[i]? = some child) :
    HasChild (sequence nodes) (.index i) child
  | branch {branches : List (String × Descriptor)} {key : String} {child : Descriptor}
    (h : (key, child) ∈ branches) : HasChild (parallel branches) (.key key) child

/-- Induction over the tree, for all children at once. -/
theorem induction_children {P : Descriptor → Prop}
    (h : ∀ d, (∀ s child, d.HasChild s child → P child) → P d) (d : Descriptor) : P d := by
  induction d using Descriptor.induction with
  | action ref => exact h _ nofun
  | «instance» a => exact h _ nofun
  | sequence nodes ih =>
    refine h _ fun s child hchild => ?_
    cases hchild with
    | node hi => exact ih child (List.mem_of_getElem? hi)
  | parallel branches ih =>
    refine h _ fun s child hchild => ?_
    cases hchild with
    | branch hb => exact ih _ hb

theorem HasChild.key_mem (h : d.HasChild (.key key) child) : key ∈ d.keys := by
  cases h with
  | branch hb => exact List.mem_append_left _ (List.mem_map_of_mem hb)

theorem HasChild.keys_subset (h : d.HasChild s child) : child.keys ⊆ d.keys := by
  intro key hkey
  cases h with
  | node hi => exact mem_keysNodes.2 ⟨child, List.mem_of_getElem? hi, hkey⟩
  | branch hb => exact List.mem_append_right _ (mem_keysBranches.2 ⟨_, hb, hkey⟩)

/-! ## Visits by their addresses -/

theorem mem_visitsNodes {index : Nat} : w ∈ visitsNodes path index nodes ↔
    ∃ (i : Nat) (node : Descriptor), nodes[i]? = some node ∧
      w ∈ node.visitsAt (path ++ [.index (index + i)]) := by
  induction nodes generalizing index with
  | nil => simp [visitsNodes]
  | cons node rest ih =>
    rw [visitsNodes, List.mem_append, ih]
    constructor
    · rintro (hw | ⟨i, node', hi, hw⟩)
      · exact ⟨0, node, rfl, hw⟩
      · exact ⟨i + 1, node', hi, by rwa [Nat.add_right_comm] at hw⟩
    · rintro ⟨i, node', hi, hw⟩
      cases i with
      | zero =>
        cases hi
        exact .inl hw
      | succ i => exact .inr ⟨i, node', hi, by rwa [Nat.add_right_comm]⟩

theorem mem_visitsBranches : w ∈ visitsBranches path branches ↔
    ∃ b ∈ branches, w ∈ b.2.visitsAt (path ++ [.key b.1]) := by
  induction branches with
  | nil => simp [visitsBranches]
  | cons b rest ih =>
    obtain ⟨k, node⟩ := b
    rw [visitsBranches, List.mem_append, ih, List.exists_mem_cons_iff]

/-- The node itself is visited, and whatever is below its children. -/
theorem mem_visitsAt : w ∈ d.visitsAt path ↔
    w = ⟨path, d⟩ ∨ ∃ s child, d.HasChild s child ∧ w ∈ child.visitsAt (path ++ [s]) := by
  cases d with
  | action ref =>
    rw [visitsAt, List.mem_singleton, or_iff_left]
    rintro ⟨s, child, ⟨⟩, -⟩
  | «instance» a =>
    rw [visitsAt, List.mem_singleton, or_iff_left]
    rintro ⟨s, child, ⟨⟩, -⟩
  | sequence nodes =>
    rw [visitsAt, List.mem_cons, mem_visitsNodes]
    refine or_congr_right ⟨?_, ?_⟩
    · rintro ⟨i, child, hi, hw⟩
      rw [Nat.zero_add] at hw
      exact ⟨_, child, .node hi, hw⟩
    · rintro ⟨s, child, hchild, hw⟩
      cases hchild with
      | node hi => exact ⟨_, child, hi, by rwa [Nat.zero_add]⟩
  | parallel branches =>
    rw [visitsAt, List.mem_cons, mem_visitsBranches]
    refine or_congr_right ⟨?_, ?_⟩
    · rintro ⟨⟨key, child⟩, hb, hw⟩
      exact ⟨_, child, .branch hb, hw⟩
    · rintro ⟨s, child, hchild, hw⟩
      cases hchild with
      | branch hb => exact ⟨_, hb, hw⟩

/-- Whatever is visited below an address has an address below it, and the keys on the way there are
keys of groups. -/
theorem exists_path_eq (h : w ∈ d.visitsAt path) :
    ∃ q, w.path = path ++ q ∧ ∀ key, .key key ∈ q → key ∈ d.keys := by
  induction d using induction_children generalizing path with
  | h d ih =>
    rcases mem_visitsAt.1 h with rfl | ⟨s, child, hchild, hw⟩
    · exact ⟨[], (List.append_nil _).symm, nofun⟩
    · obtain ⟨q, hq, hkeys⟩ := ih s child hchild hw
      refine ⟨s :: q, by rw [hq, ← List.append_cons], fun key hkey => ?_⟩
      rcases List.mem_cons.1 hkey with rfl | hkey
      · exact hchild.key_mem
      · exact hchild.keys_subset (hkeys key hkey)

theorem plain_of_mem_visits (hkeys : ∀ key ∈ d.keys, (Segment.key key).Plain) (h : w ∈ d.visits) :
    w.path.Plain := by
  obtain ⟨q, hq, hmem⟩ := exists_path_eq h
  rw [hq]
  exact Path.plain_of_keys fun key hkey => hkeys key (hmem key hkey)

theorem exists_path_eq_cons (h : w ∈ child.visitsAt (path ++ [s])) :
    ∃ q, w.path = path ++ s :: q := by
  obtain ⟨q, hq, -⟩ := exists_path_eq h
  exact ⟨q, by rw [hq, ← List.append_cons]⟩

/-- What is visited below different steps has different addresses. -/
theorem path_ne {s' : Segment} {w' : Visit} (hs : s ≠ s') (h : w ∈ child.visitsAt (path ++ [s]))
    (h' : w' ∈ child'.visitsAt (path ++ [s'])) : w.path ≠ w'.path := by
  obtain ⟨q, hq⟩ := exists_path_eq_cons h
  obtain ⟨q', hq'⟩ := exists_path_eq_cons h'
  rw [hq, hq']
  exact fun heq => hs (List.cons.inj (List.append_cancel_left heq)).1

theorem path_ne_self (h : w ∈ child.visitsAt (path ++ [s])) : path ≠ w.path := by
  obtain ⟨q, hq⟩ := exists_path_eq_cons h
  rw [hq]
  exact fun heq => List.cons_ne_nil s q (List.self_eq_append_right.1 heq)

theorem nodup_pathsNodes
    (h : ∀ node ∈ nodes, ∀ path, ((node.visitsAt path).map Visit.path).Nodup) (index : Nat) :
    ((visitsNodes path index nodes).map Visit.path).Nodup := by
  induction nodes generalizing index with
  | nil => exact List.nodup_nil
  | cons node rest ih =>
    obtain ⟨hnode, hrest⟩ := List.forall_mem_cons.1 h
    rw [visitsNodes, List.map_append, List.nodup_append]
    refine ⟨hnode _, ih hrest _, ?_⟩
    simp only [List.forall_mem_map]
    intro w hw w' hw'
    obtain ⟨i, node', -, hw'⟩ := mem_visitsNodes.1 hw'
    exact path_ne (fun hs => by have := Segment.index.inj hs; omega) hw hw'

theorem nodup_pathsBranches
    (h : ∀ b ∈ branches, ∀ path, ((b.2.visitsAt path).map Visit.path).Nodup)
    (hkeys : (branches.map Prod.fst).Nodup) :
    ((visitsBranches path branches).map Visit.path).Nodup := by
  induction branches with
  | nil => exact List.nodup_nil
  | cons b rest ih =>
    obtain ⟨key, node⟩ := b
    obtain ⟨hnode, hrest⟩ := List.forall_mem_cons.1 h
    obtain ⟨hkey, hkeys⟩ := List.nodup_cons.1 hkeys
    rw [visitsBranches, List.map_append, List.nodup_append]
    refine ⟨hnode _, ih hrest hkeys, ?_⟩
    simp only [List.forall_mem_map]
    intro w hw w' hw'
    obtain ⟨b, hb, hw'⟩ := mem_visitsBranches.1 hw'
    exact path_ne (fun hs => hkey (List.mem_map.2 ⟨b, hb, (Segment.key.inj hs).symm⟩)) hw hw'

/-- Every node has an address of its own. -/
theorem nodup_paths (h : d.Keyed) (path : Path) :
    ((d.visitsAt path).map Visit.path).Nodup := by
  induction d using Descriptor.induction generalizing path with
  | action ref => exact List.nodup_singleton path
  | «instance» a => exact List.nodup_singleton path
  | sequence nodes ih =>
    rw [visitsAt, List.map_cons, List.nodup_cons, List.mem_map]
    have hnodes := keyedNodes_iff.1 h
    refine ⟨?_, nodup_pathsNodes (fun node hnode => ih node hnode (hnodes node hnode)) 0⟩
    rintro ⟨w, hw, hpath⟩
    obtain ⟨i, node, -, hw⟩ := mem_visitsNodes.1 hw
    exact path_ne_self hw hpath.symm
  | parallel branches ih =>
    obtain ⟨hkeys, h⟩ := h
    rw [visitsAt, List.map_cons, List.nodup_cons, List.mem_map]
    refine ⟨?_, nodup_pathsBranches (fun b hb => ih b hb (keyedBranches_iff.1 h b hb)) hkeys⟩
    rintro ⟨w, hw, hpath⟩
    obtain ⟨b, -, hw⟩ := mem_visitsBranches.1 hw
    exact path_ne_self hw hpath.symm

/-- Keys that ascend are different. -/
theorem WellKeyed.keyed (h : d.WellKeyed) : d.Keyed := by
  induction d using Descriptor.induction with
  | action ref => trivial
  | «instance» a => trivial
  | sequence nodes ih =>
    exact keyedNodes_iff.2 fun node hnode => ih node hnode (wellKeyedNodes_iff.1 h node hnode)
  | parallel branches ih =>
    obtain ⟨hascending, -, h⟩ := h
    refine ⟨hascending.imp fun hlt => ?_, keyedBranches_iff.2 fun b hb =>
      ih b hb (wellKeyedBranches_iff.1 h b hb)⟩
    rintro rfl
    exact List.lt_irrefl _ hlt

end Descriptor

/-! ## Nodes of values -/

namespace Json

variable {v child node : Json} {items : List Json} {fields : List (String × Json)} {s : Segment}
  {p : Path} {key : String}

mutual

/-- The keys of the members of all groups that are objects.  What actions hold is left out. -/
def keys : Json → List String
  | array items => keysItems items
  | object fields =>
    if (fields.lookup ActionRef.nameKey).isSome then []
    else fields.map Prod.fst ++ keysFields fields
  | _ => []

def keysItems : List Json → List String
  | [] => []
  | item :: rest => item.keys ++ keysItems rest

def keysFields : List (String × Json) → List String
  | [] => []
  | (_, value) :: rest => value.keys ++ keysFields rest

end

theorem mem_keysItems : key ∈ keysItems items ↔ ∃ item ∈ items, key ∈ item.keys := by
  induction items with
  | nil => simp [keysItems]
  | cons item rest ih => simp [keysItems, ih]

theorem mem_keysFields : key ∈ keysFields fields ↔ ∃ m ∈ fields, key ∈ m.2.keys := by
  induction fields with
  | nil => simp [keysFields]
  | cons m rest ih =>
    obtain ⟨k, value⟩ := m
    simp [keysFields, ih]

theorem canonicalItems_iff : CanonicalItems items ↔ ∀ item ∈ items, item.Canonical := by
  induction items with
  | nil => simp [CanonicalItems]
  | cons item rest ih => rw [CanonicalItems, ih, List.forall_mem_cons]

theorem canonicalFields_iff : CanonicalFields fields ↔ ∀ m ∈ fields, m.2.Canonical := by
  induction fields with
  | nil => simp [CanonicalFields]
  | cons m rest ih =>
    obtain ⟨k, value⟩ := m
    rw [CanonicalFields, ih, List.forall_mem_cons]

/-- What stands directly below a value, one step down. -/
theorem at?_singleton_cases (h : v.at? [s] = some child) :
    (∃ items i, v = array items ∧ s = .index i ∧ items[i]? = some child) ∨
      ∃ fields key, v = object fields ∧ s = .key key ∧ fields.lookup key = some child := by
  cases v <;> cases s <;> simp_all [at?]

theorem Canonical.at? (hv : v.Canonical) (h : v.at? [s] = some child) : child.Canonical := by
  rcases at?_singleton_cases h with ⟨items, i, rfl, rfl, hi⟩ | ⟨fields, key, rfl, rfl, hkey⟩
  · exact canonicalItems_iff.1 hv child (List.mem_of_getElem? hi)
  · exact canonicalFields_iff.1 hv.2 _ (mem_of_lookup hkey)

/-- The keys below a child of a group, and the key of the child itself, are keys of groups. -/
theorem keys_child (hgroup : v.IsGroup) (h : v.at? [s] = some child) :
    (∀ key, s = .key key → key ∈ v.keys) ∧ child.keys ⊆ v.keys := by
  rcases at?_singleton_cases h with ⟨items, i, rfl, rfl, hi⟩ | ⟨fields, key, rfl, rfl, hkey⟩
  · exact ⟨nofun, fun key hkey => mem_keysItems.2 ⟨child, List.mem_of_getElem? hi, hkey⟩⟩
  · have hkeys : (object fields).keys = fields.map Prod.fst ++ keysFields fields := by
      rw [keys, show fields.lookup ActionRef.nameKey = none from hgroup]
      rfl
    have hmem := mem_of_lookup hkey
    rw [hkeys]
    constructor
    · rintro _ ⟨⟩
      exact List.mem_append_left _ (List.mem_map_of_mem hmem)
    · exact fun key hkey => List.mem_append_right _ (mem_keysFields.2 ⟨_, hmem, hkey⟩)

theorem Reaches.keys_mem (h : v.Reaches p node) : .key key ∈ p → key ∈ v.keys := by
  induction p generalizing v with
  | nil => exact nofun
  | cons s p ih =>
    obtain ⟨hgroup, child, hchild, hreaches⟩ := reaches_cons.1 h
    obtain ⟨hkey, hkeys⟩ := keys_child hgroup hchild
    intro hmem
    rcases List.mem_cons.1 hmem with hs | hmem
    · exact hkey key hs.symm
    · exact hkeys (ih hreaches hmem)

theorem Reaches.plain (h : v.Reaches p node) (hkeys : ∀ key ∈ v.keys, (Segment.key key).Plain) :
    p.Plain :=
  Path.plain_of_keys fun key hkey => hkeys key (h.keys_mem hkey)

end Json

/-! ## Nodes of a value and of what is read from it -/

namespace Descriptor

open Json

variable {limit level index : Nat} {path q : Path} {v item node : Json} {d child x : Descriptor}
  {items : List Json} {nodes : List Descriptor} {fields : List (String × Json)}
  {branches : List (String × Descriptor)} {s : Segment}

theorem ofJsonItems_getElem? (h : ofJsonItems limit path level index items = .ok nodes) (i : Nat) :
    items[i]?.map (ofJsonAt limit (path ++ [.index (index + i)]) (level + 1)) =
      nodes[i]?.map .ok := by
  induction items generalizing nodes index i with
  | nil =>
    cases h
    rfl
  | cons item rest ih =>
    obtain ⟨node, nodes, hitem, hrest, rfl⟩ := ofJsonItems_cons_iff.1 h
    cases i with
    | zero => exact congrArg some hitem
    | succ i =>
      rw [← Nat.add_assoc, Nat.add_right_comm]
      exact ih hrest i

theorem ofJsonBranches_map (h : ofJsonBranches limit path level fields = .ok branches) :
    fields.map (fun m => (m.1, ofJsonAt limit (path ++ [.key m.1]) (level + 1) m.2)) =
      branches.map fun b => (b.1, .ok b.2) := by
  induction fields generalizing branches with
  | nil =>
    cases h
    rfl
  | cons m rest ih =>
    obtain ⟨node, branches, hvalue, hrest, rfl⟩ := ofJsonBranches_cons_iff.1 h
    rw [List.map_cons, List.map_cons, ih hrest, hvalue]

/-- What a value can be read as: an action, or a group of what stands in it. -/
theorem ofJsonAt_cases (h : ofJsonAt limit path level v = .ok d) :
    (¬v.IsGroup ∧ d.kind = .action) ∨
    (∃ items nodes, v = .array items ∧ d = sequence nodes ∧
      ofJsonItems limit path level 0 items = .ok nodes) ∨
    ∃ fields branches, v = .object fields ∧ v.IsGroup ∧ d = parallel branches ∧
      ofJsonBranches limit path level fields = .ok branches := by
  cases v with
  | null | bool | int | float | string => cases h
  | array items =>
    obtain ⟨-, nodes, hitems, rfl⟩ := ofJsonAt_array_iff.1 h
    exact .inr (.inl ⟨items, nodes, rfl, rfl, hitems⟩)
  | object fields =>
    cases hname : fields.lookup ActionRef.nameKey with
    | some name =>
      obtain ⟨name, rfl, rfl⟩ := (ofJsonAt_action_iff hname).1 h
      refine .inl ⟨fun hgroup => ?_, rfl⟩
      rw [IsGroup, hname] at hgroup
      cases hgroup
    | none =>
      obtain ⟨-, branches, hfields, rfl⟩ := (ofJsonAt_parallel_iff hname).1 h
      exact .inr (.inr ⟨fields, branches, rfl, hname, rfl, hfields⟩)

/-- What stands in a group has been read as a child. -/
theorem exists_child (h : ofJsonAt limit path level v = .ok d) (hgroup : v.IsGroup)
    (hitem : v.at? [s] = some item) :
    ∃ child, d.HasChild s child ∧
      ofJsonAt limit (path ++ [s]) (level + 1) item = .ok child := by
  rcases ofJsonAt_cases h with ⟨hno, -⟩ | ⟨items, nodes, rfl, rfl, hitems⟩ |
    ⟨fields, branches, rfl, -, rfl, hfields⟩
  · exact absurd hgroup hno
  · rcases at?_singleton_cases hitem with ⟨_, i, ⟨⟩, rfl, hi⟩ | ⟨_, _, ⟨⟩, -⟩
    have hread := ofJsonItems_getElem? hitems i
    rw [hi, Option.map_some, Nat.zero_add] at hread
    obtain ⟨child, hchild, hread⟩ := Option.map_eq_some_iff.1 hread.symm
    exact ⟨child, .node hchild, hread.symm⟩
  · rcases at?_singleton_cases hitem with ⟨_, _, ⟨⟩, -⟩ | ⟨_, key, ⟨⟩, rfl, hkey⟩
    have hmem := ofJsonBranches_map hfields ▸ List.mem_map.2 ⟨_, mem_of_lookup hkey, rfl⟩
    obtain ⟨⟨key', child⟩, hb, hread⟩ := List.mem_map.1 hmem
    obtain ⟨rfl, hread⟩ := Prod.mk.inj hread
    exact ⟨child, .branch hb, hread.symm⟩

/-- A child has been read from what stands in a group. -/
theorem exists_item (hv : v.Canonical) (h : ofJsonAt limit path level v = .ok d)
    (hchild : d.HasChild s child) :
    v.IsGroup ∧ ∃ item, v.at? [s] = some item ∧
      ofJsonAt limit (path ++ [s]) (level + 1) item = .ok child := by
  rcases ofJsonAt_cases h with ⟨-, hkind⟩ | ⟨items, nodes, rfl, rfl, hitems⟩ |
    ⟨fields, branches, rfl, hgroup, rfl, hfields⟩
  · cases hchild <;> cases hkind
  · cases hchild with
    | @node _ i _ hi =>
      have hread := ofJsonItems_getElem? hitems i
      rw [hi, Option.map_some, Nat.zero_add] at hread
      obtain ⟨item, hitem, hread⟩ := Option.map_eq_some_iff.1 hread
      exact ⟨trivial, item, by simpa [at?] using hitem, hread⟩
  · cases hchild with
    | @branch _ key _ hb =>
      have hmem := ofJsonBranches_map hfields ▸ List.mem_map.2 ⟨_, hb, rfl⟩
      obtain ⟨⟨key', item⟩, hm, hread⟩ := List.mem_map.1 hmem
      obtain ⟨rfl, hread⟩ := Prod.mk.inj hread
      have hkeys : (fields.map Prod.fst).Nodup := hv.1.imp fun hlt => ne_of_lt hlt
      exact ⟨hgroup, item, by simpa [at?] using lookup_of_mem hkeys hm, hread⟩

/-- Every node of a value that can be read can be read itself. -/
theorem exists_read (path : Path) (h : ofJsonAt limit path (path.length + 1) v = .ok d)
    (hreaches : v.Reaches q node) :
    ∃ x, ofJsonAt limit (path ++ q) ((path ++ q).length + 1) node = .ok x := by
  induction q generalizing v d path with
  | nil =>
    obtain rfl := reaches_nil.1 hreaches
    rw [List.append_nil]
    exact ⟨d, h⟩
  | cons s q ih =>
    obtain ⟨hgroup, item, hitem, hreaches⟩ := reaches_cons.1 hreaches
    obtain ⟨child, -, hread⟩ := exists_child h hgroup hitem
    rw [List.append_cons]
    exact ih _ (by rwa [List.length_append]) hreaches

/-- What is visited at an address is what the node of the value there is read as. -/
theorem visited_iff (path : Path) (hv : v.Canonical)
    (h : ofJsonAt limit path (path.length + 1) v = .ok d) :
    ⟨path ++ q, x⟩ ∈ d.visitsAt path ↔ ∃ node, v.Reaches q node ∧
      ofJsonAt limit (path ++ q) ((path ++ q).length + 1) node = .ok x := by
  induction q generalizing v d path with
  | nil =>
    rw [List.append_nil, mem_visitsAt, or_iff_left, Visit.mk.injEq]
    · simp only [reaches_nil, true_and, exists_eq_left', h, Except.ok.injEq]
      exact eq_comm
    · rintro ⟨s, child, -, hw⟩
      exact path_ne_self hw rfl
  | cons s q ih =>
    rw [List.append_cons]
    constructor
    · intro hw
      rcases mem_visitsAt.1 hw with hself | ⟨s', child, hchild, hw⟩
      · rw [Visit.mk.injEq, List.append_assoc, List.append_right_eq_self] at hself
        cases hself.1
      · -- the first step says which child it is
        obtain ⟨q', hq⟩ := exists_path_eq_cons hw
        rw [← List.append_cons] at hq
        obtain rfl : s = s' := (List.cons.inj (List.append_cancel_left hq)).1
        obtain ⟨hgroup, item, hitem, hread⟩ := exists_item hv h hchild
        obtain ⟨node, hreaches, hnode⟩ :=
          (ih _ (hv.at? hitem) (by rwa [List.length_append])).1 hw
        exact ⟨node, reaches_cons.2 ⟨hgroup, item, hitem, hreaches⟩, hnode⟩
    · rintro ⟨node, hreaches, hread⟩
      obtain ⟨hgroup, item, hitem, hreaches⟩ := reaches_cons.1 hreaches
      obtain ⟨child, hchild, hchildRead⟩ := exists_child h hgroup hitem
      refine mem_visitsAt.2 (.inr ⟨s, child, hchild, ?_⟩)
      exact (ih _ (hv.at? hitem) (by rwa [List.length_append])).2 ⟨node, hreaches, hread⟩

/-- The descriptor has a node at an address exactly if the value has, and that node is what the node
of the value is read as, with this address. -/
structure ReadFrom (d : Descriptor) (limit : Nat) (v : Json) : Prop where
  addresses : ∀ p, (∃ node, v.Reaches p node) ↔ ∃ x, ⟨p, x⟩ ∈ d.visits
  nodes : ∀ w ∈ d.visits, ∃ node, v.Reaches w.path node ∧
    ofJsonAt limit w.path w.level node = .ok w.node

theorem readFrom_of_ofJson (hv : v.Canonical) (h : ofJson limit v = .ok d) :
    d.ReadFrom limit v := by
  have hvisited (p : Path) (x : Descriptor) : ⟨p, x⟩ ∈ d.visits ↔ ∃ node, v.Reaches p node ∧
      ofJsonAt limit p (p.length + 1) node = .ok x := visited_iff [] hv h
  refine ⟨fun p => ⟨?_, ?_⟩, fun w hw => (hvisited w.path w.node).1 hw⟩
  · rintro ⟨node, hreaches⟩
    obtain ⟨x, hread⟩ := exists_read [] h hreaches
    exact ⟨x, (hvisited p x).2 ⟨node, hreaches, hread⟩⟩
  · rintro ⟨x, hx⟩
    obtain ⟨node, hreaches, -⟩ := (hvisited p x).1 hx
    exact ⟨node, hreaches⟩

theorem ReadFrom.plain (h : d.ReadFrom limit v) (hkeys : ∀ key ∈ v.keys, (Segment.key key).Plain) :
    ∀ w ∈ d.visits, w.path.Plain := by
  intro w hw
  obtain ⟨node, hreaches, -⟩ := h.nodes w hw
  exact hreaches.plain hkeys

theorem keyed_of_ofJson (hv : v.Canonical) (h : ofJson limit v = .ok d) : d.Keyed :=
  (of_ofJsonAt [] 1 v hv d h).1.keys.keyed

end Descriptor

end Rundown
