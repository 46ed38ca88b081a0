import Rundown.Proofs.Descriptor.Permuted
import Rundown.Proofs.Descriptor.Reading
import Rundown.Proofs.Text.Bytes

/-!
# Writing descriptors as JSON values

`Descriptor.render` writes a descriptor in the form that `Descriptor.ofJson` reads.  What is read
and what is written fit together (`Descriptor.ofJson_render_spec`): every descriptor that some value
stands for is read back from what is written for it, and of a value nothing is lost on the way but
what its actions hold besides a name and options (`Json.trimmed`).
-/

namespace Rundown

namespace Descriptor

mutual

/-- The value that stands for a descriptor.  There is none for an action that is built already. -/
def render : Descriptor → Json
  | action ref => ref.toJson
  | .instance _ => .null
  | sequence nodes => .array (renderNodes nodes)
  | parallel branches => .object (renderBranches branches)

def renderNodes : List Descriptor → List Json
  | [] => []
  | node :: rest => node.render :: renderNodes rest

def renderBranches : List (String × Descriptor) → List (String × Json)
  | [] => []
  | (key, node) :: rest => (key, node.render) :: renderBranches rest

end

mutual

/-- The keys of every parallel group ascend by their bytes, and none of them makes the group look
like an action. -/
def WellKeyed : Descriptor → Prop
  | action _ | .instance _ => True
  | sequence nodes => WellKeyedNodes nodes
  | parallel branches =>
    (branches.map Prod.fst).Pairwise (fun key key' => Text.bytes key < Text.bytes key') ∧
      ActionRef.nameKey ∉ branches.map Prod.fst ∧ WellKeyedBranches branches

def WellKeyedNodes : List Descriptor → Prop
  | [] => True
  | node :: rest => node.WellKeyed ∧ WellKeyedNodes rest

def WellKeyedBranches : List (String × Descriptor) → Prop
  | [] => True
  | (_, node) :: rest => node.WellKeyed ∧ WellKeyedBranches rest

end

/-- Whether a descriptor can come from a value, with at most `groups` groups inside one another. -/
structure Readable (groups : Nat) (d : Descriptor) : Prop where
  unbuilt : d.instances = []
  shallow : d.depth ≤ groups
  keys : d.WellKeyed

end Descriptor

namespace Json

mutual

/-- A value with every action in it cut down to its name and its options, which are null where the
action has none.  The options themselves stay as they are. -/
def trimmed : Json → Json
  | array items => array (trimmedItems items)
  | object fields =>
    match fields.lookup ActionRef.nameKey with
    | some name =>
      object [(ActionRef.nameKey, name),
        (ActionRef.optionsKey, (fields.lookup ActionRef.optionsKey).getD null)]
    | none => object (trimmedFields fields)
  | v => v

def trimmedItems : List Json → List Json
  | [] => []
  | item :: rest => item.trimmed :: trimmedItems rest

def trimmedFields : List (String × Json) → List (String × Json)
  | [] => []
  | (key, value) :: rest => (key, value.trimmed) :: trimmedFields rest

end

theorem keys_trimmedFields (fields : List (String × Json)) :
    (trimmedFields fields).map Prod.fst = fields.map Prod.fst := by
  induction fields with
  | nil => rfl
  | cons m rest ih => rw [trimmedFields, List.map_cons, List.map_cons, ih]

end Json

namespace Descriptor

open Json

variable {limit groups level : Nat} {path : Path} {d : Descriptor} {nodes : List Descriptor}
  {branches : List (String × Descriptor)}

theorem keys_renderBranches (branches : List (String × Descriptor)) :
    (renderBranches branches).map Prod.fst = branches.map Prod.fst := by
  induction branches with
  | nil => rfl
  | cons b rest ih => rw [renderBranches, List.map_cons, List.map_cons, ih]

theorem wellKeyedNodes_iff : WellKeyedNodes nodes ↔ ∀ node ∈ nodes, node.WellKeyed := by
  induction nodes with
  | nil => simp [WellKeyedNodes]
  | cons node rest ih => rw [WellKeyedNodes, ih, List.forall_mem_cons]

theorem wellKeyedBranches_iff : WellKeyedBranches branches ↔ ∀ b ∈ branches, b.2.WellKeyed := by
  induction branches with
  | nil => simp [WellKeyedBranches]
  | cons b rest ih =>
    obtain ⟨key, node⟩ := b
    rw [WellKeyedBranches, ih, List.forall_mem_cons]

theorem readable_action (ref : ActionRef) : (action ref).Readable groups :=
  ⟨rfl, Nat.zero_le groups, trivial⟩

theorem not_readable_instance (a : ActionId) : ¬(Descriptor.instance a).Readable groups :=
  fun h => List.cons_ne_nil a [] h.unbuilt

theorem readable_sequence : (sequence nodes).Readable groups ↔
    0 < groups ∧ ∀ node ∈ nodes, node.Readable (groups - 1) := by
  constructor
  · rintro ⟨hunbuilt, hdepth, hkeys⟩
    rw [depth] at hdepth
    refine ⟨by omega, fun node hnode => ⟨instancesNodes_eq_nil.1 hunbuilt node hnode, ?_,
      wellKeyedNodes_iff.1 hkeys node hnode⟩⟩
    exact depthNodes_le_iff.1 (by omega) node hnode
  · rintro ⟨hgroups, h⟩
    have hdepth := depthNodes_le_iff.2 fun node hnode => (h node hnode).shallow
    refine ⟨instancesNodes_eq_nil.2 fun node hnode => (h node hnode).unbuilt, ?_,
      wellKeyedNodes_iff.2 fun node hnode => (h node hnode).keys⟩
    rw [depth]
    omega

theorem readable_parallel : (parallel branches).Readable groups ↔
    0 < groups ∧ (branches.map Prod.fst).Pairwise (· < ·) ∧
      ActionRef.nameKey ∉ branches.map Prod.fst ∧ ∀ b ∈ branches, b.2.Readable (groups - 1) := by
  constructor
  · rintro ⟨hunbuilt, hdepth, hascending, hname, hkeys⟩
    rw [depth] at hdepth
    refine ⟨by omega, hascending.imp Text.bytes_lt_iff.1, hname, fun b hb =>
      ⟨instancesBranches_eq_nil.1 hunbuilt b hb, ?_, wellKeyedBranches_iff.1 hkeys b hb⟩⟩
    exact depthBranches_le_iff.1 (by omega) b hb
  · rintro ⟨hgroups, hascending, hname, h⟩
    have hdepth := depthBranches_le_iff.2 fun b hb => (h b hb).shallow
    refine ⟨instancesBranches_eq_nil.2 fun b hb => (h b hb).unbuilt, ?_,
      hascending.imp Text.bytes_lt_iff.2, hname,
      wellKeyedBranches_iff.2 fun b hb => (h b hb).keys⟩
    rw [depth]
    omega

/-! ## What is written can be read -/

theorem ofJsonItems_render
    (h : ∀ node ∈ nodes, ∀ path, ofJsonAt limit path (level + 1) node.render = .ok node)
    (index : Nat) : ofJsonItems limit path level index (renderNodes nodes) = .ok nodes := by
  induction nodes generalizing index with
  | nil => rfl
  | cons node rest ih =>
    obtain ⟨hnode, hrest⟩ := List.forall_mem_cons.1 h
    rw [renderNodes, ofJsonItems, hnode, ih hrest]
    rfl

theorem ofJsonBranches_render
    (h : ∀ b ∈ branches, ∀ path, ofJsonAt limit path (level + 1) b.2.render = .ok b.2) :
    ofJsonBranches limit path level (renderBranches branches) = .ok branches := by
  induction branches with
  | nil => rfl
  | cons b rest ih =>
    obtain ⟨key, node⟩ := b
    obtain ⟨hnode, hrest⟩ := List.forall_mem_cons.1 h
    rw [renderBranches, ofJsonBranches, hnode, ih hrest]
    rfl

theorem ofJsonAt_render (h : d.Readable (limit + 1 - level)) (path : Path) :
    ofJsonAt limit path level d.render = .ok d := by
  induction d using Descriptor.induction generalizing level path with
  | action ref => rfl
  | «instance» a => exact (not_readable_instance a h).elim
  | sequence nodes ih =>
    obtain ⟨hlevel, hnodes⟩ := readable_sequence.1 h
    rw [Nat.sub_sub] at hnodes
    rw [render, ofJsonAt, if_neg (by omega),
      ofJsonItems_render fun node hnode => ih node hnode (hnodes node hnode)]
    rfl
  | parallel branches ih =>
    obtain ⟨hlevel, -, hname, hbranches⟩ := readable_parallel.1 h
    rw [Nat.sub_sub] at hbranches
    rw [← keys_renderBranches, ← lookup_eq_none_iff] at hname
    rw [render, ofJsonAt, hname]
    dsimp only
    rw [if_neg (by omega), ofJsonBranches_render fun b hb => ih b hb (hbranches b hb)]
    rfl

/-! ## What is read has been written, but for the rest of its actions -/

mutual

theorem of_ofJsonAt (path : Path) (level : Nat) : ∀ v : Json, v.Canonical → ∀ d,
    ofJsonAt limit path level v = .ok d →
      d.Readable (limit + 1 - level) ∧ d.render = v.trimmed
  | .null, _, _, h | .bool _, _, _, h | .int _, _, _, h | .float _, _, _, h
  | .string _, _, _, h => by cases h
  | .array items, hv, d, h => by
    obtain ⟨hlevel, nodes, hitems, rfl⟩ := ofJsonAt_array_iff.1 h
    obtain ⟨hreadable, hrender⟩ := of_ofJsonItems path level 0 items hv nodes hitems
    refine ⟨readable_sequence.2 ⟨by omega, hreadable⟩, ?_⟩
    rw [render, hrender, trimmed]
  | .object fields, hv, d, h => by
    rw [trimmed]
    cases hname : fields.lookup ActionRef.nameKey with
    | some name =>
      obtain ⟨name, rfl, rfl⟩ := (ofJsonAt_action_iff hname).1 h
      exact ⟨readable_action _, rfl⟩
    | none =>
      obtain ⟨hlevel, branches, hfields, rfl⟩ := (ofJsonAt_parallel_iff hname).1 h
      obtain ⟨hreadable, hrender⟩ := of_ofJsonBranches path level fields hv.2 branches hfields
      have hkeys : branches.map Prod.fst = fields.map Prod.fst := by
        rw [← keys_renderBranches, hrender, keys_trimmedFields]
      refine ⟨readable_parallel.2 ⟨by omega, ?_, ?_, hreadable⟩, ?_⟩
      · exact hkeys ▸ hv.1
      · exact hkeys ▸ lookup_eq_none_iff.1 hname
      · rw [render, hrender]

theorem of_ofJsonItems (path : Path) (level index : Nat) : ∀ items, CanonicalItems items → ∀ nodes,
    ofJsonItems limit path level index items = .ok nodes →
      (∀ node ∈ nodes, node.Readable (limit + 1 - level - 1)) ∧
        renderNodes nodes = trimmedItems items
  | [], _, nodes, h => by
    cases h
    exact ⟨nofun, rfl⟩
  | item :: rest, hv, nodes, h => by
    obtain ⟨node, nodes, hitem, hrest, rfl⟩ := ofJsonItems_cons_iff.1 h
    obtain ⟨hnode, hnodeRender⟩ := of_ofJsonAt _ (level + 1) item hv.1 node hitem
    obtain ⟨hnodes, hnodesRender⟩ := of_ofJsonItems path level (index + 1) rest hv.2 nodes hrest
    refine ⟨List.forall_mem_cons.2 ⟨hnode, hnodes⟩, ?_⟩
    rw [renderNodes, hnodeRender, hnodesRender, trimmedItems]

theorem of_ofJsonBranches (path : Path) (level : Nat) : ∀ fields, CanonicalFields fields →
    ∀ branches, ofJsonBranches limit path level fields = .ok branches →
      (∀ b ∈ branches, b.2.Readable (limit + 1 - level - 1)) ∧
        renderBranches branches = trimmedFields fields
  | [], _, branches, h => by
    cases h
    exact ⟨nofun, rfl⟩
  | (key, value) :: rest, hv, branches, h => by
    obtain ⟨node, branches, hvalue, hrest, rfl⟩ := ofJsonBranches_cons_iff.1 h
    obtain ⟨hnode, hnodeRender⟩ := of_ofJsonAt _ (level + 1) value hv.1 node hvalue
    obtain ⟨hbranches, hrestRender⟩ := of_ofJsonBranches path level rest hv.2 branches hrest
    refine ⟨List.forall_mem_cons.2 ⟨hnode, hbranches⟩, ?_⟩
    rw [renderBranches, hnodeRender, hrestRender, trimmedFields]

end

/-! ## What a reader does not look at -/

mutual

/-- A value is read as it is when its actions are cut down. -/
theorem ofJsonAt_trimmed (path : Path) (level : Nat) : ∀ v : Json,
    ofJsonAt limit path level v.trimmed = ofJsonAt limit path level v
  | .null | .bool _ | .int _ | .float _ | .string _ => rfl
  | .array items => by
    rw [trimmed, ofJsonAt, ofJsonAt, ofJsonItems_trimmed path level 0 items]
  | .object fields => by
    rw [trimmed]
    cases hname : fields.lookup ActionRef.nameKey with
    | some name =>
      rw [ofJsonAt, ofJsonAt, hname]
      cases name <;> rfl
    | none =>
      have hname' : (trimmedFields fields).lookup ActionRef.nameKey = none := by
        rwa [lookup_eq_none_iff, keys_trimmedFields, ← lookup_eq_none_iff]
      rw [ofJsonAt, ofJsonAt, hname, hname', ofJsonBranches_trimmed path level fields]

theorem ofJsonItems_trimmed (path : Path) (level index : Nat) : ∀ items : List Json,
    ofJsonItems limit path level index (trimmedItems items) =
      ofJsonItems limit path level index items
  | [] => rfl
  | item :: rest => by
    rw [trimmedItems, ofJsonItems, ofJsonItems, ofJsonAt_trimmed _ _ item,
      ofJsonItems_trimmed path level (index + 1) rest]

theorem ofJsonBranches_trimmed (path : Path) (level : Nat) : ∀ fields : List (String × Json),
    ofJsonBranches limit path level (trimmedFields fields) = ofJsonBranches limit path level fields
  | [] => rfl
  | (key, value) :: rest => by
    rw [trimmedFields, ofJsonBranches, ofJsonBranches, ofJsonAt_trimmed _ _ value,
      ofJsonBranches_trimmed path level rest]

end

/-! ## What is written is a value -/

theorem canonicalItems_render (h : ∀ node ∈ nodes, node.render.Canonical) :
    CanonicalItems (renderNodes nodes) := by
  induction nodes with
  | nil => trivial
  | cons node rest ih =>
    obtain ⟨hnode, hrest⟩ := List.forall_mem_cons.1 h
    exact ⟨hnode, ih hrest⟩

theorem canonicalFields_render (h : ∀ b ∈ branches, b.2.render.Canonical) :
    CanonicalFields (renderBranches branches) := by
  induction branches with
  | nil => trivial
  | cons b rest ih =>
    obtain ⟨key, node⟩ := b
    obtain ⟨hnode, hrest⟩ := List.forall_mem_cons.1 h
    exact ⟨hnode, ih hrest⟩

theorem mem_refsNodes {ref : ActionRef} :
    ref ∈ refsNodes nodes ↔ ∃ node ∈ nodes, ref ∈ node.refs := by
  induction nodes with
  | nil => simp [refsNodes]
  | cons node rest ih => simp [refsNodes, ih]

/-- Members are in order in what is written if they are in the options. -/
theorem render_canonical (h : d.Readable groups)
    (hoptions : ∀ ref ∈ d.refs, ref.options.Canonical) :
    d.render.Canonical := by
  induction d using Descriptor.induction generalizing groups with
  | action ref =>
    refine ⟨?_, trivial, hoptions ref List.mem_cons_self, trivial⟩
    show [ActionRef.nameKey, ActionRef.optionsKey].Pairwise (· < ·)
    decide
  | «instance» a => trivial
  | sequence nodes ih =>
    obtain ⟨-, hnodes⟩ := readable_sequence.1 h
    exact canonicalItems_render fun node hnode => ih node hnode (hnodes node hnode) fun ref href =>
      hoptions ref (mem_refsNodes.2 ⟨node, hnode, href⟩)
  | parallel branches ih =>
    obtain ⟨-, hascending, -, hbranches⟩ := readable_parallel.1 h
    refine ⟨(keys_renderBranches branches).symm ▸ hascending, canonicalFields_render fun b hb =>
      ih b hb (hbranches b hb) fun ref href => ?_⟩
    exact hoptions ref (mem_refsBranches.2 ⟨b, hb, href⟩)

/-- Reading is onto the descriptors that need nothing built, nest at most `limit` groups and have
their keys in order: each of them is read from what is written for it.  A value is read as `d`
exactly if `d` is one of these and writing it gives the value back, with its actions cut down; so
values that differ in anything else are read as different descriptors. -/
theorem ofJson_render_spec (limit : Nat) :
    (∀ d : Descriptor, d.Readable limit → ofJson limit d.render = .ok d ∧
      ((∀ ref ∈ d.refs, ref.options.Canonical) → d.render.Canonical)) ∧
    (∀ v : Json, v.Canonical → ∀ d,
      ofJson limit v = .ok d ↔ d.Readable limit ∧ d.render = v.trimmed) ∧
    ∀ v v' : Json, v.Canonical → v'.Canonical → ∀ d d', ofJson limit v = .ok d →
      ofJson limit v' = .ok d' → (d = d' ↔ v.trimmed = v'.trimmed) := by
  have hwritten (d : Descriptor) (hd : d.Readable limit) : ofJson limit d.render = .ok d := by
    rw [← Nat.add_sub_cancel limit 1] at hd
    exact ofJsonAt_render hd []
  have hread (v : Json) (hv : v.Canonical) (d : Descriptor) :
      ofJson limit v = .ok d ↔ d.Readable limit ∧ d.render = v.trimmed := by
    refine ⟨of_ofJsonAt [] 1 v hv d, ?_⟩
    rintro ⟨hd, hrender⟩
    calc ofJson limit v
      _ = ofJson limit v.trimmed := (ofJsonAt_trimmed [] 1 v).symm
      _ = ofJson limit d.render := by rw [hrender]
      _ = .ok d := hwritten d hd
  refine ⟨fun d hd => ⟨hwritten d hd, render_canonical hd⟩, hread, ?_⟩
  intro v v' hv hv' d d' h h'
  constructor
  · rintro rfl
    rw [← ((hread v hv d).1 h).2, ((hread v' hv' d).1 h').2]
  · intro htrimmed
    have hsame : (.ok d : Except DescriptorError Descriptor) = .ok d' := by
      rw [← h, ← h', ofJson, ofJson, ← ofJsonAt_trimmed, htrimmed, ofJsonAt_trimmed]
    exact Except.ok.inj hsame

/-- A group with an action that holds a remark and has options that look like an action. -/
def remarked : Json :=
  .object [("a", .array [.object [("actionName", .string "wait"),
    ("options", .object [("actionName", .int 5)]), ("remark", .bool true)]]), ("b", .array [])]

/-- Only the remark is lost. -/
theorem ofJson_render_spec_remarked :
    remarked.Canonical ∧ ∃ d, ofJson 2 remarked = .ok d ∧ d.Readable 2 ∧ d.render = remarked.trimmed ∧
      ofJson 2 d.render = .ok d := by
  have hcanonical : remarked.Canonical := by
    refine ⟨by decide, ⟨⟨by decide, trivial, ⟨by decide, ?_, trivial⟩, trivial, trivial⟩, trivial⟩,
      trivial, trivial⟩
    simp [Canonical, minInt, intBound]
  obtain ⟨hwritten, hread, -⟩ := ofJson_render_spec 2
  have hd : ofJson 2 remarked =
      .ok (.parallel [("a", .sequence [.action ⟨"wait", .object [("actionName", .int 5)]⟩]),
        ("b", .sequence [])]) := rfl
  obtain ⟨hreadable, hrender⟩ := (hread remarked hcanonical _).1 hd
  exact ⟨hcanonical, _, hd, hreadable, hrender, (hwritten _ hreadable).1⟩

end Descriptor

end Rundown
