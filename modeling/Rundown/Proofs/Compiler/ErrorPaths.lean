import Rundown.Proofs.Compiler.FirstFault
import Rundown.Proofs.Descriptor.Addresses

/-!
# The node that an error is about

An error about a node holds the path of the node as a text.  Where the keys of all groups are plain,
no other node has a path with this text, neither in the value that is read nor in the descriptor
that is compiled (`Json.Designates`, `Descriptor.Designates`).  As a value and what is read from it
have their nodes at the same addresses, a path means the same node in both, whichever of reading and
compiling reports it (`Compiler.errorPaths_spec`).
-/

namespace Rundown

/-- The path in an error, written out.  Only a text that does not hold a value has none. -/
def DescriptorError.path? : DescriptorError → Option String
  | unknownAction path _ | invalidActionName path | invalidOptions path _ _ | unclassifiable path _
  | tooDeep path _ => some path
  | unreadable _ => none

variable {err : DescriptorError} {limit : Nat} {p : Path}

namespace Json

variable {v node : Json}

/-- Of the nodes of a value, the one at `p` has the path in the error, and no other has. -/
def Designates (v : Json) (err : DescriptorError) (p : Path) : Prop :=
  ∀ p', ((∃ node, v.Reaches p' node) ∧ err.path? = some p'.render) ↔ p' = p

/-- An error about a node has its path. -/
theorem path?_of_fault (h : node.fault? limit p = some err) : err.path? = some p.render := by
  cases node with
  | null | bool | int | float | string =>
    cases h
    rfl
  | array items =>
    obtain ⟨-, ⟨⟩⟩ := Option.ite_none_right_eq_some.1 h
    rfl
  | object fields =>
    rw [fault?] at h
    split at h
    · cases h
    · cases h
      rfl
    · obtain ⟨-, ⟨⟩⟩ := Option.ite_none_right_eq_some.1 h
      rfl

theorem Offends.reaches (h : v.Offends limit p err) : ∃ node, v.Reaches p node := by
  obtain ⟨⟨hgroups, -⟩, node, hnode, -⟩ := h
  exact ⟨node, hgroups, hnode⟩

theorem Offends.path?_eq (h : v.Offends limit p err) : err.path? = some p.render := by
  obtain ⟨-, node, -, hfault⟩ := h
  exact path?_of_fault hfault

theorem exists_offends (hv : v.Canonical) (h : Descriptor.ofJson limit v = .error err) :
    ∃ p, v.Offends limit p err := by
  have hreports : Descriptor.Reports (Descriptor.ofJson limit v) (OffendsBelow limit [] v) :=
    Descriptor.ofJsonAt_reports [] (Nat.zero_le limit) v hv
  rw [h] at hreports
  obtain ⟨p, hp, -⟩ := hreports
  exact ⟨p, offendsBelow_root.1 hp⟩

theorem designates_of_reaches (hkeys : ∀ key ∈ v.keys, (Segment.key key).Plain)
    (hp : ∃ node, v.Reaches p node) (herr : err.path? = some p.render) : v.Designates err p := by
  intro p'
  rw [herr, Option.some.injEq]
  constructor
  · rintro ⟨⟨node', hnode'⟩, htext⟩
    obtain ⟨node, hnode⟩ := hp
    exact ((Path.render_inj (hnode.plain hkeys) (hnode'.plain hkeys)).1 htext).symm
  · rintro rfl
    exact ⟨hp, rfl⟩

end Json

namespace Descriptor

variable {d : Descriptor} {w w' : Visit}

/-- Of the nodes of a descriptor, exactly this one has the path in the error. -/
def Designates (d : Descriptor) (err : DescriptorError) (w : Visit) : Prop :=
  d.visits.filter (fun u => err.path? = some u.path.render) = [w]

theorem path_inj (hkeyed : d.Keyed) (hw : w ∈ d.visits) (hw' : w' ∈ d.visits)
    (h : w.path = w'.path) : w = w' :=
  List.inj_on_of_nodup_map (nodup_paths hkeyed []) hw hw' h

theorem designates_of_mem (hkeyed : d.Keyed) (hplain : ∀ u ∈ d.visits, u.path.Plain)
    (hw : w ∈ d.visits) (herr : err.path? = some w.path.render) : d.Designates err w := by
  have hnodup : (d.visits.map Visit.path).Nodup := nodup_paths hkeyed []
  obtain ⟨before, after, hvisits⟩ := List.append_of_mem hw
  rw [hvisits, List.map_append, List.map_cons, List.nodup_middle, List.nodup_cons,
    ← List.map_append] at hnodup
  have hother : ∀ u ∈ before ++ after, ¬err.path? = some u.path.render := by
    intro u hu htext
    have hmem : u ∈ d.visits := by
      rw [hvisits]
      exact List.perm_middle.mem_iff.2 (List.mem_cons_of_mem w hu)
    rw [herr, Option.some.injEq] at htext
    have hpath := (Path.render_inj (hplain w hw) (hplain u hmem)).1 htext
    exact hnodup.1 (List.mem_map.2 ⟨u, hu, hpath.symm⟩)
  obtain ⟨hbefore, hafter⟩ := List.forall_mem_append.1 hother
  rw [Designates, hvisits, List.filter_append, List.filter_cons_of_pos (by simpa using herr),
    List.filter_eq_nil_iff.2 (by simpa using hbefore),
    List.filter_eq_nil_iff.2 (by simpa using hafter), List.nil_append]

/-- In a value and in what is read from it, an error about a node designates the same node. -/
theorem ReadFrom.designates {v : Json} (h : d.ReadFrom limit v) (hkeyed : d.Keyed)
    (hkeys : ∀ key ∈ v.keys, (Segment.key key).Plain) (hw : w ∈ d.visits)
    (herr : err.path? = some w.path.render) : v.Designates err w.path ∧ d.Designates err w :=
  ⟨Json.designates_of_reaches hkeys ((h.addresses w.path).2 ⟨w.node, hw⟩) herr,
    designates_of_mem hkeyed (h.plain hkeys) hw herr⟩

end Descriptor

namespace Compiler

variable {c : Compiler} {d : Descriptor} {e : Engine} {w : Visit}

theorem path?_of_fault (h : c.fault? w = some err) : err.path? = some w.path.render := by
  unfold fault? at h
  split at h
  · cases h
    rfl
  · split at h
    · split at h
      · cases h
        rfl
      · split at h
        · cases h
          rfl
        · cases h
    · cases h

theorem exists_fault (h : (c.compile d e).result = .error err) :
    ∃ w ∈ d.visits, c.fault? w = some err := by
  rw [← error?_eq_some_iff, compile_error?] at h
  exact List.exists_of_findSome?_eq_some h

/-- Different plain addresses are written differently.  Where all keys are plain, the path in an
error of reading or compiling is that of the node that is at fault, and of no other.  A value and
the descriptor read from it have the same nodes at the same addresses, so that an error of either
kind designates one and the same node in both. -/
theorem errorPaths_spec :
    (∀ p p' : Path, p.Plain → p'.Plain → (p.render = p'.render ↔ p = p')) ∧
    (∀ d : Descriptor, d.Keyed → (∀ key ∈ d.keys, (Segment.key key).Plain) →
      ∀ (c : Compiler) e err, (c.compile d e).result = .error err →
        ∃ w, c.fault? w = some err ∧ d.Designates err w) ∧
    ∀ v : Json, v.Canonical → (∀ key ∈ v.keys, (Segment.key key).Plain) →
      (∀ limit err, Descriptor.ofJson limit v = .error err →
        ∃ p, v.Offends limit p err ∧ v.Designates err p) ∧
      ∀ limit d, Descriptor.ofJson limit v = .ok d → d.ReadFrom limit v ∧
        (∀ w ∈ d.visits, ∀ w' ∈ d.visits, ∀ limit' err (c : Compiler) err',
          v.Offends limit' w.path err → c.fault? w' = some err' →
            (err.path? = err'.path? ↔ w = w')) ∧
        (∀ limit' err, Descriptor.ofJson limit' v = .error err →
          ∃ w, v.Offends limit' w.path err ∧ v.Designates err w.path ∧ d.Designates err w) ∧
        ∀ (c : Compiler) e err, (c.compile d e).result = .error err →
          ∃ w, c.fault? w = some err ∧ v.Designates err w.path ∧ d.Designates err w := by
  refine ⟨fun p p' => Path.render_inj, fun d hkeyed hkeys c e err h => ?_, fun v hv hkeys =>
    ⟨fun limit err h => ?_, fun limit d hread => ?_⟩⟩
  · obtain ⟨w, hw, hfault⟩ := exists_fault h
    exact ⟨w, hfault, Descriptor.designates_of_mem hkeyed
      (fun u => Descriptor.plain_of_mem_visits hkeys) hw (path?_of_fault hfault)⟩
  · obtain ⟨p, hp⟩ := Json.exists_offends hv h
    exact ⟨p, hp, Json.designates_of_reaches hkeys hp.reaches hp.path?_eq⟩
  · have hfrom : d.ReadFrom limit v := Descriptor.readFrom_of_ofJson hv hread
    have hkeyed : d.Keyed := Descriptor.keyed_of_ofJson hv hread
    refine ⟨hfrom, fun w hw w' hw' limit' err c err' hoffends hfault => ?_, fun limit' err h => ?_,
      fun c e err h => ?_⟩
    · rw [hoffends.path?_eq, path?_of_fault hfault, Option.some.injEq,
        Path.render_inj (hfrom.plain hkeys w hw) (hfrom.plain hkeys w' hw')]
      exact ⟨Descriptor.path_inj hkeyed hw hw', congrArg Visit.path⟩
    · obtain ⟨p, hp⟩ := Json.exists_offends hv h
      obtain ⟨x, hx⟩ := (hfrom.addresses p).1 hp.reaches
      exact ⟨⟨p, x⟩, hp, hfrom.designates hkeyed hkeys hx hp.path?_eq⟩
    · obtain ⟨w, hw, hfault⟩ := exists_fault h
      exact ⟨w, hfault, hfrom.designates hkeyed hkeys hw (path?_of_fault hfault)⟩

/-- A value with a key that is empty and one that ends like an index. -/
def awkward : Json :=
  .array [.object [("", .array [.object [("actionName", .string "modal")]]), ("0]", .array [])]]

/-- What it is read as. -/
def awkwardTree : Descriptor :=
  .sequence [.parallel [("", .sequence [.action ⟨"modal", .null⟩]), ("0]", .sequence [])]]

/-- The group under the empty key is too deep for two levels, and the action in it cannot be built.
Each error designates its node. -/
theorem errorPaths_spec_awkward :
    awkward.Canonical ∧ (∀ key ∈ awkward.keys, (Segment.key key).Plain) ∧
    Descriptor.ofJson 3 awkward = .ok awkwardTree ∧
    awkwardTree.Keyed ∧ (∀ key ∈ awkwardTree.keys, (Segment.key key).Plain) ∧
    Path.render [.index 0, .key ""] ≠ Path.render [.index 0, .key "0]"] ∧
    Descriptor.ofJson 2 awkward = .error (.tooDeep "$[0]." 2) ∧
    awkward.Designates (.tooDeep "$[0]." 2) [.index 0, .key ""] ∧
    ((stopping 3).compile awkwardTree (Engine.ofCapacity 1)).result =
      .error (.unknownAction "$[0].[0]" "modal") ∧
    awkward.Designates (.unknownAction "$[0].[0]" "modal") [.index 0, .key "", .index 0] ∧
    ∃ w, (stopping 3).fault? w = some (.unknownAction "$[0].[0]" "modal") ∧
      awkwardTree.Designates (.unknownAction "$[0].[0]" "modal") w := by
  have hcanonical : awkward.Canonical :=
    ⟨⟨by decide, ⟨⟨by decide, trivial, trivial⟩, trivial⟩, trivial, trivial⟩, trivial⟩
  have hkeys : ∀ key ∈ awkward.keys, (Segment.key key).Plain := by decide
  have hread : Descriptor.ofJson 3 awkward = .ok awkwardTree := rfl
  have hkeyed : awkwardTree.Keyed :=
    ⟨⟨by decide, ⟨trivial, trivial⟩, trivial, trivial⟩, trivial⟩
  have hkeys' : ∀ key ∈ awkwardTree.keys, (Segment.key key).Plain := by decide
  have htooDeep : Descriptor.ofJson 2 awkward = .error (.tooDeep "$[0]." 2) := rfl
  have hunknown : ((stopping 3).compile awkwardTree (Engine.ofCapacity 1)).result =
      .error (.unknownAction "$[0].[0]" "modal") := rfl
  obtain ⟨hrender, htyped, hvalue⟩ := errorPaths_spec
  obtain ⟨-, hboth⟩ := hvalue awkward hcanonical hkeys
  obtain ⟨hfrom, -, hreading, hcompiling⟩ := hboth 3 _ hread
  refine ⟨hcanonical, hkeys, hread, hkeyed, hkeys', ?_, htooDeep, ?_, hunknown, ?_,
    htyped _ hkeyed hkeys' _ _ _ hunknown⟩
  · rw [ne_eq, hrender _ _ (by decide) (by decide)]
    decide
  · obtain ⟨w, -, hw, -⟩ := hreading 2 _ htooDeep
    have hnode : ∃ node, awkward.Reaches [.index 0, .key ""] node :=
      (hfrom.addresses _).2 ⟨_, .tail _ (.tail _ (.head _))⟩
    rwa [(hw [.index 0, .key ""]).1 ⟨hnode, rfl⟩]
  · obtain ⟨w, -, hw, -⟩ := hcompiling _ _ _ hunknown
    have hnode : ∃ node, awkward.Reaches [.index 0, .key "", .index 0] node :=
      (hfrom.addresses _).2 ⟨_, .tail _ (.tail _ (.tail _ (.head _)))⟩
    rwa [(hw [.index 0, .key "", .index 0]).1 ⟨hnode, rfl⟩]

end Compiler

end Rundown
