import Rundown.Proofs.Compiler
import Rundown.Proofs.Descriptor.Visits

/-!
# The first node that cannot be compiled

Compiling visits the nodes of a descriptor in order and stops at the first that cannot be compiled
(`Compiler.fault?`).  It calls the constructor of every registered reference that it visits
(`Compiler.call?`), the refused one included.  `Compiler.firstFault_spec` says so for whole
descriptors, and what an accepted descriptor has become.

A part of a compilation is described by the nodes that it visits (`Compiler.Surveys`).  Such parts
follow one another as their nodes do (`Surveys.bind`).
-/

namespace Rundown

namespace Compiler

variable {α β : Type} {c : Compiler} {m : CompileM α} {f : α → CompileM β} {vs ws : List Visit}

/-- What is wrong with a node: it is too deep, its action is not registered, or the constructor of
its action refuses the options. -/
def fault? (c : Compiler) (v : Visit) : Option DescriptorError :=
  if v.TooDeep c.config.maxDepth then some (.tooDeep v.path.render c.config.maxDepth)
  else
    match v.node with
    | .action ref =>
      match c.registry.resolve ref.name with
      | none => some (.unknownAction v.path.render ref.name)
      | some constructor =>
        match constructor ref.options with
        | .error e => some (.invalidOptions v.path.render ref.name e.message)
        | .ok _ => none
    | _ => none

/-- The constructor call for a node, if it refers to a registered action. -/
def call? (c : Compiler) (v : Visit) : Option Construction :=
  match v.node with
  | .action ref =>
    (c.registry.resolve ref.name).map fun constructor => ⟨ref, constructor ref.options⟩
  | _ => none

/-- The constructor calls for nodes up to the first that cannot be compiled. -/
def callsFor (c : Compiler) : List Visit → List Construction
  | [] => []
  | v :: rest => (c.call? v).toList ++ if (c.fault? v).isSome then [] else c.callsFor rest

theorem callsFor_append : c.callsFor (vs ++ ws) =
    c.callsFor vs ++ if (vs.findSome? c.fault?).isSome then [] else c.callsFor ws := by
  induction vs with
  | nil => rfl
  | cons v rest ih =>
    rw [List.cons_append, callsFor, callsFor, ih, List.findSome?_cons]
    cases c.fault? v with
    | none => simp only [Option.isSome_none, Bool.false_eq_true, if_false, List.append_assoc]
    | some err => simp only [Option.isSome_some, if_true, List.append_nil]

/-- Without a fault among the nodes, every registered reference gets its call. -/
theorem callsFor_eq (h : ∀ v ∈ vs, c.fault? v = none) : c.callsFor vs = vs.filterMap c.call? := by
  induction vs with
  | nil => rfl
  | cons v rest ih =>
    rw [List.forall_mem_cons] at h
    rw [callsFor, h.1, ih h.2, List.filterMap_cons]
    cases c.call? v <;> rfl

/-- The node with the first fault gets its call too. -/
theorem callsFor_fault {v : Visit} {after : List Visit} (hbefore : ∀ u ∈ vs, c.fault? u = none)
    (hfault : c.fault? v ≠ none) :
    c.callsFor (vs ++ v :: after) = (vs ++ [v]).filterMap c.call? := by
  have hnone : vs.findSome? c.fault? = none := List.findSome?_eq_none_iff.2 hbefore
  rw [callsFor_append, hnone, callsFor, if_pos (Option.isSome_iff_ne_none.2 hfault),
    callsFor_eq hbefore, List.filterMap_append, List.filterMap_cons, List.filterMap_nil,
    Option.isSome_none, if_neg Bool.false_ne_true, List.append_nil]
  cases c.call? v <;> rfl

/-! ## Parts of a compilation -/

/-- The error with which a part of a compilation fails. -/
def error? : Except DescriptorError α → Option DescriptorError
  | .ok _ => none
  | .error err => some err

theorem error?_eq_none_iff {r : Except DescriptorError α} : error? r = none ↔ ∃ a, r = .ok a := by
  cases r <;> simp [error?]

theorem error?_eq_some_iff {r : Except DescriptorError α} {err : DescriptorError} :
    error? r = some err ↔ r = .error err := by
  cases r <;> simp [error?]

/-- The part of a compilation visits these nodes: it makes the calls for them, and fails with the
first fault among them or not at all. -/
def Surveys (c : Compiler) (m : CompileM α) (vs : List Visit) : Prop :=
  ∀ shop, (m.run.run shop).2.calls = shop.calls ++ c.callsFor vs ∧
    error? (m.run.run shop).1 = vs.findSome? c.fault?

theorem Surveys.pure (a : α) : c.Surveys (pure a) [] := by
  intro shop
  exact ⟨(List.append_nil _).symm, rfl⟩

theorem Surveys.bind (hm : c.Surveys m vs) (hf : ∀ a, c.Surveys (f a) ws) :
    c.Surveys (m >>= f) (vs ++ ws) := by
  intro shop
  obtain ⟨hcalls, herror⟩ := hm shop
  rw [run_bind, callsFor_append, List.findSome?_append, ← herror]
  rcases hrun : m.run.run shop with ⟨err | a, mid⟩
  · rw [hrun] at hcalls
    exact ⟨by simpa [error?] using hcalls, rfl⟩
  · rw [hrun] at hcalls
    obtain ⟨hcalls', herror'⟩ := hf a mid
    refine ⟨?_, herror'⟩
    rw [hcalls', hcalls, List.append_assoc]
    rfl

theorem Surveys.map (g : α → β) (hm : c.Surveys m vs) :
    c.Surveys (m >>= fun a => Pure.pure (g a)) vs :=
  List.append_nil vs ▸ hm.bind fun _ => .pure _

theorem build_surveys {path : Path} {ref : ActionRef}
    (hroot : ¬(path = [] ∧ c.config.maxDepth = 0)) :
    c.Surveys (c.build path ref) [⟨path, .action ref⟩] := by
  intro shop
  have hlevel : ¬Visit.TooDeep c.config.maxDepth ⟨path, .action ref⟩ :=
    fun h => hroot ((Visit.tooDeep_action rfl).1 h)
  simp only [callsFor, List.findSome?_cons, List.findSome?_nil, fault?, call?, if_neg hlevel,
    ite_self]
  unfold build
  cases hr : c.registry.resolve ref.name with
  | none => exact ⟨(List.append_nil _).symm, rfl⟩
  | some constructor =>
    dsimp only [Option.map_some]
    cases constructor ref.options with
    | error err => exact ⟨rfl, rfl⟩
    | ok action => exact ⟨rfl, rfl⟩

/-- Looking at the level of a group is all that is done for the group itself. -/
theorem checkLevel_surveys {path : Path} {d : Descriptor} (hkind : d.kind ≠ .action) :
    c.Surveys (c.checkLevel path (path.length + 1)) [⟨path, d⟩] := by
  have hcall : c.call? ⟨path, d⟩ = none := by
    cases d <;> first | rfl | exact absurd rfl hkind
  have hfault : c.fault? ⟨path, d⟩ = if c.config.maxDepth < path.length + 1 then
      some (.tooDeep path.render c.config.maxDepth) else none := by
    unfold fault?
    simp only [Visit.tooDeep_group hkind]
    split
    · rfl
    · cases d <;> first | rfl | exact absurd rfl hkind
  intro shop
  rw [callsFor, hcall, callsFor, ite_self, List.findSome?_cons, hfault]
  unfold checkLevel
  split
  · exact ⟨(List.append_nil _).symm, rfl⟩
  · exact ⟨(List.append_nil _).symm, rfl⟩

/-- A node of an ancestor's level is not the root. -/
theorem not_root {path : Path} {segment : Segment} {limit : Nat} :
    ¬(path ++ [segment] = [] ∧ limit = 0) :=
  fun h => List.append_ne_nil_of_right_ne_nil path (List.cons_ne_nil _ _) h.1

mutual

theorem compileNode_surveys (path : Path) (hroot : ¬(path = [] ∧ c.config.maxDepth = 0)) :
    ∀ d : Descriptor, c.Surveys (c.compileNode path (path.length + 1) d) (d.visitsAt path)
  | .action ref => by
    rw [compileNode]
    exact (build_surveys hroot).map _
  | .instance a => by
    have hfault : c.fault? ⟨path, .instance a⟩ = none := by
      unfold fault?
      rw [if_neg fun h => hroot ((Visit.tooDeep_action rfl).1 h)]
    intro shop
    rw [compileNode, Descriptor.visitsAt, callsFor_eq (by simpa using hfault), List.findSome?_cons,
      hfault]
    exact ⟨(List.append_nil _).symm, rfl⟩
  | .sequence nodes => by
    rw [compileNode, Descriptor.visitsAt]
    exact (checkLevel_surveys fun h => by cases h).bind fun _ => (compileNodes_surveys _ _ _).map _
  | .parallel branches => by
    rw [compileNode, Descriptor.visitsAt]
    exact (checkLevel_surveys fun h => by cases h).bind fun _ => (compileBranches_surveys _ _).map _

theorem compileNodes_surveys (path : Path) (index : Nat) :
    ∀ nodes : List Descriptor, c.Surveys (c.compileNodes path (path.length + 1) index nodes)
      (Descriptor.visitsNodes path index nodes)
  | [] => .pure _
  | node :: rest => by
    have hnode := compileNode_surveys (path ++ [.index index]) not_root node
    rw [List.length_append] at hnode
    rw [compileNodes, Descriptor.visitsNodes]
    exact hnode.bind fun _ => (compileNodes_surveys path (index + 1) rest).map _

theorem compileBranches_surveys (path : Path) :
    ∀ branches : List (String × Descriptor),
      c.Surveys (c.compileBranches path (path.length + 1) branches)
        (Descriptor.visitsBranches path branches)
  | [] => .pure _
  | (key, node) :: rest => by
    have hnode := compileNode_surveys (path ++ [.key key]) not_root node
    rw [List.length_append] at hnode
    rw [compileBranches, Descriptor.visitsBranches]
    exact hnode.bind fun _ => (compileBranches_surveys path rest).map _

end

/-! ## Whole descriptors -/

section

variable {d : Descriptor} {e e' : Engine} {id : PlaylistId} {err : DescriptorError}

/-- Where a level is allowed, all nodes are visited. -/
theorem compileRoot_surveys (hdepth : c.config.maxDepth ≠ 0) :
    c.Surveys (c.compileRoot d) d.visits := by
  have hroot : ¬(([] : Path) = [] ∧ c.config.maxDepth = 0) := fun h => hdepth h.2
  have hnode : c.Surveys (c.compileNode [] 1 d) d.visits := compileNode_surveys [] hroot d
  have hlevel : c.checkLevel [] 1 = pure () := if_neg (by omega)
  unfold compileRoot
  split
  · rw [hlevel]
    exact (Surveys.pure ()).bind fun _ => hnode.map _
  · exact hnode

/-- Where no level is allowed, the root is refused before anything is built. -/
theorem compileRoot_refused (hdepth : c.config.maxDepth = 0) (shop : Workshop) :
    (c.compileRoot d).run.run shop = (.error (.tooDeep (Path.render []) 0), shop) := by
  have first (f : Unit → CompileM Step) : (c.checkLevel [] 1 >>= f).run.run shop =
      (.error (.tooDeep (Path.render []) 0), shop) := by
    have hlevel : c.checkLevel [] 1 = throw (.tooDeep (Path.render []) 0) := by
      unfold checkLevel
      rw [if_pos (by omega), hdepth]
    rw [hlevel, run_bind]
    rfl
  cases d with
  | action ref => exact first _
  | «instance» a => exact first _
  | sequence nodes => exact first _
  | parallel branches => exact first _

/-- Compiling fails with the first fault, or not at all. -/
theorem compile_error? : error? (c.compile d e).result = d.visits.findSome? c.fault? := by
  have hresult : error? (c.compile d e).result =
      error? ((c.compileRoot d).run.run ⟨e.world.instances.length, []⟩).1 := by
    unfold compile
    rcases (c.compileRoot d).run.run ⟨e.world.instances.length, []⟩ with ⟨error | root, shop⟩ <;>
      rfl
  rw [hresult]
  by_cases hdepth : c.config.maxDepth = 0
  · obtain ⟨below, hbelow⟩ := d.exists_visits_eq
    have hfault : c.fault? ⟨[], d⟩ = some (.tooDeep (Path.render []) 0) := by
      unfold fault?
      rw [if_pos (.inr ⟨rfl, hdepth⟩), hdepth]
    rw [compileRoot_refused hdepth, hbelow, List.findSome?_cons, hfault]
    rfl
  · exact (compileRoot_surveys hdepth _).2

theorem compile_calls : (c.compile d e).calls =
    if c.config.maxDepth = 0 then [] else c.callsFor d.visits := by
  show ((c.compileRoot d).run.run ⟨e.world.instances.length, []⟩).2.calls = _
  split
  next hdepth => rw [compileRoot_refused hdepth]
  next hdepth => exact (compileRoot_surveys hdepth _).1

/-- The node `v` is the first that cannot be compiled, and `before` are the nodes visited before
it. -/
structure FirstFault (c : Compiler) (d : Descriptor) (before : List Visit) (v : Visit)
    (err : DescriptorError) : Prop where
  visits : ∃ after, d.visits = before ++ v :: after
  clean : ∀ u ∈ before, c.fault? u = none
  fault : c.fault? v = some err

/-- What compiling adds to the engine: a playlist of the descriptor, whose leaves are the actions
that the descriptor holds ready built and, for its references in order, the actions built for
them. -/
structure Adds (c : Compiler) (d : Descriptor) (calls : List Construction) (e e' : Engine)
    (id : PlaylistId) : Prop where
  id : id = e.playlists.length
  playlist : ∃ root, e'.playlists = e.playlists ++ [⟨d, root, 1⟩] ∧
    root.plan = d.rootPlan e.world.instances.length
  instances : e'.world.instances =
    e.world.instances ++ (built calls).map fun action => ⟨action, false, none, 1⟩
  builds : List.Forall₂ c.Builds d.refs (built calls)

theorem compile_adds (h : (c.compile d e).result = .ok (e', id)) :
    c.Adds d (c.compile d e).calls e e' id := by
  obtain ⟨root, shop, hyields, hid, rfl⟩ := compile_ok h
  have hcalls : (c.compile d e).calls = shop.calls := congrArg (fun run => run.2.calls) hyields
  have hrooted := compileRoot_yields hyields
  obtain ⟨actions, hactions, hbuilds⟩ := hrooted.grown.built
  rw [hcalls]
  refine ⟨hid, ⟨root, rfl, hrooted.plan⟩, addActions_instances _ _, ?_⟩
  rw [hactions]
  exact hbuilds

/-- Compiling succeeds exactly when no node has a fault, and fails with the first fault otherwise.
Every registered reference up to there is built, in order and once, unless no level is allowed. -/
theorem firstFault_spec (c : Compiler) (d : Descriptor) (e : Engine) :
    ((∃ r, (c.compile d e).result = .ok r) ↔ ∀ v ∈ d.visits, c.fault? v = none) ∧
    (∀ err, (c.compile d e).result = .error err ↔ ∃ before v, c.FirstFault d before v err) ∧
    (∀ before v err, c.FirstFault d before v err → (c.compile d e).calls =
      if c.config.maxDepth = 0 then [] else (before ++ [v]).filterMap c.call?) ∧
    ∀ e' id, (c.compile d e).result = .ok (e', id) →
      (c.compile d e).calls = d.visits.filterMap c.call? ∧
        c.Adds d (c.compile d e).calls e e' id := by
  have hok : (∃ r, (c.compile d e).result = .ok r) ↔ ∀ v ∈ d.visits, c.fault? v = none := by
    rw [← error?_eq_none_iff, compile_error?, List.findSome?_eq_none_iff]
  refine ⟨hok, fun err => ?_, fun before v err h => ?_, fun e' id h => ⟨?_, compile_adds h⟩⟩
  · rw [← error?_eq_some_iff, compile_error?, List.findSome?_eq_some_iff]
    constructor
    · rintro ⟨before, v, after, hvisits, hfault, hclean⟩
      exact ⟨before, v, ⟨after, hvisits⟩, hclean, hfault⟩
    · rintro ⟨before, v, ⟨after, hvisits⟩, hclean, hfault⟩
      exact ⟨before, v, after, hvisits, hfault, hclean⟩
  · obtain ⟨⟨after, hvisits⟩, hclean, hfault⟩ := h
    rw [compile_calls, hvisits, callsFor_fault hclean (hfault ▸ Option.some_ne_none err)]
  · have hdepth : c.config.maxDepth ≠ 0 :=
      Nat.one_le_iff_ne_zero.1 (compile_succeeds_iff.1 ⟨_, h⟩).1
    rw [compile_calls, if_neg hdepth, callsFor_eq (hok.1 ⟨_, h⟩)]

end

/-- A compiler that knows one action and allows so many levels. -/
def stopping (levels : Nat) : Compiler :=
  ⟨Registry.empty.register "stop" Action.stopOf, ⟨.failFast, levels⟩⟩

/-- Options that are accepted. -/
def halt : ActionRef := ⟨"stop", .object [("reason", .string "enough")]⟩

/-- An action that nobody has registered, in the second branch of a group. -/
def misnamed : Descriptor :=
  .sequence [.action halt,
    .parallel [("a", .instance 0), ("b", .action ⟨"modal", .null⟩), ("c", .action halt)]]

/-- What comes before that action is built, and what comes after it is not. -/
theorem firstFault_spec_misnamed :
    ((stopping 2).compile misnamed (Engine.ofCapacity 1)).result =
        .error (.unknownAction "$[1].b" "modal") ∧
      ((stopping 2).compile misnamed (Engine.ofCapacity 1)).calls.map Construction.ref =
        [halt] := by
  have hfirst : (stopping 2).FirstFault misnamed (misnamed.visits.take 4)
      ⟨[.index 1, .key "b"], .action ⟨"modal", .null⟩⟩ (.unknownAction "$[1].b" "modal") :=
    ⟨⟨_, rfl⟩, by decide, rfl⟩
  obtain ⟨-, herror, hcalls, -⟩ := firstFault_spec (stopping 2) misnamed (Engine.ofCapacity 1)
  refine ⟨(herror _).2 ⟨_, _, hfirst⟩, ?_⟩
  rw [hcalls _ _ _ hfirst]
  rfl

/-- Where no level is allowed, an action alone is refused unbuilt, although it is registered. -/
theorem refused_root_unbuilt :
    ¬∀ before v err, (stopping 0).FirstFault (.action halt) before v err →
      ((stopping 0).compile (.action halt) (Engine.ofCapacity 1)).calls =
        (before ++ [v]).filterMap (stopping 0).call? := by
  intro h
  have hcalls := h [] ⟨[], .action halt⟩ (.tooDeep "$" 0) ⟨⟨[], rfl⟩, nofun, rfl⟩
  exact absurd (congrArg List.length hcalls) (by decide)

end Compiler

end Rundown
