import Rundown.Proofs.Compiler.FirstFault

/-!
# Two routes from a value to a playlist

A value can be compiled at once, or read first, with a limit of its own, and then compiled.  The
limit of the compiler is looked at on the value in the first case and on the descriptor in the
second.  `Compiler.routes_spec` says that both ways come to the same.

What connects them is that a value read with a lower limit gives the same descriptor, or is refused
at the first group of that descriptor that the lower limit does not allow
(`Descriptor.ofJsonAt_narrows`).
-/

namespace Rundown

/-- Whether the node is a group beyond the limit. -/
def Visit.isBeyond (limit : Nat) (v : Visit) : Bool := v.node.kind ≠ .action && limit < v.level

theorem Visit.isBeyond_group {limit : Nat} {path : Path} {d : Descriptor} (h : d.kind ≠ .action) :
    isBeyond limit ⟨path, d⟩ = true ↔ limit < path.length + 1 := by
  unfold isBeyond
  rw [Bool.and_eq_true, decide_eq_true_iff, decide_eq_true_iff]
  exact and_iff_right h

namespace Descriptor

variable {α β γ : Type} {m n : Nat} {nodesOf : α → List Visit} {nodesOf' : β → List Visit}
  {nodesOf'' : γ → List Visit} {r r' : Except DescriptorError α} {s s' : Except DescriptorError β}

/-- The error at the first of the nodes that is a group beyond the limit. -/
def beyond? (limit : Nat) (vs : List Visit) : Option DescriptorError :=
  (vs.find? (Visit.isBeyond limit)).map fun v => .tooDeep v.path.render limit

/-- The reading `r` with the limit `m` against the reading `r'` with a higher one: it fails where
the other does, and otherwise at the first node beyond its own limit or not at all. -/
def Narrows (m : Nat) (nodesOf : α → List Visit) (r r' : Except DescriptorError α) : Prop :=
  match r' with
  | .ok a => r = match beyond? m (nodesOf a) with
    | none => .ok a
    | some err => .error err
  | .error _ => ∃ err, r = .error err

theorem beyond?_append {limit : Nat} {vs ws : List Visit} :
    beyond? limit (vs ++ ws) = (beyond? limit vs).or (beyond? limit ws) := by
  unfold beyond?
  rw [List.find?_append]
  cases vs.find? (Visit.isBeyond limit) <;> rfl

/-- One reading after another. -/
theorem Narrows.both (hr : Narrows m nodesOf r r') (hs : Narrows m nodesOf' s s') (f : α → β → γ)
    (hf : ∀ a b, nodesOf'' (f a b) = nodesOf a ++ nodesOf' b) :
    Narrows m nodesOf'' (r >>= fun a => s >>= fun b => .ok (f a b))
      (r' >>= fun a => s' >>= fun b => .ok (f a b)) := by
  cases r' with
  | error err =>
    obtain ⟨err', rfl⟩ := hr
    exact ⟨err', rfl⟩
  | ok a =>
    have hr : r = _ := hr
    cases s' with
    | error err =>
      obtain ⟨err', rfl⟩ := hs
      subst hr
      cases beyond? m (nodesOf a) with
      | none => exact ⟨err', rfl⟩
      | some err => exact ⟨err, rfl⟩
    | ok b =>
      have hs : s = _ := hs
      show _ = _
      rw [hf, beyond?_append, hr, hs]
      cases beyond? m (nodesOf a) with
      | none => cases beyond? m (nodesOf' b) <;> rfl
      | some err => rfl

/-- A group, before what is in it. -/
theorem Narrows.group {path : Path} {f : α → Descriptor} (hmn : m ≤ n)
    (hkind : ∀ a, (f a).kind ≠ .action)
    (hf : ∀ a, (f a).visitsAt path = ⟨path, f a⟩ :: nodesOf a) (h : Narrows m nodesOf r r') :
    Narrows m (visitsAt path)
      (if m < path.length + 1 then .error (.tooDeep path.render m) else f <$> r)
      (if n < path.length + 1 then .error (.tooDeep path.render n) else f <$> r') := by
  split
  next hm =>
    split
    next => exact ⟨_, rfl⟩
    next hn =>
      cases r' with
      | error err => exact ⟨_, rfl⟩
      | ok a =>
        show _ = _
        rw [hf, beyond?, List.find?_cons_of_pos ((Visit.isBeyond_group (hkind a)).2 hm)]
        rfl
  next hm =>
    rw [if_neg (by omega)]
    cases r' with
    | error err =>
      obtain ⟨err', rfl⟩ := h
      exact ⟨err', rfl⟩
    | ok a =>
      have h : r = _ := h
      show _ = _
      rw [hf, beyond?, List.find?_cons_of_neg fun hb => hm ((Visit.isBeyond_group (hkind a)).1 hb),
        h, ← beyond?]
      cases beyond? m (nodesOf a) <;> rfl

mutual

theorem ofJsonAt_narrows (hmn : m ≤ n) (path : Path) : ∀ v : Json,
    Narrows m (visitsAt path) (ofJsonAt m path (path.length + 1) v)
      (ofJsonAt n path (path.length + 1) v)
  | .null => ⟨_, rfl⟩
  | .bool _ => ⟨_, rfl⟩
  | .int _ => ⟨_, rfl⟩
  | .float _ => ⟨_, rfl⟩
  | .string _ => ⟨_, rfl⟩
  | .array items => by
    rw [ofJsonAt, ofJsonAt]
    exact (ofJsonItems_narrows hmn path 0 items).group hmn nofun fun _ => rfl
  | .object fields => by
    rw [ofJsonAt, ofJsonAt]
    cases fields.lookup ActionRef.nameKey with
    | none => exact (ofJsonBranches_narrows hmn path fields).group hmn nofun fun _ => rfl
    | some name =>
      cases name with
      | string name => exact rfl
      | null | bool | int | float | array | object => exact ⟨_, rfl⟩

theorem ofJsonItems_narrows (hmn : m ≤ n) (path : Path) (index : Nat) : ∀ items : List Json,
    Narrows m (visitsNodes path index) (ofJsonItems m path (path.length + 1) index items)
      (ofJsonItems n path (path.length + 1) index items)
  | [] => rfl
  | item :: rest => by
    have hitem := ofJsonAt_narrows hmn (path ++ [.index index]) item
    rw [List.length_append] at hitem
    rw [ofJsonItems, ofJsonItems]
    exact hitem.both (ofJsonItems_narrows hmn path (index + 1) rest) List.cons fun _ _ => rfl

theorem ofJsonBranches_narrows (hmn : m ≤ n) (path : Path) : ∀ fields : List (String × Json),
    Narrows m (visitsBranches path) (ofJsonBranches m path (path.length + 1) fields)
      (ofJsonBranches n path (path.length + 1) fields)
  | [] => rfl
  | (key, value) :: rest => by
    have hvalue := ofJsonAt_narrows hmn (path ++ [.key key]) value
    rw [List.length_append] at hvalue
    rw [ofJsonBranches, ofJsonBranches]
    exact hvalue.both (ofJsonBranches_narrows hmn path rest)
      (fun node branches => (key, node) :: branches) fun _ _ => rfl

end

theorem ofJson_narrows (hmn : m ≤ n) (v : Json) :
    Narrows m visits (ofJson m v) (ofJson n v) :=
  ofJsonAt_narrows hmn [] v

/-- What is read with one limit is read with every higher limit, as the same descriptor. -/
theorem ofJson_mono {v : Json} {t : Descriptor} (hmn : m ≤ n) (h : ofJson m v = .ok t) :
    ofJson n v = .ok t := by
  have hnarrows := ofJson_narrows hmn v
  cases hn : ofJson n v with
  | error err =>
    rw [hn] at hnarrows
    obtain ⟨err', herr⟩ := hnarrows
    rw [h] at herr
    cases herr
  | ok t' =>
    rw [hn] at hnarrows
    have hm : ofJson m v = _ := hnarrows
    rw [h] at hm
    split at hm <;> cases hm
    rfl

variable {ref : ActionRef} {p : Path}

mutual

theorem mem_refs_of_visitsAt (path : Path) :
    ∀ d : Descriptor, ⟨p, .action ref⟩ ∈ d.visitsAt path → ref ∈ d.refs
  | action ref', h => by
    cases List.mem_singleton.1 h
    exact List.mem_singleton_self _
  | .instance a, h => by cases List.mem_singleton.1 h
  | sequence nodes, h =>
    (List.mem_cons.1 h).elim (fun heq => by cases heq) (mem_refs_of_visitsNodes path 0 nodes)
  | parallel branches, h =>
    (List.mem_cons.1 h).elim (fun heq => by cases heq) (mem_refs_of_visitsBranches path branches)

theorem mem_refs_of_visitsNodes (path : Path) (index : Nat) :
    ∀ nodes : List Descriptor, ⟨p, .action ref⟩ ∈ visitsNodes path index nodes →
      ref ∈ refsNodes nodes
  | [], h => by cases h
  | node :: rest, h => List.mem_append.2 <| (List.mem_append.1 h).imp
      (mem_refs_of_visitsAt _ node) (mem_refs_of_visitsNodes path (index + 1) rest)

theorem mem_refs_of_visitsBranches (path : Path) :
    ∀ branches : List (String × Descriptor), ⟨p, .action ref⟩ ∈ visitsBranches path branches →
      ref ∈ refsBranches branches
  | [], h => by cases h
  | (_, node) :: rest, h => List.mem_append.2 <| (List.mem_append.1 h).imp
      (mem_refs_of_visitsAt _ node) (mem_refs_of_visitsBranches path rest)

end

end Descriptor

namespace Compiler

variable {c : Compiler} {v : Json} {n : Nat} {t : Descriptor} {e : Engine}

/-- A descriptor with a group beyond the limit does not compile. -/
theorem compile_beyond {err : DescriptorError}
    (h : Descriptor.beyond? c.config.maxDepth t.visits = some err) :
    ∃ err', (c.compile t e).result = .error err' := by
  obtain ⟨w, hw, -⟩ := Option.map_eq_some_iff.1 h
  have hbeyond := List.find?_some hw
  unfold Visit.isBeyond at hbeyond
  rw [Bool.and_eq_true, decide_eq_true_iff, decide_eq_true_iff] at hbeyond
  have hfault : c.fault? w ≠ none := by
    unfold fault?
    rw [if_pos (.inl hbeyond)]
    exact Option.some_ne_none _
  have herror : error? (c.compile t e).result ≠ none := by
    rw [compile_error?, ne_eq, List.findSome?_eq_none_iff]
    exact fun hall => hfault (hall w (List.mem_of_find?_eq_some hw))
  obtain ⟨err', herr'⟩ := Option.ne_none_iff_exists'.1 herror
  exact ⟨err', error?_eq_some_iff.1 herr'⟩

/-- A node whose action can be built is at fault only when it is too deep. -/
theorem fault?_of_builds {w : Visit}
    (h : ∀ ref, w.node = .action ref → ∃ action, c.Builds ref action) :
    c.fault? w = if w.TooDeep c.config.maxDepth then
      some (.tooDeep w.path.render c.config.maxDepth) else none := by
  obtain ⟨p, node⟩ := w
  unfold fault?
  split
  · rfl
  · cases node with
    | action ref =>
      obtain ⟨action, constructor, hresolve, hbuilt⟩ := h ref rfl
      dsimp only
      rw [hresolve]
      dsimp only
      rw [hbuilt]
    | «instance» | sequence | parallel => rfl

theorem Buildable.builds (h : c.Buildable t.refs) :
    ∀ w ∈ t.visits, ∀ ref, w.node = .action ref → ∃ action, c.Builds ref action := by
  rintro ⟨p, node⟩ hw ref rfl
  exact h ref (Descriptor.mem_refs_of_visitsAt [] t hw)

/-- Of nodes that can be built, the first with a fault is the first group beyond the limit. -/
theorem findSome?_fault?_eq {vs : List Visit} (hdepth : c.config.maxDepth ≠ 0)
    (hbuilds : ∀ w ∈ vs, ∀ ref, w.node = .action ref → ∃ action, c.Builds ref action) :
    vs.findSome? c.fault? = Descriptor.beyond? c.config.maxDepth vs := by
  induction vs with
  | nil => rfl
  | cons w rest ih =>
    rw [List.forall_mem_cons] at hbuilds
    have hdeep : w.TooDeep c.config.maxDepth ↔ w.isBeyond c.config.maxDepth = true := by
      unfold Visit.TooDeep Visit.isBeyond
      rw [or_iff_left fun hroot => hdepth hroot.2, Bool.and_eq_true, decide_eq_true_iff,
        decide_eq_true_iff]
    rw [List.findSome?_cons, fault?_of_builds hbuilds.1, Descriptor.beyond?, List.find?_cons]
    simp only [hdeep]
    cases w.isBeyond c.config.maxDepth with
    | true => rfl
    | false => exact ih hbuilds.2

/-- If all that is referred to can be built, it fails at the first such group. -/
theorem compile_beyond_of_buildable {err : DescriptorError} (hrefs : c.Buildable t.refs)
    (h : Descriptor.beyond? c.config.maxDepth t.visits = some err) :
    (c.compile t e).result = .error err := by
  rw [← error?_eq_some_iff, compile_error?]
  by_cases hdepth : c.config.maxDepth = 0
  · -- the root comes first, and no level is allowed for it
    have hkind : t.kind ≠ .action := by
      intro hkind
      obtain ⟨w, hw, -⟩ := Option.map_eq_some_iff.1 h
      have hbeyond := List.find?_some hw
      have hmem := List.mem_of_find?_eq_some hw
      rw [Descriptor.visits_action hkind, List.mem_singleton] at hmem
      rw [hmem, Visit.isBeyond, decide_eq_false (not_not.2 hkind)] at hbeyond
      cases hbeyond
    obtain ⟨below, hbelow⟩ := t.exists_visits_eq
    rw [hbelow, Descriptor.beyond?, List.find?_cons_of_pos
      ((Visit.isBeyond_group hkind).2 (by omega))] at h
    rw [hbelow, List.findSome?_cons, fault?,
      if_pos ((Visit.tooDeep_group hkind).2 (by omega)), ← h]
    rfl
  · rw [findSome?_fault?_eq hdepth hrefs.builds, h]

/-- What the first route comes to, in terms of the second. -/
theorem compileJson_of_read (hn : c.config.maxDepth ≤ n) (h : Descriptor.ofJson n v = .ok t) :
    c.compileJson v e = match Descriptor.beyond? c.config.maxDepth t.visits with
      | none => c.compile t e
      | some err => ⟨[], .error err⟩ := by
  have hnarrows := Descriptor.ofJson_narrows hn v
  rw [h] at hnarrows
  have hread : Descriptor.ofJson c.config.maxDepth v = _ := hnarrows
  unfold compileJson
  rw [hread]
  cases Descriptor.beyond? c.config.maxDepth t.visits <;> rfl

/-- If all that is referred to can be built, only the limit is left to fail at. -/
theorem tooDeep_of_buildable {err : DescriptorError} (hrefs : c.Buildable t.refs)
    (h : (c.compile t e).result = .error err) :
    ∃ w ∈ t.visits, w.TooDeep c.config.maxDepth ∧
      err = .tooDeep w.path.render c.config.maxDepth := by
  rw [← error?_eq_some_iff, compile_error?] at h
  obtain ⟨w, hw, hfault⟩ := List.exists_of_findSome?_eq_some h
  rw [fault?_of_builds (hrefs.builds w hw)] at hfault
  split at hfault
  next htoo =>
    cases hfault
    exact ⟨w, hw, htoo, rfl⟩
  next => cases hfault

/-- Compiling a value at once succeeds exactly when it can be read with any limit from the
compiler's own on, and what has been read compiles; the playlist and the constructor calls are then
the same.  Where all that is referred to can be built, both fail alike as well, at the limit.  What
is read with one limit is read with every higher one, as the same descriptor. -/
theorem routes_spec (c : Compiler) (v : Json) (e : Engine) :
    (∀ n, c.config.maxDepth ≤ n →
      ((∃ r, (c.compileJson v e).result = .ok r) ↔
        ∃ t, Descriptor.ofJson n v = .ok t ∧ ∃ r, (c.compile t e).result = .ok r) ∧
      ∀ t, Descriptor.ofJson n v = .ok t →
        ((∃ r, (c.compileJson v e).result = .ok r) → c.compileJson v e = c.compile t e) ∧
        (c.Buildable t.refs → (c.compileJson v e).result = (c.compile t e).result ∧
          ∀ err, (c.compile t e).result = .error err →
            ∃ path, err = .tooDeep path c.config.maxDepth)) ∧
    ∀ m n t, m ≤ n → Descriptor.ofJson m v = .ok t → Descriptor.ofJson n v = .ok t := by
  refine ⟨fun n hn => ?_, fun m n t hmn => Descriptor.ofJson_mono hmn⟩
  have hsame : ∀ t, Descriptor.ofJson n v = .ok t →
      (∃ r, (c.compileJson v e).result = .ok r) → c.compileJson v e = c.compile t e := by
    rintro t ht ⟨r, hr⟩
    have hread := compileJson_of_read (e := e) hn ht
    split at hread
    · exact hread
    · rw [hread] at hr
      cases hr
  refine ⟨⟨?_, ?_⟩, fun t ht => ⟨hsame t ht, fun hrefs => ⟨?_, fun err herr => ?_⟩⟩⟩
  · rintro ⟨r, hr⟩
    obtain ⟨t, hm⟩ : ∃ t, Descriptor.ofJson c.config.maxDepth v = .ok t := by
      cases hm : Descriptor.ofJson c.config.maxDepth v with
      | ok t => exact ⟨t, rfl⟩
      | error err =>
        unfold compileJson at hr
        rw [hm] at hr
        cases hr
    have ht := Descriptor.ofJson_mono hn hm
    exact ⟨t, ht, r, hsame t ht ⟨r, hr⟩ ▸ hr⟩
  · rintro ⟨t, ht, r, hr⟩
    have hread := compileJson_of_read (e := e) hn ht
    split at hread
    · exact ⟨r, hread ▸ hr⟩
    next err hbeyond =>
      obtain ⟨err', herr'⟩ := compile_beyond (e := e) hbeyond
      rw [hr] at herr'
      cases herr'
  · have hread := compileJson_of_read (e := e) hn ht
    split at hread
    · rw [hread]
    next err hbeyond => rw [hread, compile_beyond_of_buildable hrefs hbeyond]
  · obtain ⟨w, -, -, rfl⟩ := tooDeep_of_buildable hrefs herr
    exact ⟨_, rfl⟩

/-- A sequence in a sequence. -/
def nested : Json :=
  .array [.array [.object [("actionName", .string "stop"),
    ("options", .object [("reason", .string "enough")])]]]

/-- With one level both ways end at the inner sequence, and with two they agree on the playlist. -/
theorem routes_spec_nested :
    (∃ t, Descriptor.ofJson Descriptor.defaultDepthLimit nested = .ok t ∧
      ((stopping 1).compile t (Engine.ofCapacity 1)).result = .error (.tooDeep "$[0]" 1) ∧
      ((stopping 1).compileJson nested (Engine.ofCapacity 1)).result =
        .error (.tooDeep "$[0]" 1) ∧
      (stopping 2).compileJson nested (Engine.ofCapacity 1) =
        (stopping 2).compile t (Engine.ofCapacity 1)) ∧
    ∃ t, Descriptor.ofJson 3 nested = .ok t := by
  have hread (n : Nat) (hn : 2 ≤ n) :
      Descriptor.ofJson n nested = .ok (.sequence [.sequence [.action halt]]) :=
    (routes_spec (stopping 2) nested (Engine.ofCapacity 1)).2 2 n _ hn rfl
  have hdefault := hread Descriptor.defaultDepthLimit (by decide)
  have hbuildable : (stopping 1).Buildable [halt] := by
    intro ref hmem
    cases List.mem_singleton.1 hmem
    exact ⟨_, _, rfl, rfl⟩
  obtain ⟨-, hone⟩ := (routes_spec (stopping 1) nested (Engine.ofCapacity 1)).1
    Descriptor.defaultDepthLimit (by decide)
  obtain ⟨-, htwo⟩ := (routes_spec (stopping 2) nested (Engine.ofCapacity 1)).1
    Descriptor.defaultDepthLimit (by decide)
  have hfail : ((stopping 1).compile (.sequence [.sequence [.action halt]])
      (Engine.ofCapacity 1)).result = .error (.tooDeep "$[0]" 1) := rfl
  refine ⟨⟨_, hdefault, hfail, ?_, ?_⟩, _, hread 3 (by decide)⟩
  · rw [((hone _ hdefault).2 hbuildable).1, hfail]
  · exact (htwo _ hdefault).1 ⟨_, rfl⟩

end Compiler

end Rundown
