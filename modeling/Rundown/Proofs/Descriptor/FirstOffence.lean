import Rundown.Proofs.Json.Address
import Rundown.Proofs.Members

/-!
# The first node that is no node of a descriptor

`Descriptor.ofJson` reads a descriptor from a value.  `Descriptor.firstOffence_spec` says when it
succeeds and what it reports otherwise, in terms of single addresses: it fails with the error of the
offending address (`Json.Offends`) that comes first in the document.  What does not lie at such
an address has no part in this (`Json.Alike`).
-/

namespace Rundown

namespace Json

variable {limit : Nat} {v v' node : Json} {p path q : Path} {s : Segment} {err : DescriptorError}

/-- A reader at `v` who goes through groups only gets by the steps `q` to `node`. -/
def Reaches (v : Json) (q : Path) (node : Json) : Prop :=
  (∀ q', q' <+: q → q' ≠ q → ∃ g, v.at? q' = some g ∧ g.IsGroup) ∧ v.at? q = some node

theorem reaches_nil : v.Reaches [] node ↔ v = node := by
  constructor
  · rintro ⟨-, h⟩
    exact Option.some.inj h
  · rintro rfl
    exact ⟨fun q' hq hne => absurd (List.prefix_nil.1 hq) hne, rfl⟩

theorem reaches_cons : v.Reaches (s :: q) node ↔
    v.IsGroup ∧ ∃ child, v.at? [s] = some child ∧ child.Reaches q node := by
  constructor
  · rintro ⟨hgroups, hnode⟩
    obtain ⟨g, hg, hgroup⟩ := hgroups [] List.nil_prefix (List.cons_ne_nil s q).symm
    obtain rfl := Option.some.inj hg
    rw [at?_cons, Option.bind_eq_some_iff] at hnode
    obtain ⟨child, hchild, hnode⟩ := hnode
    refine ⟨hgroup, child, hchild, fun q' hq hne => ?_, hnode⟩
    have := hgroups (s :: q') (List.cons_prefix_cons.2 ⟨rfl, hq⟩) fun h => hne (List.cons.inj h).2
    rwa [at?_cons, hchild] at this
  · rintro ⟨hgroup, child, hchild, hgroups, hnode⟩
    refine ⟨fun q' hq hne => ?_, ?_⟩
    · cases q' with
      | nil => exact ⟨v, rfl, hgroup⟩
      | cons s' q' =>
        obtain ⟨rfl, hprefix⟩ := List.cons_prefix_cons.1 hq
        rw [at?_cons, hchild]
        exact hgroups q' hprefix fun h => hne (h ▸ rfl)
    · rw [at?_cons, hchild]
      exact hnode

/-- An offence at or below the value at `path`. -/
def OffendsBelow (limit : Nat) (path : Path) (v : Json) (p : Path) (err : DescriptorError) : Prop :=
  ∃ q node, p = path ++ q ∧ p.length ≤ limit ∧ v.Reaches q node ∧ node.fault? limit p = some err

theorem offendsBelow_root : OffendsBelow limit [] v p err ↔ v.Offends limit p err := by
  constructor
  · rintro ⟨q, node, rfl, hlength, ⟨hgroups, hnode⟩, hfault⟩
    exact ⟨⟨hgroups, hlength⟩, node, hnode, hfault⟩
  · rintro ⟨⟨hgroups, hlength⟩, node, hnode, hfault⟩
    exact ⟨p, node, rfl, hlength, ⟨hgroups, hnode⟩, hfault⟩

/-- Where the way ends, there is at most one offence. -/
theorem offendsBelow_last (h : ¬v.IsGroup ∨ path.length = limit) (hpath : path.length ≤ limit) :
    OffendsBelow limit path v p err ↔ p = path ∧ v.fault? limit path = some err := by
  constructor
  · rintro ⟨q, node, rfl, hlength, hreaches, hfault⟩
    cases q with
    | nil =>
      obtain rfl := reaches_nil.1 hreaches
      rw [List.append_nil] at hfault ⊢
      exact ⟨rfl, hfault⟩
    | cons s q =>
      rcases h with hgroup | hend
      · exact absurd (reaches_cons.1 hreaches).1 hgroup
      · rw [List.length_append, List.length_cons] at hlength
        omega
  · rintro ⟨rfl, hfault⟩
    exact ⟨[], v, (List.append_nil _).symm, hpath, reaches_nil.2 rfl, hfault⟩

/-- A group that may be entered offends by what is in it. -/
theorem offendsBelow_group (h : v.IsGroup) (hpath : path.length < limit) :
    OffendsBelow limit path v p err ↔
      ∃ s child, v.at? [s] = some child ∧ OffendsBelow limit (path ++ [s]) child p err := by
  have hsound : v.fault? limit path = none := by
    cases v with
    | array items => exact if_neg (Nat.ne_of_lt hpath)
    | object fields =>
      rw [fault?, show fields.lookup ActionRef.nameKey = none from h]
      exact if_neg (Nat.ne_of_lt hpath)
    | null | bool | int | float | string => exact h.elim
  constructor
  · rintro ⟨q, node, rfl, hlength, hreaches, hfault⟩
    cases q with
    | nil =>
      obtain rfl := reaches_nil.1 hreaches
      rw [List.append_nil, hsound] at hfault
      cases hfault
    | cons s q =>
      obtain ⟨-, child, hchild, hreaches⟩ := reaches_cons.1 hreaches
      exact ⟨s, child, hchild, q, node, List.append_cons .., hlength, hreaches, hfault⟩
  · rintro ⟨s, child, hchild, q, node, rfl, hlength, hreaches, hfault⟩
    exact ⟨s :: q, node, (List.append_cons ..).symm, hlength,
      reaches_cons.2 ⟨h, child, hchild, hreaches⟩, hfault⟩

theorem offendsBelow_array {items : List Json} (hpath : path.length < limit) :
    OffendsBelow limit path (array items) p err ↔
      ∃ i item, items[i]? = some item ∧ OffendsBelow limit (path ++ [.index i]) item p err := by
  rw [offendsBelow_group (v := array items) trivial hpath]
  constructor
  · rintro ⟨s, item, hitem, h⟩
    cases s with
    | index i => exact ⟨i, item, by simpa [at?] using hitem, h⟩
    | key key => cases hitem
  · rintro ⟨i, item, hitem, h⟩
    exact ⟨.index i, item, by simpa [at?] using hitem, h⟩

theorem offendsBelow_object {fields : List (String × Json)}
    (hgroup : fields.lookup ActionRef.nameKey = none) (hkeys : (fields.map Prod.fst).Nodup)
    (hpath : path.length < limit) :
    OffendsBelow limit path (object fields) p err ↔
      ∃ key value, (key, value) ∈ fields ∧
        OffendsBelow limit (path ++ [.key key]) value p err := by
  rw [offendsBelow_group (v := object fields) hgroup hpath]
  constructor
  · rintro ⟨s, value, hvalue, h⟩
    cases s with
    | index i => cases hvalue
    | key key => exact ⟨key, value, mem_of_lookup (by simpa [at?] using hvalue), h⟩
  · rintro ⟨key, value, hvalue, h⟩
    exact ⟨.key key, value, by simpa [at?] using lookup_of_mem hkeys hvalue, h⟩

/-- What offends below one child of a group is before what offends below a later one. -/
theorem offendsBelow_before {s' : Segment} {p' : Path} {err' : DescriptorError}
    (hs : s.Before s') (h : OffendsBelow limit (path ++ [s]) v p err)
    (h' : OffendsBelow limit (path ++ [s']) v' p' err') : Path.Before p p' := by
  obtain ⟨q, -, rfl, -⟩ := h
  obtain ⟨q', -, rfl, -⟩ := h'
  rw [← List.append_cons, ← List.append_cons]
  exact Path.before_of_segment hs path q q'

end Json

namespace Descriptor

open Json

variable {α β : Type} {r : Except DescriptorError α} {f : α → Except DescriptorError β}
  {first rest : Path → DescriptorError → Prop} {limit : Nat} {path : Path}

/-- The reading fails with the first of these offences, and succeeds if there is none. -/
def Reports (r : Except DescriptorError α) (offends : Path → DescriptorError → Prop) : Prop :=
  match r with
  | .ok _ => ∀ p err, ¬offends p err
  | .error err => ∃ p, offends p err ∧ ∀ p' err', offends p' err' → p' = p ∨ Path.Before p p'

theorem Reports.congr (h : Reports r first) (hiff : ∀ p err, rest p err ↔ first p err) :
    Reports r rest := by
  obtain rfl : rest = first := funext₂ fun p err => propext (hiff p err)
  exact h

/-- One reading after another, when all that the second looks at comes later. -/
theorem Reports.bind (hr : Reports r first) (hf : ∀ a, Reports (f a) rest)
    (hbefore : ∀ p err p' err', first p err → rest p' err' → Path.Before p p') :
    Reports (r >>= f) fun p err => first p err ∨ rest p err := by
  cases r with
  | ok a =>
    have hnone : ∀ p err, ¬first p err := hr
    refine (hf a).congr fun p err => ?_
    rw [or_iff_right (hnone p err)]
  | error err =>
    obtain ⟨p, hp, hmin⟩ := hr
    refine ⟨p, .inl hp, ?_⟩
    rintro p' err' (h | h)
    · exact hmin p' err' h
    · exact .inr (hbefore p err p' err' hp h)

theorem Reports.map (g : α → β) (hr : Reports r first) : Reports (g <$> r) first := by
  cases r <;> exact hr

theorem Reports.bind_ok (g : α → β) (hr : Reports r first) :
    Reports (r >>= fun a => .ok (g a)) first := by
  cases r <;> exact hr

/-- A node that is refused without a look below it. -/
theorem reports_refused {v : Json} {err : DescriptorError} (hpath : path.length ≤ limit)
    (h : ¬v.IsGroup ∨ path.length = limit) (hfault : v.fault? limit path = some err) :
    Reports (.error err : Except DescriptorError α) (OffendsBelow limit path v) := by
  refine ⟨path, (offendsBelow_last h hpath).2 ⟨rfl, hfault⟩, fun p' err' h' => .inl ?_⟩
  exact ((offendsBelow_last h hpath).1 h').1

mutual

theorem ofJsonAt_reports (path : Path) (hpath : path.length ≤ limit) : ∀ v : Json, v.Canonical →
    Reports (ofJsonAt limit path (path.length + 1) v) (OffendsBelow limit path v)
  | .null, _ => reports_refused hpath (.inl id) rfl
  | .bool _, _ => reports_refused hpath (.inl id) rfl
  | .int _, _ => reports_refused hpath (.inl id) rfl
  | .float _, _ => reports_refused hpath (.inl id) rfl
  | .string _, _ => reports_refused hpath (.inl id) rfl
  | .array items, h => by
    rw [ofJsonAt]
    split
    next hlimit =>
      have hend : path.length = limit := by omega
      exact reports_refused hpath (.inr hend) (if_pos hend)
    next hlimit =>
      have hinside : path.length < limit := by omega
      refine ((ofJsonItems_reports path hinside 0 items h).map _).congr fun p err => ?_
      simp only [Nat.zero_add]
      exact offendsBelow_array hinside
  | .object fields, h => by
    rw [ofJsonAt]
    cases hname : fields.lookup ActionRef.nameKey with
    | none =>
      dsimp only
      split
      next hlimit =>
        have hend : path.length = limit := by omega
        refine reports_refused hpath (.inr hend) ?_
        rw [fault?, hname]
        exact if_pos hend
      next hlimit =>
        have hinside : path.length < limit := by omega
        have hkeys : (fields.map Prod.fst).Nodup := h.1.imp fun hlt => ne_of_lt hlt
        exact ((ofJsonBranches_reports path hinside fields h.1 h.2).map _).congr fun p err =>
          offendsBelow_object hname hkeys hinside
    | some name =>
      have haction : ¬(object fields).IsGroup := fun hgroup => by
        rw [IsGroup, hname] at hgroup
        cases hgroup
      cases name with
      | string name =>
        intro p err hp
        have hfault := ((offendsBelow_last (.inl haction) hpath).1 hp).2
        rw [fault?, hname] at hfault
        cases hfault
      | null | bool | int | float | array | object =>
        refine reports_refused hpath (.inl haction) ?_
        rw [fault?, hname]

theorem ofJsonItems_reports (path : Path) (hpath : path.length < limit) (index : Nat) :
    ∀ items : List Json, CanonicalItems items →
      Reports (ofJsonItems limit path (path.length + 1) index items) fun p err =>
        ∃ i item, items[i]? = some item ∧
          OffendsBelow limit (path ++ [.index (index + i)]) item p err
  | [], _ => fun p err ⟨i, item, hitem, _⟩ => by simp at hitem
  | item :: rest, h => by
    have hitem := ofJsonAt_reports (path ++ [.index index])
      (by rw [List.length_append]; exact hpath) item h.1
    rw [List.length_append] at hitem
    have hrest := ofJsonItems_reports path hpath (index + 1) rest h.2
    rw [ofJsonItems]
    refine (hitem.bind (fun _ => hrest.bind_ok _) ?_).congr fun p err => ?_
    · rintro p err p' err' hp ⟨i, item', -, hp'⟩
      have hs : (Segment.index index).Before (.index (index + 1 + i)) := by
        show index < index + 1 + i
        omega
      exact offendsBelow_before hs hp hp'
    · constructor
      · rintro ⟨i, item', hitem', hp⟩
        cases i with
        | zero => exact .inl (Option.some.inj hitem' ▸ hp)
        | succ i => exact .inr ⟨i, item', hitem', by rwa [Nat.add_right_comm]⟩
      · rintro (hp | ⟨i, item', hitem', hp⟩)
        · exact ⟨0, item, rfl, hp⟩
        · exact ⟨i + 1, item', hitem', by rwa [Nat.add_right_comm] at hp⟩

theorem ofJsonBranches_reports (path : Path) (hpath : path.length < limit) :
    ∀ fields : List (String × Json), (fields.map Prod.fst).Pairwise (· < ·) →
      CanonicalFields fields →
      Reports (ofJsonBranches limit path (path.length + 1) fields) fun p err =>
        ∃ key value, (key, value) ∈ fields ∧ OffendsBelow limit (path ++ [.key key]) value p err
  | [], _, _ => fun p err ⟨key, value, hmem, _⟩ => by cases hmem
  | (key, value) :: rest, hkeys, h => by
    obtain ⟨hlater, hkeys⟩ := List.pairwise_cons.1 hkeys
    have hvalue := ofJsonAt_reports (path ++ [.key key])
      (by rw [List.length_append]; exact hpath) value h.1
    rw [List.length_append] at hvalue
    have hrest := ofJsonBranches_reports path hpath rest hkeys h.2
    rw [ofJsonBranches]
    refine (hvalue.bind (fun _ => hrest.bind_ok _) ?_).congr fun p err => ?_
    · rintro p err p' err' hp ⟨key', value', hmem, hp'⟩
      have hs : (Segment.key key).Before (.key key') :=
        Text.bytes_lt_iff.2 (hlater key' (List.mem_map_of_mem hmem))
      exact offendsBelow_before hs hp hp'
    · constructor
      · rintro ⟨key', value', hmem, hp⟩
        rcases List.mem_cons.1 hmem with heq | hmem
        · cases heq
          exact .inl hp
        · exact .inr ⟨key', value', hmem, hp⟩
      · rintro (hp | ⟨key', value', hmem, hp⟩)
        · exact ⟨key, value, List.mem_cons_self, hp⟩
        · exact ⟨key', value', List.mem_cons_of_mem _ hmem, hp⟩

end

end Descriptor

/-! ## What has no part in it -/

namespace Json

mutual

/-- Whether two values look alike to a reader that goes into `groups` groups at most: they differ in
nothing but in what actions hold besides their names, in what lies in groups that are too deep, and
in values that are neither actions nor groups, but of one kind. -/
def Alike : Nat → Json → Json → Prop
  | groups, array items, v' =>
    ∃ items', v' = array items' ∧ (groups = 0 ∨ AlikeItems (groups - 1) items items')
  | groups, object fields, v' =>
    ∃ fields', v' = object fields' ∧
      fields'.lookup ActionRef.nameKey = fields.lookup ActionRef.nameKey ∧
      (fields.lookup ActionRef.nameKey ≠ none ∨ groups = 0 ∨
        AlikeFields (groups - 1) fields fields')
  | _, v, v' => v'.nodeKind? = none ∧ v'.kindWord = v.kindWord

def AlikeItems : Nat → List Json → List Json → Prop
  | _, [], items' => items' = []
  | groups, item :: rest, items' =>
    ∃ item' rest', items' = item' :: rest' ∧ item.Alike groups item' ∧
      AlikeItems groups rest rest'

def AlikeFields : Nat → List (String × Json) → List (String × Json) → Prop
  | _, [], fields' => fields' = []
  | groups, (key, value) :: rest, fields' =>
    ∃ value' rest', fields' = (key, value') :: rest' ∧ value.Alike groups value' ∧
      AlikeFields groups rest rest'

end

end Json

namespace Descriptor

open Json

variable {α α' β β' : Type} {r : Except DescriptorError α} {r' : Except DescriptorError α'}
  {limit : Nat}

/-- Both readings fail with the same error, or both succeed. -/
def FailAlike (r : Except DescriptorError α) (r' : Except DescriptorError α') : Prop :=
  ∀ err, r' = .error err ↔ r = .error err

theorem FailAlike.ok (a : α) (a' : α') : FailAlike (.ok a) (.ok a') :=
  fun _ => iff_of_false nofun nofun

theorem FailAlike.error (err : DescriptorError) :
    FailAlike (.error err : Except DescriptorError α) (.error err : Except DescriptorError α') := by
  intro err'
  simp only [Except.error.injEq]

theorem FailAlike.bind {f : α → Except DescriptorError β} {f' : α' → Except DescriptorError β'}
    (h : FailAlike r r') (hf : ∀ a a', FailAlike (f a) (f' a')) :
    FailAlike (r >>= f) (r' >>= f') := by
  cases r with
  | ok a =>
    cases r' with
    | ok a' => exact hf a a'
    | error err => cases (h err).1 rfl
  | error err =>
    cases (h err).2 rfl
    exact .error err

theorem FailAlike.map {g : α → β} {g' : α' → β'} (h : FailAlike r r') :
    FailAlike (g <$> r) (g' <$> r') := by
  cases r with
  | ok a =>
    cases r' with
    | ok a' => exact .ok _ _
    | error err => cases (h err).1 rfl
  | error err =>
    cases (h err).2 rfl
    exact .error err

theorem ofJsonAt_scalar {path : Path} {level : Nat} {v : Json} (h : v.nodeKind? = none) :
    ofJsonAt limit path level v = .error (.unclassifiable path.render v.kindWord) := by
  cases v with
  | array items => cases h
  | object fields =>
    rw [nodeKind?] at h
    split at h <;> cases h
  | null | bool | int | float | string => rfl

theorem fails_scalar {path : Path} {level : Nat} {v v' : Json} (h : v.nodeKind? = none)
    (h' : v'.nodeKind? = none ∧ v'.kindWord = v.kindWord) :
    FailAlike (ofJsonAt limit path level v) (ofJsonAt limit path level v') := by
  rw [ofJsonAt_scalar h, ofJsonAt_scalar h'.1, h'.2]
  exact .error _

mutual

theorem ofJsonAt_alike (path : Path) (level : Nat) :
    ∀ v v' : Json, v.Alike (limit + 1 - level) v' →
      FailAlike (ofJsonAt limit path level v) (ofJsonAt limit path level v')
  | .null, _, h => fails_scalar rfl h
  | .bool _, _, h => fails_scalar rfl h
  | .int _, _, h => fails_scalar rfl h
  | .float _, _, h => fails_scalar rfl h
  | .string _, _, h => fails_scalar rfl h
  | .array items, v', h => by
    obtain ⟨items', rfl, h⟩ := h
    rw [ofJsonAt, ofJsonAt]
    split
    next => exact .error _
    next hlimit =>
      rw [Nat.sub_sub] at h
      exact (ofJsonItems_alike path level 0 items items' (h.resolve_left (by omega))).map
  | .object fields, v', h => by
    obtain ⟨fields', rfl, hname, h⟩ := h
    rw [ofJsonAt, ofJsonAt, hname]
    cases hlookup : fields.lookup ActionRef.nameKey with
    | none =>
      dsimp only
      split
      next => exact .error _
      next hlimit =>
        rw [Nat.sub_sub] at h
        have h := (h.resolve_left (not_not.2 hlookup)).resolve_left (by omega)
        exact (ofJsonBranches_alike path level fields fields' h).map
    | some name =>
      cases name with
      | string name => exact .ok _ _
      | null | bool | int | float | array | object => exact .error _

theorem ofJsonItems_alike (path : Path) (level index : Nat) :
    ∀ items items' : List Json, AlikeItems (limit + 1 - (level + 1)) items items' →
      FailAlike (ofJsonItems limit path level index items)
        (ofJsonItems limit path level index items')
  | [], items', h => by
    obtain rfl : items' = [] := h
    exact .ok _ _
  | item :: rest, items', h => by
    obtain ⟨item', rest', rfl, hitem, hrest⟩ := h
    rw [ofJsonItems, ofJsonItems]
    exact (ofJsonAt_alike _ (level + 1) item item' hitem).bind fun _ _ =>
      (ofJsonItems_alike path level (index + 1) rest rest' hrest).bind fun _ _ => .ok _ _

theorem ofJsonBranches_alike (path : Path) (level : Nat) :
    ∀ fields fields' : List (String × Json), AlikeFields (limit + 1 - (level + 1)) fields fields' →
      FailAlike (ofJsonBranches limit path level fields)
        (ofJsonBranches limit path level fields')
  | [], fields', h => by
    obtain rfl : fields' = [] := h
    exact .ok _ _
  | (key, value) :: rest, fields', h => by
    obtain ⟨value', rest', rfl, hvalue, hrest⟩ := h
    rw [ofJsonBranches, ofJsonBranches]
    exact (ofJsonAt_alike _ (level + 1) value value' hvalue).bind fun _ _ =>
      (ofJsonBranches_alike path level rest rest' hrest).bind fun _ _ => .ok _ _

end

/-- A value is read exactly when no node that a reader meets has to be refused, and the first such
node in the document is reported otherwise.  What a reader does not look at has no part in this. -/
theorem firstOffence_spec (limit : Nat) {v : Json} (hv : v.Canonical) :
    ((∃ d, ofJson limit v = .ok d) ↔ ∀ p err, ¬v.Offends limit p err) ∧
    (∀ err, ofJson limit v = .error err ↔ ∃ p, v.Offends limit p err ∧
      ∀ p' err', v.Offends limit p' err' → p' = p ∨ Path.Before p p') ∧
    ∀ v', v.Alike limit v' → ∀ err, ofJson limit v' = .error err ↔ ofJson limit v = .error err := by
  have hreports : Reports (ofJson limit v) (v.Offends limit) :=
    (ofJsonAt_reports [] (Nat.zero_le limit) v hv).congr fun p err => offendsBelow_root.symm
  refine ⟨?_, fun err => ?_, fun v' h => ofJsonAt_alike [] 1 v v' h⟩
  · cases hread : ofJson limit v with
    | ok d =>
      rw [hread] at hreports
      exact iff_of_true ⟨d, rfl⟩ hreports
    | error err =>
      rw [hread] at hreports
      obtain ⟨p, hp, -⟩ := hreports
      exact iff_of_false nofun fun hnone => hnone p err hp
  · cases hread : ofJson limit v with
    | ok d =>
      rw [hread] at hreports
      exact iff_of_false nofun fun ⟨p, hp, _⟩ => hreports p err hp
    | error err₀ =>
      rw [hread] at hreports
      rw [Except.error.injEq]
      constructor
      · rintro rfl
        exact hreports
      · rintro ⟨p, hp, hfirst⟩
        obtain ⟨p₀, hp₀, hfirst₀⟩ := hreports
        have heq : p₀ = p := by
          rcases hfirst p₀ err₀ hp₀ with heq | hlt
          · exact heq
          · rcases hfirst₀ p err hp with heq | hlt'
            · exact heq.symm
            · exact absurd hlt' hlt.asymm
        subst heq
        obtain ⟨-, node₀, hnode₀, hfault₀⟩ := hp₀
        obtain ⟨-, node, hnode, hfault⟩ := hp
        obtain rfl := Option.some.inj (hnode₀.symm.trans hnode)
        exact Option.some.inj (hfault₀.symm.trans hfault)

/-- A value with three nodes that have to be refused. -/
def faulty : Json :=
  .array [.object [("a", .array [.array [], .null]), ("b", .object [("actionName", .int 5)])],
    .bool true]

/-- The first of them in the document is the group that is too deep, not the node that stands
next to the root. -/
theorem firstOffence_spec_faulty :
    faulty.Canonical ∧ ∃ p, faulty.Offends 3 p (.tooDeep "$[0].a[0]" 3) ∧
      ∀ p' err', faulty.Offends 3 p' err' → p' = p ∨ Path.Before p p' := by
  have hcanonical : faulty.Canonical := by
    refine ⟨⟨by decide, ?_⟩, trivial, trivial⟩
    simp [Canonical, CanonicalItems, CanonicalFields, minInt, intBound]
  exact ⟨hcanonical, ((firstOffence_spec 3 hcanonical).2.1 _).1 rfl⟩

end Descriptor

end Rundown
