import Rundown.Proofs.Playlist.Rest

/-!
# The branch that fails first

A group that waits for all of its branches, all of them leaves, fails with the failure of the branch
that settled with one before the others did.  `Group.Joins.heads`: that branch is ahead of the
others as soon as it has failed.  `Step.Known.leading`: from then on the invariant can be told with
this action as the leading one, and `Group.Joins.ends` reads off it how the group ends.
-/

namespace Rundown

/-- The same scene with other leading actions. -/
def Scene.leading (x : Scene) (lead : ActionId → Prop) : Scene := { x with lead := lead }

namespace Group

open Step

variable {x : Scene} {v : Json} {g : Group} {steps : List Step} {keys : List String} {i : Nat}
  {slot : Slot} {a : ActionId} {err : ActionError}

section

variable (hbranches : ∀ s ∈ steps, ∃ place, s.Entered x place v)
  (hsole : ∀ b ∈ leavesList steps, x.sole b) (hleaf : ∀ s ∈ steps, s.isLeaf = true)

include hbranches hsole hleaf

/-- Among leaves, what a branch leads to is what its action has settled with. -/
theorem result?_branch {s : Step} (hs : s ∈ steps) :
    ∃ slot b, s = .leaf slot b ∧ b ∈ leavesList steps ∧
      s.result? x.world = (x.world.settlement? b).map fun t => t.mapError .action := by
  obtain ⟨place, hent⟩ := hbranches s hs
  cases s with
  | group => cases hleaf _ hs
  | leaf slot b =>
    have hb := leaves_subset hs (List.mem_singleton.2 rfl)
    exact ⟨slot, b, rfl, hb, hent.result?_leaf (hsole b hb)⟩

/-- Among leaves, a failure that was taken is that of an action. -/
theorem TookFailure.settled {e : PlaylistError} (h : TookFailure steps e) :
    ∃ b ∈ leavesList steps, ∃ e', e = .action e' ∧ x.world.settlement? b = some (.error e') := by
  obtain ⟨s, hs, ht⟩ := h
  obtain ⟨slot, b, rfl, hb, hres⟩ := result?_branch hbranches hsole hleaf hs
  rw [result?_of_taken? ht] at hres
  obtain ⟨t, hsettled, heq⟩ := Option.map_eq_some_iff.1 hres.symm
  cases t with
  | ok u => cases heq
  | error e' =>
    cases heq
    exact ⟨b, hb, e', rfl, hsettled⟩

variable (hi : steps[i]? = some (.leaf slot a))
  (he : x.world.settlement? a = some (.error err))
  (honly : ∀ b ∈ leavesList steps, b ≠ a → ∀ e, x.world.settlement? b ≠ some (.error e))

include he honly

/-- The only failure that can have been taken. -/
theorem TookFailure.eq {e : PlaylistError} (h : TookFailure steps e) : e = .action err := by
  obtain ⟨b, hb, e', rfl, hsettled⟩ := h.settled hbranches hsole hleaf
  by_cases hba : b = a
  · rw [hba, he] at hsettled
    cases hsettled
    rfl
  · exact absurd hsettled (honly b hb hba e')

include hi

/-- The only branch that has failed is ahead of all that may fail later. -/
theorem Joins.heads (h : g.Joins x steps) (hapart : x.Apart (leavesList steps))
    (hk : g.kind = .parallel keys .settleAll) (hs : g.stage = .running) :
    g.Heads x.world steps i err := by
  have htracks : g.tracksWakes steps.length = true := by rw [tracksWakes, hk]
  have hm := List.mem_of_getElem? hi
  cases hff : g.firstFailure with
  | some e =>
    have heq := (h.recorded.took e hff).eq hbranches hsole hleaf he honly
    exact .inl (hff.trans (congrArg some heq))
  | none =>
    obtain ⟨place, hent⟩ := hbranches _ hm
    obtain ⟨hnodup, hnoted, hready⟩ := h.noted hs htracks
    obtain ⟨hd, hanswer⟩ := h.recorded.pending htracks hff hm hent
      (hsole a (leaves_subset hm (List.mem_singleton.2 rfl))) he
    have hwoken : i ∈ g.woken := (hnoted i _ hi hd).resolve_right fun hquiet => by
      rw [hquiet.answer?_eq] at hanswer
      cases hanswer
    obtain ⟨front, back, hsplit⟩ := List.append_of_mem hwoken
    refine .inr ⟨hff, front, back, hsplit, ?_⟩
    intro j hj s hjs hjd
    -- A branch in front is ready, and it is another one, so it has not failed.
    have hne : i ≠ j := by
      rintro rfl
      rw [hsplit] at hnodup
      exact (List.nodup_append.1 hnodup).2.2 _ hj _ List.mem_cons_self rfl
    have hjwoken : j ∈ g.woken := hsplit ▸ List.mem_append_left _ hj
    obtain ⟨o, ho⟩ := Option.ne_none_iff_exists'.1 (hready hleaf j hjwoken s hjs hjd)
    obtain ⟨slot', b, rfl, hb, hres⟩ :=
      result?_branch hbranches hsole hleaf (List.mem_of_getElem? hjs)
    have hba : b ≠ a := by
      rintro rfl
      exact hapart.of_ne hi hjs hne (hsole b hb) (List.mem_singleton.2 rfl)
        (List.mem_singleton.2 rfl)
    rw [result?, taken?_eq_none_iff.2 hjd, Option.none_or, ho] at hres
    obtain ⟨t, hsettled, rfl⟩ := Option.map_eq_some_iff.1 hres.symm
    cases t with
    | ok u => exact ⟨u, ho⟩
    | error e' => exact absurd hsettled (honly b hb hba e')

/-- A group that has ended although a branch has failed has failed with that. -/
theorem Joins.ends (h : g.Joins x steps) (hk : g.kind = .parallel keys .settleAll) {o : Outcome}
    (hs : g.stage = .finished o) : o = .error (.action err) := by
  have hdecided := h.decided o hs
  cases o with
  | error e =>
    have htook := hdecided.tookFailure h.recorded hk
    exact congrArg Except.error (htook.eq hbranches hsole hleaf he honly)
  | ok u =>
    have hm := List.mem_of_getElem? hi
    obtain ⟨values, hvalues, -⟩ := hdecided.values hk
    obtain ⟨u', hu'⟩ := all_of_takenValues hvalues _ hm
    obtain ⟨slot', b, heq, -, hres⟩ := result?_branch hbranches hsole hleaf hm
    cases heq
    rw [result?_of_taken? hu', he] at hres
    cases hres

end

end Group

namespace Step

variable {x : Scene} {lead : ActionId → Prop} {root s : Step} {place : List Nat} {v : Json}
  {slot slot' : Slot} {a : ActionId}

/-- The leaf of an action that no other leaf has stands in one place. -/
theorem at?_unique (hapart : x.Apart s.leaves) (ha : x.sole a) {place place' : List Nat}
    (h : s.at? place = some (.leaf slot a)) (h' : s.at? place' = some (.leaf slot' a)) :
    place = place' := by
  induction s using induction generalizing place place' with
  | leaf slot'' b =>
    cases place with
    | cons => cases h
    | nil =>
      cases place' with
      | cons => cases h'
      | nil => rfl
  | group slot'' g steps ih =>
    cases place with
    | nil => cases h
    | cons i place =>
      cases place' with
      | nil => cases h'
      | cons j place' =>
        obtain ⟨s, hi, h⟩ := Option.bind_eq_some_iff.1 h
        obtain ⟨t, hj, h'⟩ := Option.bind_eq_some_iff.1 h'
        by_cases hij : i = j
        · subst hij
          obtain rfl := Option.some.inj (hi.symm.trans hj)
          have hm := List.mem_of_getElem? hi
          rw [ih s hm (Scene.Apart.of_mem hapart hm) h h']
        · have hleaf {u : Step} {slot : Slot} {place : List Nat}
              (h : u.at? place = some (.leaf slot a)) : a ∈ u.leaves :=
            at?_leaves h (List.mem_singleton.2 rfl)
          exact absurd (hleaf h') (Scene.Apart.of_ne hapart hi hj hij ha (hleaf h))

theorem Untouched.leading (h : s.Untouched x)
    (hfree : ∀ b, lead b → x.world.started? b = some true) : s.Untouched (x.leading lead) :=
  ⟨h.1, fun a ha hsole => by
    refine ⟨(h.2 a ha hsole).1, ?_⟩
    intro hl
    have hs := hfree a hl
    rw [(h.2 a ha hsole).1] at hs
    cases hs⟩

/-- Other actions may lead, if every group can account for them. -/
theorem Entered.leading (h : s.Entered x place v) (hat : root.at? place = some s)
    (hfree : ∀ b, lead b → x.world.started? b = some true)
    (hled : ∀ (place : List Nat) (slot : Slot) (g : Group) (steps : List Step) (v : Json),
      root.at? place = some (.group slot g steps) →
      (Step.group slot g steps).Entered x place v → g.stage.isStarted = true →
      g.kind ≠ .sequence → g.Led (x.leading lead) steps) :
    s.Entered (x.leading lead) place v := by
  induction s using induction generalizing place v with
  | leaf slot a => cases slot <;> exact h
  | group slot g steps ih =>
    have hr : g.Runs x place v steps _ _ := h
    have hsteps {i : Nat} {t : Step} (hi : steps[i]? = some t) (v : Json)
        (ht : t.Entered x (place ++ [0 + i]) v) :
        t.Entered (x.leading lead) (place ++ [0 + i]) v := by
      rw [Nat.zero_add] at ht ⊢
      exact ih t (List.mem_of_getElem? hi) ht (at?_child hat hi)
    refine ⟨hr.fits, hr.alert, hr.created, hr.expired, ?_,
      fun hs hk => (hr.inOrder hs hk).imp (fun i t hi v ht => hsteps hi v ht)
        fun t _ hu => hu.leading hfree,
      fun hs hk => enteredAll_iff.2 ?_, ?_⟩
    · intro input hs
      obtain ⟨hv, hfail, hu⟩ := hr.triggered input hs
      exact ⟨hv, hfail, fun t hm => (hu t hm).leading hfree⟩
    · intro i t hi
      obtain ⟨ht, htied⟩ := enteredAll_iff.1 (hr.together hs hk) i t hi
      exact ⟨hsteps hi v ht, htied⟩
    · intro hs hk
      obtain ⟨hrecorded, hundecided, hnoted, hdecided, -⟩ := hr.joins hs hk
      refine ⟨hrecorded, hundecided, ?_, hdecided, hled place slot g steps v hat h hs hk⟩
      intro hs ht
      obtain ⟨hn, hq, hready⟩ := hnoted hs ht
      exact ⟨hn, hq, hready⟩

theorem Known.leading (h : root.Known x [])
    (hfree : ∀ b, lead b → x.world.started? b = some true)
    (hled : ∀ (place : List Nat) (slot : Slot) (g : Group) (steps : List Step) (v : Json),
      root.at? place = some (.group slot g steps) →
      (Step.group slot g steps).Entered x place v → g.stage.isStarted = true →
      g.kind ≠ .sequence → g.Led (x.leading lead) steps) :
    root.Known (x.leading lead) [] := by
  rcases h with ⟨v, h⟩ | h | h
  · exact .inl ⟨v, h.leading rfl hfree hled⟩
  · exact .inr (.inl (h.leading hfree))
  · cases root with
    | leaf => exact h.elim
    | group slot g steps =>
      obtain ⟨hslot, hstage, hfail, hfits, hu⟩ := h
      exact .inr (.inr ⟨hslot, hstage, hfail, hfits, fun s hm => (hu s hm).leading hfree⟩)

end Step

end Rundown
