import Rundown.Proofs.Engine.Production

/-!
# Waiting for every branch

Under `FailurePolicy.settleAll` a group that has ended has left nothing outstanding below it
(`Production.over_of_ended`).  When no task waits, an entered group whose branches have all settled
has ended, with a value exactly when none of them failed (`Production.ended_of_settled`).  The
failure of a group of leaves is that of the branch that failed first, whenever tasks ran in between
(`Production.outcome_of_failsFirst`).
-/

namespace Rundown

namespace Step

variable {x : Scene} {place : List Nat} {s : Step} {steps : List Step} {slot slot' : Slot}
  {g : Group} {a : ActionId}

/-- A step that has ended has left nothing outstanding, even if it never was played. -/
theorem Known.over (h : s.Known x place) (hsole : ∀ a ∈ s.leaves, x.sole a)
    (hunder : s.Under .settleAll) (ha : s.answer? x.world ≠ none) : s.Over x := by
  rcases h with ⟨v, h⟩ | h | h
  · exact h.over hsole hunder ha
  · exact h.over hsole
  · cases s with
    | leaf => exact h.elim
    | group slot g steps =>
      obtain ⟨-, hstage, -, -, hu⟩ := h
      refine .group ?_ fun s hm => (hu s hm).over fun a ha => hsole a (leaves_subset hm ha)
      rcases hstage with hs | hs <;> rw [hs] <;> exact fun h => by cases h

/-- A running parallel group of leaves, none of which has settled. -/
def Pends (w : World) : Step → Prop
  | leaf _ _ => False
  | .group _ g steps => g.stage = .running ∧ g.kind ≠ .sequence ∧
      (∀ s ∈ steps, s.isLeaf = true) ∧ ∀ a ∈ leavesList steps, w.settlement? a = none

instance (stage : Stage) : Decidable (stage = .running) :=
  match stage with
  | .running => isTrue rfl
  | .created | .expired | .triggered _ | .finished _ => isFalse fun h => by cases h

instance (w : World) : DecidablePred (Pends w)
  | leaf _ _ => inferInstanceAs (Decidable False)
  | .group _ g steps => inferInstanceAs (Decidable (g.stage = .running ∧ g.kind ≠ .sequence ∧
      (∀ s ∈ steps, s.isLeaf = true) ∧ ∀ a ∈ leavesList steps, w.settlement? a = none))

end Step

namespace Engine

open Step

variable {lead : ActionId → Prop} {e e' : Engine} {a : ActionId} {err : ActionError}

/-! ## The first failure -/

theorem leaf_of_mem {steps : List Step} (hleaf : ∀ s ∈ steps, s.isLeaf = true)
    (ha : a ∈ leavesList steps) : ∃ (i : Nat) (slot : Slot), steps[i]? = some (.leaf slot a) := by
  rw [leavesList_eq] at ha
  obtain ⟨s, hm, ha⟩ := List.mem_flatMap.1 ha
  obtain ⟨i, hi⟩ := List.mem_iff_getElem?.1 hm
  cases s with
  | group => cases hleaf _ hm
  | leaf slot b =>
    obtain rfl := List.mem_singleton.1 ha
    exact ⟨i, slot, hi⟩

theorem leaf_of_resetList {steps steps' : List Step} (h : resetList steps' = resetList steps)
    {i : Nat} {slot : Slot} (hi : steps[i]? = some (.leaf slot a)) :
    ∃ slot', steps'[i]? = some (.leaf slot' a) := by
  obtain ⟨s, hs, hreset⟩ := getElem?_of_resetList h hi
  cases s with
  | group => cases hreset
  | leaf slot' b =>
    cases hreset
    exact ⟨slot', hs⟩

/-- Of the given actions, only `a` has failed. -/
def OnlyFailure (e : Engine) (actions : List ActionId) (a : ActionId) (err : ActionError) : Prop :=
  e.world.settlement? a = some (.error err) ∧
    ∀ b ∈ actions, b ≠ a → ∀ err', e.world.settlement? b ≠ some (.error err')

theorem forall_isOk_iff {settled : Option Settlement} :
    (∀ o ∈ settled, o.isOk = true) ↔ ∀ err, settled ≠ some (.error err) := by
  cases settled with
  | none => simp
  | some o => cases o <;> simp [Except.isOk, Except.toBool]

instance (settled : Option Settlement) : Decidable (∀ err, settled ≠ some (.error err)) :=
  decidable_of_iff _ forall_isOk_iff

instance (e : Engine) (actions : List ActionId) (a : ActionId) (err : ActionError) :
    Decidable (e.OnlyFailure actions a err) :=
  inferInstanceAs (Decidable (e.world.settlement? a = some (.error err) ∧
    ∀ b ∈ actions, b ≠ a → ∀ err', e.world.settlement? b ≠ some (.error err')))

/-- As one event settles at most one completion, one action is the first to fail. -/
theorem exists_first (history : List Event) (h : Sound lead e) {actions : List ActionId}
    (hstarted : ∀ a ∈ actions, e.world.started? a = some true)
    (hfine : ∀ a ∈ actions, ∀ err, e.world.settlement? a ≠ some (.error err))
    (hfailed : ∃ a ∈ actions, ∃ err, (e.after history).world.settlement? a = some (.error err)) :
    ∃ earlier later a err, history = earlier ++ later ∧ a ∈ actions ∧
      (e.after earlier).OnlyFailure actions a err := by
  induction history generalizing e with
  | nil =>
    obtain ⟨a, ha, err, he⟩ := hfailed
    exact absurd he (hfine a ha err)
  | cons event history ih =>
    obtain ⟨hsound, hticks⟩ := h.apply event
    by_cases hnow : ∃ a ∈ actions, ∃ err, (e.apply event).world.settlement? a = some (.error err)
    · obtain ⟨a, ha, err, he⟩ := hnow
      obtain ⟨answer, hone⟩ := hticks.one
      have hanswer {b : ActionId} (hb : b ∈ actions) {err' : ActionError}
          (hb' : (e.apply event).world.settlement? b = some (.error err')) : answer = some b := by
        by_contra hne
        rw [hone b (hstarted b hb) hne] at hb'
        exact hfine b hb err' hb'
      refine ⟨[event], history, a, err, rfl, ha, he, fun b hb hne err' hb' => hne ?_⟩
      exact Option.some.inj ((hanswer hb hb').symm.trans (hanswer ha he))
    · obtain ⟨earlier, later, a, err, rfl, ha, hfirst⟩ := ih hsound
        (fun a ha => hticks.started a (hstarted a ha))
        (fun a ha err he => hnow ⟨a, ha, err, he⟩) hfailed
      exact ⟨event :: earlier, later, a, err, rfl, ha, hfirst⟩

/-- Another action may lead, if every group can account for it. -/
theorem Sound.withLead (h : Sound (fun _ => False) e) (ha : e.world.started? a = some true)
    (hled : ∀ (id : PlaylistId) (p : Playlist), e.playlists[id]? = some p →
      ∀ (place : List Nat) (slot : Slot) (g : Group) (steps : List Step) (v : Json),
        p.root.at? place = some (.group slot g steps) →
        (Step.group slot g steps).Entered (e.scene (fun _ => False) id) place v →
        g.stage.isStarted = true → g.kind ≠ .sequence →
        g.Led (e.scene (fun b => b = a) id) steps) :
    Sound (fun b => b = a) e where
  idle := h.idle
  logged := h.logged
  begun := h.begun
  leading b hb := hb ▸ ha
  known id p hp := by
    obtain ⟨hgroup, hknown⟩ := h.known id p hp
    exact ⟨hgroup, hknown.leading (fun b hb => hb ▸ ha) (hled id p hp)⟩

section

variable {id : PlaylistId} {p : Playlist} {place : List Nat} {slot slot' : Slot} {g : Group}
  {steps : List Step} {i : Nat}
  (hp : e.playlists[id]? = some p) (hat : p.root.at? place = some (.group slot g steps))
  (hi : steps[i]? = some (.leaf slot' a))

include hp hat hi

/-- The only branch of a group of leaves that has failed leads. -/
theorem Sound.lead_of_onlyFailure (h : Sound (fun _ => False) e)
    (hsole : ∀ b ∈ p.root.leaves, e.leaves.count b ≤ 1) (hleaf : ∀ s ∈ steps, s.isLeaf = true)
    (hstarted : e.world.started? a = some true) (honly : e.OnlyFailure (leavesList steps) a err) :
    Sound (fun b => b = a) e := by
  refine h.withLead hstarted ?_
  intro id' p' hp' place' slot'' g' steps' v hat' hent hs hk
  rintro ⟨keys, hkind⟩ - j slotj b hj rfl hb
  have ha : b ∈ p.root.leaves := at?_leaves (at?_child hat hi) (List.mem_singleton.2 rfl)
  have hroots {id : PlaylistId} {p : Playlist} (hp : e.playlists[id]? = some p) :
      (e.playlists.map Playlist.root)[id]? = some p.root := by
    rw [List.getElem?_map, hp]
    rfl
  -- The action is that of one leaf only, so this is the group at `place`.
  by_cases hid : id = id'
  · subst hid
    obtain rfl := Option.some.inj (hp.symm.trans hp')
    have hapart : (e.scene (fun _ => False) id).Apart p.root.leaves :=
      (e.apart (fun _ => False) id).of_mem (mem_roots hp)
    have hplace := at?_unique hapart hb (at?_child hat hi) (at?_child hat' hj)
    obtain ⟨rfl, hij⟩ := List.append_inj' hplace rfl
    obtain rfl : i = j := (List.cons.inj hij).1
    cases hat.symm.trans hat'
    have hr : g.Runs (e.scene (fun _ => False) id) place v steps _ _ := hent
    have hbelow : ∀ c ∈ leavesList steps, (e.scene (fun _ => False) id).sole c := fun c hc =>
      hsole c (at?_leaves hat hc)
    have hbranches : ∀ s ∈ steps, ∃ place, s.Entered (e.scene (fun _ => False) id) place v :=
      fun s hm => by
        obtain ⟨k, hk'⟩ := List.mem_iff_getElem?.1 hm
        exact ⟨_, (enteredAll_iff.1 (hr.together hs hk) k s hk').1⟩
    have hjoins := hr.joins hs hk
    have hapartbelow : (e.scene (fun _ => False) id).Apart (leavesList steps) := fun c hc =>
      Nat.le_trans ((at?_sublist hat).count_le c) (hapart c hc)
    have hheads := hjoins.heads hbranches hbelow hleaf hj honly.1 honly.2 hapartbelow hkind
    have hends (o : Outcome) := hjoins.ends hbranches hbelow hleaf hj honly.1 honly.2 hkind (o := o)
    exact ⟨err, honly.1, hheads, hends⟩
  · exact absurd (at?_leaves (at?_child hat' hj) (List.mem_singleton.2 rfl))
      ((e.apart (fun _ => False) id).of_ne (hroots hp) (hroots hp') hid hb ha)

/-- A group of leaves that has ended has failed with what its leading branch failed with. -/
theorem Sound.ended_by_lead (h : Sound (fun b => b = a) e) {keys : List String}
    (hsole : e.leaves.count a ≤ 1) (hk : g.kind = .parallel keys .settleAll)
    (hleaf : ∀ s ∈ steps, s.isLeaf = true) {o : Outcome} (hs : g.stage = .finished o) :
    ∃ err, e.world.settlement? a = some (.error err) ∧ o = .error (.action err) := by
  obtain ⟨v, hent⟩ := ((h.known id p hp).2.at? hat).entered (by
    rw [hs]
    cases o <;> exact fun h => by cases h)
  have hr : g.Runs (e.scene (fun b => b = a) id) place v steps _ _ := hent
  have hjoins := hr.joins (by rw [hs]; rfl) (by rw [hk]; exact fun h => by cases h)
  obtain ⟨err, he, -, hend⟩ := hjoins.led ⟨keys, hk⟩ hleaf i slot' a hi rfl hsole
  exact ⟨err, he, hend o hs⟩

/-- When only one branch of a group of leaves has failed, the group will end with its failure. -/
theorem Sound.outcome_of_onlyFailure (h : Sound (fun _ => False) e) {keys : List String}
    (hsole : ∀ b ∈ p.root.leaves, e.leaves.count b ≤ 1) (hk : g.kind = .parallel keys .settleAll)
    (hleaf : ∀ s ∈ steps, s.isLeaf = true) (hstarted : e.world.started? a = some true)
    (honly : e.OnlyFailure (leavesList steps) a err) {later : List Event} {p' : Playlist}
    {slot'' : Slot} {g' : Group} {steps' : List Step} {o : Outcome}
    (hp' : (e.after later).playlists[id]? = some p')
    (hat' : p'.root.at? place = some (.group slot'' g' steps')) (hended : g'.stage = .finished o)
    (hsole' : (e.after later).leaves.count a ≤ 1) : o = .error (.action err) := by
  have hlead := h.lead_of_onlyFailure hp hat hi hsole hleaf hstarted honly
  obtain ⟨hsound, hturns⟩ := hlead.after later
  obtain ⟨p'', slot₂, g₂, steps₂, hp'', hat'', hkind, hsteps⟩ := hturns.group_at? hp hat
  obtain rfl := Option.some.inj (hp''.symm.trans hp')
  cases hat''.symm.trans hat'
  obtain ⟨sloti, hi'⟩ := leaf_of_resetList hsteps hi
  obtain ⟨err', herr', rfl⟩ := hsound.ended_by_lead hp' hat' hi' hsole' (hkind.trans hk)
    (isLeaf_of_resetList hsteps.symm hleaf) hended
  rw [hturns.settled a _ honly.1] at herr'
  cases herr'
  rfl

end

end Engine

namespace Production

open Engine Step

variable {P : Production}

/-- A group that has ended has left nothing outstanding below it: every leaf that began has settled,
and no group runs. -/
theorem over_of_ended (P : Production)
    (hpolicy : P.compiler.config.parallelFailure = .settleAll) (hdistinct : P.Distinct)
    {place : List Nat} {slot : Slot} {g : Group} {steps : List Step}
    (hat : P.at? place = some (.group slot g steps)) (hended : g.stage.outcome? ≠ none) :
    (∀ b ∈ P.engine.world.begun, b.1 ∈ leavesList steps → P.settled b.1 ≠ none) ∧
      ∀ below slot' g' steps', P.at? (place ++ below) = some (.group slot' g' steps') →
        g'.stage.state ≠ .running := by
  obtain ⟨p, hp, hplace⟩ := Option.bind_eq_some_iff.1 hat
  have hstands := stands P.sound hp
  have hunder := at?_under hplace hstands.under
  rw [hpolicy] at hunder
  have hover := (hstands.known.at? hplace).over
    (fun a ha => hstands.sole hdistinct a (at?_leaves hplace ha)) hunder hended
  refine ⟨fun b hb ha => hover.settled b.1 ha (P.sound.logged.started b hb),
    fun below slot' g' steps' hbelow => hover.still below slot' g' steps' ?_⟩
  obtain ⟨p', hp', hbelow⟩ := Option.bind_eq_some_iff.1 hbelow
  obtain rfl := Option.some.inj (hp.symm.trans hp')
  rwa [at?_append, hplace, Option.bind_some] at hbelow

/-- When no task waits, an entered group whose branches have all settled has ended, with a value
exactly when none of them failed. -/
theorem ended_of_settled (P : Production)
    (hpolicy : P.compiler.config.parallelFailure = .settleAll) (hquiet : P.engine.Quiescent)
    {place : List Nat} {slot : Slot} {g : Group} {steps : List Step}
    (hat : P.at? place = some (.group slot g steps)) (hk : g.kind ≠ .sequence)
    (hentered : g.stage.state ≠ .created)
    (hall : ∀ s ∈ steps, s.result? P.engine.world ≠ none) :
    (∃ o, g.stage = .finished o) ∧
      ((∃ u, g.stage = .finished (.ok u)) ↔ ∀ s ∈ steps, ¬s.Failed P.engine.world) := by
  obtain ⟨hknown, hunder⟩ := known_at? P.sound hat
  rw [hpolicy] at hunder
  obtain ⟨keys, hkind⟩ := kind_of_under hunder hk
  obtain ⟨v, hent⟩ := hknown.entered hentered
  exact hent.settleAll_iff (P.sound.atRest hquiet P.id) hkind hall

/-- Of the given actions, `a` was the first to fail, with `err`, after the given start of the
history. -/
def FailsFirst (P : Production) (since : List Event) (actions : List ActionId) (a : ActionId)
    (err : ActionError) : Prop :=
  ∃ earlier later, P.history = since ++ earlier ++ later ∧
    (P.upTo (since ++ earlier)).engine.OnlyFailure actions a err

section

variable {since later : List Event} {place : List Nat} {slot slot' : Slot} {g g' : Group}
  {steps steps' : List Step} {o : Outcome}

/-- In a running group of leaves all have begun. -/
theorem started_of_running (hdistinct : ∀ a ∈ P.plan.leaves, P.engine.leaves.count a ≤ 1)
    (hat : P.at? place = some (.group slot g steps)) (hrunning : g.stage = .running)
    (hk : g.kind ≠ .sequence) (hleaf : ∀ s ∈ steps, s.isLeaf = true) :
    ∀ a ∈ leavesList steps, P.engine.world.started? a = some true := by
  intro a ha
  obtain ⟨p, hp, hplace⟩ := Option.bind_eq_some_iff.1 hat
  have hstands := stands P.sound hp
  obtain ⟨v, hent⟩ := (hstands.known.at? hplace).entered (by
    rw [hrunning]
    exact fun h => by cases h)
  have hr : g.Runs (P.engine.scene (fun _ => False) P.id) place v steps _ _ := hent
  obtain ⟨i, slot', hi⟩ := leaf_of_mem hleaf ha
  have hbranch := (enteredAll_iff.1 (hr.together (by rw [hrunning]; rfl) hk) i _ hi).1
  refine (hbranch.began_leaf (hdistinct a ?_)).2
  rw [← hstands.leaves]
  exact at?_leaves hplace ha

/-- The outcome of a group of leaves that has ended is the failure of the one that failed first. -/
theorem outcome_of_failsFirst (P : Production)
    (hpolicy : P.compiler.config.parallelFailure = .settleAll) (hdistinct : P.Distinct)
    (hat : (P.upTo since).at? place = some (.group slot g steps)) (hrunning : g.stage = .running)
    (hk : g.kind ≠ .sequence) (hleaf : ∀ s ∈ steps, s.isLeaf = true)
    (hat' : P.at? place = some (.group slot' g' steps')) (hended : g'.stage = .finished o)
    {a : ActionId} (ha : a ∈ leavesList steps) {err : ActionError}
    (hfirst : P.FailsFirst since (leavesList steps) a err) : o = .error (.action err) := by
  obtain ⟨earlier, later, hhistory, honly⟩ := hfirst
  have hturns₁ := ((P.upTo since).sound.after earlier).2
  rw [show (P.upTo since).engine.after earlier = (P.upTo (since ++ earlier)).engine from
    (P.upTo (since ++ earlier)).upTo_after rfl] at hturns₁
  have hend : (P.upTo (since ++ earlier)).engine.after later = P.engine := P.upTo_after hhistory
  have hsound₁ := (P.upTo (since ++ earlier)).sound
  have hturns₂ := (hsound₁.after later).2
  rw [hend] at hturns₂
  have hcount₁ : ∀ b ∈ P.plan.leaves, (P.upTo (since ++ earlier)).engine.leaves.count b ≤ 1 :=
    fun b hb => Nat.le_trans (hturns₂.count_le b) (Nat.le_of_eq (hdistinct b hb))
  have hcount₀ : ∀ b ∈ P.plan.leaves, (P.upTo since).engine.leaves.count b ≤ 1 :=
    fun b hb => Nat.le_trans (hturns₁.count_le b) (hcount₁ b hb)
  have hstarted := hturns₁.started a
    ((P.upTo since).started_of_running hcount₀ hat hrunning hk hleaf a ha)
  -- The group when the branch has just failed.
  obtain ⟨p, hp, hplace⟩ := Option.bind_eq_some_iff.1 hat
  obtain ⟨p₁, slot₁, g₁, steps₁, hp₁, hplace₁, hkind₁, hsteps₁⟩ := hturns₁.group_at? hp hplace
  have hstands := (P.upTo (since ++ earlier)).stands hsound₁ hp₁
  have hunder := at?_under hplace₁ hstands.under
  rw [show (P.upTo (since ++ earlier)).compiler.config.parallelFailure = .settleAll from hpolicy]
    at hunder
  obtain ⟨keys, hkeys⟩ := kind_of_under hunder (hkind₁ ▸ hk)
  obtain ⟨i, sloti, hi⟩ := leaf_of_mem hleaf ha
  obtain ⟨sloti₁, hi₁⟩ := leaf_of_resetList hsteps₁ hi
  have ha₁ : a ∈ P.plan.leaves :=
    hstands.leaves ▸ at?_leaves (at?_child hplace₁ hi₁) (List.mem_singleton.2 rfl)
  rw [← leavesList_of_resetList hsteps₁] at honly
  obtain ⟨p', hp', hplace'⟩ := Option.bind_eq_some_iff.1 hat'
  rw [← hend] at hp'
  exact hsound₁.outcome_of_onlyFailure hp₁ hplace₁ hi₁
    (fun b hb => hcount₁ b (hstands.leaves ▸ hb)) hkeys (isLeaf_of_resetList hsteps₁.symm hleaf)
    hstarted honly hp' hplace' hended (hend ▸ Nat.le_of_eq (hdistinct a ha₁))

/-- If a branch has failed in the end, one of them failed first. -/
theorem exists_failsFirst (P : Production) (hdistinct : P.Distinct)
    (hhistory : P.history = since ++ later)
    (hat : (P.upTo since).at? place = some (.group slot g steps)) (hrunning : g.stage = .running)
    (hk : g.kind ≠ .sequence) (hleaf : ∀ s ∈ steps, s.isLeaf = true)
    (hpending : ∀ a ∈ leavesList steps, (P.upTo since).settled a = none)
    (hfailed : ∃ a ∈ leavesList steps, ∃ err, P.settled a = some (.error err)) :
    ∃ a ∈ leavesList steps, ∃ err, P.FailsFirst since (leavesList steps) a err := by
  have hend := P.upTo_after hhistory
  have hcount : ∀ b ∈ P.plan.leaves, (P.upTo since).engine.leaves.count b ≤ 1 := fun b hb =>
    Nat.le_trans ((hend ▸ ((P.upTo since).sound.after later).2).count_le b)
      (Nat.le_of_eq (hdistinct b hb))
  have hstarted := (P.upTo since).started_of_running hcount hat hrunning hk hleaf
  have hnone : ∀ a ∈ leavesList steps, ∀ err,
      (P.upTo since).engine.world.settlement? a ≠ some (.error err) := by
    intro a ha err he
    rw [show (P.upTo since).engine.world.settlement? a = none from hpending a ha] at he
    cases he
  obtain ⟨earlier, rest, a, err, rfl, ha, honly⟩ :=
    exists_first later (P.upTo since).sound hstarted hnone (hend ▸ hfailed)
  refine ⟨a, ha, err, earlier, rest, by rw [hhistory, List.append_assoc], ?_⟩
  rwa [← show (P.upTo since).engine.after earlier = (P.upTo (since ++ earlier)).engine from
    (P.upTo (since ++ earlier)).upTo_after rfl]

end

/-- Waiting for all branches.  A group that has ended has left nothing outstanding below it.  When
no task waits, an entered group whose branches have all settled has ended, with a value exactly when
none of them failed.  A group whose branches are leaves, all pending when it has been looked at,
ends with the failure of the branch that fails first, if any does. -/
theorem settleAll_spec (P : Production)
    (hpolicy : P.compiler.config.parallelFailure = .settleAll) (hdistinct : P.Distinct) :
    (∀ place slot g steps, P.at? place = some (.group slot g steps) → g.stage.outcome? ≠ none →
      (∀ b ∈ P.engine.world.begun, b.1 ∈ leavesList steps → P.settled b.1 ≠ none) ∧
        ∀ below slot' g' steps', P.at? (place ++ below) = some (.group slot' g' steps') →
          g'.stage.state ≠ .running) ∧
    (P.engine.Quiescent →
      ∀ place slot g steps, P.at? place = some (.group slot g steps) → g.kind ≠ .sequence →
        g.stage.state ≠ .created → (∀ s ∈ steps, s.result? P.engine.world ≠ none) →
          (∃ o, g.stage = .finished o) ∧
            ((∃ u, g.stage = .finished (.ok u)) ↔ ∀ s ∈ steps, ¬s.Failed P.engine.world)) ∧
    (∀ since later place s, P.history = since ++ later → (P.upTo since).at? place = some s →
      s.Pends (P.upTo since).engine.world →
        ∀ slot g steps o, P.at? place = some (.group slot g steps) → g.stage = .finished o →
          (∀ a ∈ s.leaves, ∀ err, P.FailsFirst since s.leaves a err → o = .error (.action err)) ∧
          ((∃ a ∈ s.leaves, ∃ err, P.settled a = some (.error err)) →
            ∃ a ∈ s.leaves, ∃ err, P.FailsFirst since s.leaves a err)) := by
  refine ⟨fun place slot g steps hat hended => P.over_of_ended hpolicy hdistinct hat hended,
    fun hquiet place slot g steps hat hk hentered hall =>
      P.ended_of_settled hpolicy hquiet hat hk hentered hall, ?_⟩
  intro since later place s hhistory hat hpends slot g steps o hat' hended
  cases s with
  | leaf => exact hpends.elim
  | group slot' g' steps' =>
    obtain ⟨hrunning, hk, hleaf, hpending⟩ := hpends
    exact ⟨fun a ha err hfirst =>
        P.outcome_of_failsFirst hpolicy hdistinct hat hrunning hk hleaf hat' hended ha hfirst,
      P.exists_failsFirst hdistinct hhistory hat hrunning hk hleaf hpending⟩

/-- Of two branches the second fails first. -/
def bothFail : Production :=
  ofWidth 2 ⟨.empty, ⟨.settleAll, 8⟩⟩
    [.play 0 .null true, .run .arrivals 0, .settle 1 (.error (.failed "second")),
      .settle 0 (.error (.failed "first")), .run .ready 0, .run .ready 0] (by decide +kernel)

/-- The branch that fails first decides, although the other one stands before it. -/
theorem settleAll_spec_bothFail :
    bothFail.compiler.config.parallelFailure = .settleAll ∧ bothFail.Distinct ∧
      (∃ s ∈ bothFail.at? [0], (s.answer? bothFail.engine.world).isSome = true) ∧
      ∀ slot g steps o, bothFail.at? [0] = some (.group slot g steps) → g.stage = .finished o →
        o = .error (.action (.failed "second")) := by
  have hdistinct : bothFail.Distinct := by decide +kernel
  refine ⟨rfl, hdistinct, by decide +kernel, ?_⟩
  intro slot g steps o hat hended
  have hpends : ∃ s ∈ (bothFail.upTo (bothFail.history.take 2)).at? [0],
      s.Pends (bothFail.upTo (bothFail.history.take 2)).engine.world ∧ s.leaves = [0, 1] := by
    decide +kernel
  have honly : (bothFail.upTo (bothFail.history.take 3)).engine.OnlyFailure [0, 1] 1
      (.failed "second") := by
    decide +kernel
  obtain ⟨s, hs, hpends, hleaves⟩ := hpends
  have hspec := (settleAll_spec bothFail rfl hdistinct).2.2 _ _ [0] s
    (List.take_append_drop 2 _).symm hs hpends slot g steps o hat hended
  rw [hleaves] at hspec
  exact hspec.1 1 (by decide) _ ⟨[.settle 1 (.error (.failed "second"))], _, rfl, honly⟩

end Production

end Rundown
