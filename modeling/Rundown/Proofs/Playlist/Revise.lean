import Rundown.Proofs.Playlist.Poll

/-!
# Steps around a change

A look at one group, or a completion that settles, changes a step deep inside a playlist.
`Step.Revised` says what is left of the step, and of every group around it, afterwards: the
invariant still holds, and whatever became ready has woken the group around it
(`Step.Revised.group`).
-/

namespace Rundown

namespace Step

/-- A group that has not been played, or never will be. -/
def Dormant (x : Scene) : Step → Prop
  | leaf _ _ => False
  | .group slot g steps => slot = .idle ∧ (g.stage = .created ∨ g.stage = .expired) ∧
      g.firstFailure = none ∧ g.kind.Fits steps.length ∧ ∀ s ∈ steps, s.Untouched x

/-- The step `s` at `place` has become `s'`, while `x` became `y`. -/
structure Revised (x y : Scene) (place : List Nat) (s s' : Step) (signalled : Bool) : Prop where
  reset : s'.reset = s.reset
  slot : s'.slot = s.slot
  entered : ∀ v, s.Entered x place v → s'.Entered y place v
  untouched : s.Untouched x → s'.Untouched y
  dormant : s.Dormant x → s'.Dormant y
  tied : s.Tied → s'.Tied
  answer : ∀ o, s.answer? x.world = some o → s'.answer? y.world = some o
  quiet : s.isAwaited = true → s.Quiet x.world → signalled = true ∨ s'.Quiet y.world
  ready : s.isLeaf = true → (∃ v, s.Entered x place v) → signalled = true →
    s'.answer? y.world ≠ none

variable {x y : Scene} {place : List Nat} {s s' : Step} {steps steps' : List Step}

theorem Dormant.mono (h : s.Dormant x) (hf : Scene.Follows place s.leaves x y) : s.Dormant y := by
  cases s with
  | leaf => exact h
  | group slot g steps =>
    obtain ⟨hslot, hstage, hfail, hfits, hu⟩ := h
    exact ⟨hslot, hstage, hfail, hfits, fun s hs => (hu s hs).mono (hf.mono (leaves_subset hs))⟩

/-- A step that the change does not concern. -/
theorem Revised.of_follows (hf : Scene.Follows place s.leaves x y) :
    Revised x y place s s false where
  reset := rfl
  slot := rfl
  entered _ h := h.mono hf
  untouched h := h.mono hf
  dormant h := h.mono hf
  tied h := h
  answer _ h := answer?_mono hf.settled h
  quiet _ h := .inr (h.mono hf)
  ready _ _ h := by cases h

/-- What comes after the change does not concern the step. -/
theorem Revised.then_follows {z : Scene} {signalled : Bool} (h : Revised x y place s s' signalled)
    (hf : Scene.Follows place s.leaves y z) : Revised x z place s s' signalled := by
  rw [← leaves_congr h.reset] at hf
  exact
    { reset := h.reset
      slot := h.slot
      entered := fun v hs => (h.entered v hs).mono hf
      untouched := fun hs => (h.untouched hs).mono hf
      dormant := fun hs => (h.dormant hs).mono hf
      tied := h.tied
      answer := fun o ho => answer?_mono hf.settled (h.answer o ho)
      quiet := fun ha hq => (h.quiet ha hq).imp_right fun hq => hq.mono hf
      ready := by
        intro hl hs hsig hnone
        obtain ⟨o, ho⟩ := Option.ne_none_iff_exists'.1 (h.ready hl hs hsig)
        rw [answer?_mono hf.settled ho] at hnone
        cases hnone }

/-! ## Steps side by side -/

/-- Every step has become what now stands in its place. -/
structure RevisedAll (x y : Scene) (place : List Nat) (index : Nat) (steps steps' : List Step)
    (signalled : Nat → Bool) : Prop where
  length : steps'.length = steps.length
  each : ∀ i s s', steps[i]? = some s → steps'[i]? = some s' →
    Revised x y (place ++ [index + i]) s s' (signalled (index + i))

namespace RevisedAll

variable {index : Nat} {signalled : Nat → Bool}

/-- What stands in the place of a step. -/
theorem exists_of (h : RevisedAll x y place index steps steps' signalled) {i : Nat}
    (hi : steps[i]? = some s) : ∃ s', steps'[i]? = some s' ∧
      Revised x y (place ++ [index + i]) s s' (signalled (index + i)) := by
  have hlt : i < steps'.length := h.length ▸ (List.getElem?_eq_some_iff.1 hi).1
  exact ⟨steps'[i], List.getElem?_eq_getElem hlt, h.each i s _ hi (List.getElem?_eq_getElem hlt)⟩

theorem exists_of' (h : RevisedAll x y place index steps steps' signalled) {i : Nat}
    (hi : steps'[i]? = some s') : ∃ s, steps[i]? = some s ∧
      Revised x y (place ++ [index + i]) s s' (signalled (index + i)) := by
  have hlt : i < steps.length := h.length ▸ (List.getElem?_eq_some_iff.1 hi).1
  exact ⟨steps[i], List.getElem?_eq_getElem hlt, h.each i _ s' (List.getElem?_eq_getElem hlt) hi⟩

theorem mem' (h : RevisedAll x y place index steps steps' signalled) (hs : s' ∈ steps') :
    ∃ s ∈ steps, ∃ i, Revised x y (place ++ [index + i]) s s' (signalled (index + i)) := by
  obtain ⟨i, hi⟩ := List.mem_iff_getElem?.1 hs
  obtain ⟨s, hs, hr⟩ := h.exists_of' hi
  exact ⟨s, List.mem_of_getElem? hs, i, hr⟩

theorem uncons {rest rest' : List Step}
    (h : RevisedAll x y place index (s :: rest) (s' :: rest') signalled) :
    Revised x y (place ++ [index]) s s' (signalled index) ∧
      RevisedAll x y place (index + 1) rest rest' signalled := by
  refine ⟨h.each 0 s s' rfl rfl, Nat.succ.inj h.length, ?_⟩
  intro i t t' hi hi'
  have := h.each (i + 1) t t' hi hi'
  rwa [← Nat.add_assoc, Nat.add_right_comm] at this

theorem map_eq {α : Type} (h : RevisedAll x y place index steps steps' signalled) {f : Step → α}
    (hf : ∀ s s' : Step, s'.reset = s.reset → s'.slot = s.slot → f s' = f s) :
    steps'.map f = steps.map f := by
  refine List.ext_getElem? ?_
  intro i
  rw [List.getElem?_map, List.getElem?_map]
  cases hi : steps[i]? with
  | none =>
    rw [List.getElem?_eq_none_iff] at hi
    rw [List.getElem?_eq_none_iff.2 (h.length ▸ hi)]
  | some s =>
    obtain ⟨s', hs', hr⟩ := h.exists_of hi
    rw [hs', Option.map_some, Option.map_some, hf s s' hr.reset hr.slot]

theorem reset (h : RevisedAll x y place index steps steps' signalled) :
    resetList steps' = resetList steps := by
  rw [resetList_eq, resetList_eq, h.map_eq fun _ _ hr _ => hr]

theorem taken (h : RevisedAll x y place index steps steps' signalled) :
    steps'.map taken? = steps.map taken? :=
  h.map_eq fun _ _ _ hs => by unfold taken?; rw [hs]

theorem untouched (h : RevisedAll x y place index steps steps' signalled)
    (hu : ∀ s ∈ steps, s.Untouched x) : ∀ s ∈ steps', s.Untouched y := by
  intro _ hs
  obtain ⟨s, hm, _, hr⟩ := h.mem' hs
  exact hr.untouched (hu s hm)

theorem enteredInOrder (h : RevisedAll x y place index steps steps' signalled) {v : Json}
    {o : Option Outcome} (hs : EnteredInOrder x place index v o steps) :
    EnteredInOrder y place index v o steps' := by
  induction steps generalizing steps' index v with
  | nil =>
    obtain rfl := List.length_eq_zero_iff.1 h.length
    exact hs
  | cons s rest ih =>
    cases steps' with
    | nil => cases h.length
    | cons s' rest' =>
      obtain ⟨hr, hrest⟩ := h.uncons
      obtain ⟨hent, htied, htaken⟩ := hs
      refine ⟨hr.entered v hent, hr.tied htied, ?_⟩
      have heq : s'.taken? = s.taken? := by unfold taken?; rw [hr.slot]
      rw [heq]
      split at htaken
      · exact ⟨htaken.1, hrest.untouched htaken.2⟩
      · exact ⟨htaken.1, hrest.untouched htaken.2⟩
      · exact ih hrest htaken

theorem enteredAll (h : RevisedAll x y place 0 steps steps' signalled) {v : Json}
    (hs : EnteredAll x place 0 v steps) : EnteredAll y place 0 v steps' := by
  rw [enteredAll_iff] at hs ⊢
  intro i s' hi
  obtain ⟨s, hi, hr⟩ := h.exists_of' hi
  exact ⟨hr.entered v (hs i s hi).1, hr.tied (hs i s hi).2⟩

end RevisedAll

end Step

namespace Group

open Step

variable {x y : Scene} {place : List Nat} {g g' : Group} {steps steps' : List Step}
  {signalled : Nat → Bool}

/-- The group `g` has become `g'` by noting the branches that woke it. -/
structure Rewoken (g g' : Group) (width : Nat) (signalled : Nat → Bool) : Prop where
  kind : g'.kind = g.kind
  stage : g'.stage = g.stage
  waiters : g'.waiters = g.waiters
  firstFailure : g'.firstFailure = g.firstFailure
  nodup : g.woken.Nodup → g'.woken.Nodup
  appended : ∃ extra, g'.woken = g.woken ++ extra ∧ ∀ i ∈ extra, signalled i = true
  noted : g.stage = .running → g.tracksWakes width = true →
    ∀ i, signalled i = true → i ∈ g'.woken

theorem Rewoken.refl (width : Nat) : g.Rewoken g width fun _ => false :=
  ⟨rfl, rfl, rfl, rfl, fun h => h, ⟨[], by simp⟩, fun _ _ i h => by cases h⟩

theorem Rewoken.trans {g'' : Group} {width : Nat} {signalled' : Nat → Bool}
    (h : g.Rewoken g' width signalled) (h' : g'.Rewoken g'' width signalled') :
    g.Rewoken g'' width fun i => signalled i || signalled' i where
  kind := h'.kind.trans h.kind
  stage := h'.stage.trans h.stage
  waiters := h'.waiters.trans h.waiters
  firstFailure := h'.firstFailure.trans h.firstFailure
  nodup hn := h'.nodup (h.nodup hn)
  appended := by
    obtain ⟨extra, he, hs⟩ := h.appended
    obtain ⟨extra', he', hs'⟩ := h'.appended
    refine ⟨extra ++ extra', by rw [he', he, List.append_assoc], ?_⟩
    intro i hi
    rcases List.mem_append.1 hi with hi | hi
    · rw [hs i hi, Bool.true_or]
    · rw [hs' i hi, Bool.or_true]
  noted hst ht i hi := by
    rcases Bool.or_eq_true_iff.1 hi with hi | hi
    · obtain ⟨extra, he, -⟩ := h'.appended
      rw [he]
      exact List.mem_append_left _ (h.noted hst ht i hi)
    · exact h'.noted (h.stage.trans hst) ((tracksWakes_congr h.kind _).trans ht) i hi

theorem noteWake_rewoken (index width : Nat) (woke : Bool) :
    g.Rewoken (g.noteWake index width woke) width fun i => i == index && woke := by
  have same (h : ¬(g.stage = .running ∧ woke = true ∧ g.tracksWakes width = true)) :
      g.Rewoken g width fun i => i == index && woke :=
    ⟨rfl, rfl, rfl, rfl, fun hn => hn, ⟨[], by simp⟩, fun hs ht i hi =>
      absurd ⟨hs, (Bool.and_eq_true_iff.1 hi).2, ht⟩ h⟩
  by_cases hnote : g.stage = .running ∧ woke = true ∧ g.tracksWakes width = true
  · obtain ⟨hs, rfl, ht⟩ := hnote
    have he : g.noteWake index width true = g.enqueue index := by
      simp only [noteWake, hs, ht, Bool.and_self, if_true]
    rw [he]
    by_cases hm : index ∈ g.woken
    · rw [show g.enqueue index = g from if_pos hm]
      refine ⟨rfl, rfl, rfl, rfl, fun hn => hn, ⟨[], by simp⟩, ?_⟩
      intro _ _ i hi
      obtain rfl : i = index := by simpa using hi
      exact hm
    · rw [show g.enqueue index = { g with woken := g.woken ++ [index] } from if_neg hm]
      refine ⟨rfl, rfl, rfl, rfl, ?_, ⟨[index], rfl, by simp⟩, ?_⟩
      · intro hn
        exact List.nodup_append.2 ⟨hn, by simp, fun a ha b hb heq => by simp_all⟩
      · intro _ _ i hi
        obtain rfl : i = index := by simpa using hi
        simp
  · have he : g.noteWake index width woke = g := by
      unfold noteWake
      cases hs : g.stage with
      | running =>
        have : ¬(woke && g.tracksWakes width) = true := fun h =>
          hnote ⟨hs, Bool.and_eq_true_iff.1 h⟩
        simp only [this]
        rfl
      | created | expired | triggered | finished => rfl
    rw [he]
    exact same hnote

theorem Rewoken.tracks (h : g.Rewoken g' steps.length signalled)
    (hlength : steps'.length = steps.length) :
    g'.tracksWakes steps'.length = g.tracksWakes steps.length := by
  rw [hlength, tracksWakes_congr h.kind]

theorem Rewoken.verdict (h : g.Rewoken g' steps.length signalled)
    (htaken : steps'.map taken? = steps.map taken?) : g'.verdict steps' = g.verdict steps := by
  rw [verdict_congr htaken]
  unfold Group.verdict
  rw [h.kind, h.firstFailure]

theorem tookFailure_congr (h : steps'.map taken? = steps.map taken?) (e : PlaylistError) :
    TookFailure steps' e ↔ TookFailure steps e := by
  have hmem (l : List Step) : TookFailure l e ↔ some (.error e) ∈ l.map taken? := by
    simp only [TookFailure, List.mem_map]
  rw [hmem, hmem, h]

theorem Recorded.revise (h : g.Recorded steps) (hre : g.Rewoken g' steps.length signalled)
    (hlength : steps'.length = steps.length) (htaken : steps'.map taken? = steps.map taken?) :
    g'.Recorded steps' where
  took e he := (tookFailure_congr htaken e).2 (h.took e (hre.firstFailure ▸ he))
  keeps ht hnone e he := h.keeps ((hre.tracks hlength).symm.trans ht)
    (hre.firstFailure.symm.trans hnone) e ((tookFailure_congr htaken e).1 he)

theorem Noted.revise (h : g.Noted x steps) (hre : g.Rewoken g' steps.length signalled)
    (hall : RevisedAll x y place 0 steps steps' signalled) {v : Json}
    (hentered : EnteredAll x place 0 v steps) (hstage : g.stage = .running)
    (htracks : g.tracksWakes steps.length = true) : g'.Noted y steps' := by
  obtain ⟨extra, hextra, hsignalled⟩ := hre.appended
  refine ⟨hre.nodup h.nodup, ?_, ?_⟩
  · intro i s' hi hd
    obtain ⟨s, hs, hr⟩ := hall.exists_of' hi
    rw [Nat.zero_add] at hr
    have hd' : s.isDone = false := (isDone_congr hr.slot).symm.trans hd
    rcases h.noted i s hs hd' with hm | hq
    · exact .inl (hextra ▸ List.mem_append_left _ hm)
    · have ha := ((enteredAll_iff.1 hentered i s hs).1).isAwaited
        (enteredAll_iff.1 hentered i s hs).2 hd'
      exact (hr.quiet ha hq).imp_left (hre.noted hstage htracks i)
  · intro hleaf i hi s' hs' hd
    obtain ⟨s, hs, hr⟩ := hall.exists_of' hs'
    rw [Nat.zero_add] at hr
    have hleaf' := isLeaf_of_resetList hall.reset hleaf
    have hl := hleaf' s (List.mem_of_getElem? hs)
    rw [hextra] at hi
    rcases List.mem_append.1 hi with hi | hi
    · obtain ⟨o, ho⟩ := Option.ne_none_iff_exists'.1
        (h.ready hleaf' i hi s hs ((isDone_congr hr.slot).symm.trans hd))
      rw [hr.answer o ho]
      exact Option.some_ne_none o
    · exact hr.ready hl ⟨v, by simpa using (enteredAll_iff.1 hentered i s hs).1⟩ (hsignalled i hi)

theorem Heads.revise {i : Nat} {e : ActionError} (h : g.Heads x.world steps i e)
    (hre : g.Rewoken g' steps.length signalled)
    (hall : RevisedAll x y place 0 steps steps' signalled) : g'.Heads y.world steps' i e := by
  obtain ⟨extra, hextra, -⟩ := hre.appended
  rcases h with h | ⟨hnone, front, back, hw, hfront⟩
  · exact .inl (hre.firstFailure.trans h)
  · refine .inr ⟨hre.firstFailure.trans hnone, front, back ++ extra, by simp [hextra, hw], ?_⟩
    intro j hj s' hs' hd
    obtain ⟨s, hs, hr⟩ := hall.exists_of' hs'
    obtain ⟨u, hu⟩ := hfront j hj s hs ((isDone_congr hr.slot).symm.trans hd)
    exact ⟨u, hr.answer _ hu⟩

/-- A group that is woken is due from then on, or nothing it awaits has become ready. -/
theorem Alert.revise {own : Task} (h : g.Alert x own steps)
    (hre : g.Rewoken g' steps.length signalled)
    (hall : RevisedAll x y place 0 steps steps' signalled) (hown : x.due own → y.due own)
    (hwoken : .task ∈ g.waiters → (∃ i, signalled i = true) → y.due own) :
    g'.Alert y own steps' := by
  unfold Alert at h ⊢
  rw [hre.stage]
  cases hs : g.stage with
  | triggered input =>
    simp only [hs] at h ⊢
    exact hown h
  | running =>
    simp only [hs] at h ⊢
    rcases h with hdue | ⟨htask, hw, hq⟩
    · exact .inl (hown hdue)
    · by_cases hsig : ∃ i, signalled i = true
      · exact .inl (hwoken htask hsig)
      · obtain ⟨extra, hextra, hsub⟩ := hre.appended
        obtain rfl : extra = [] := List.eq_nil_iff_forall_not_mem.2 fun i hi => hsig ⟨i, hsub i hi⟩
        refine .inr ⟨hre.waiters ▸ htask, ?_, ?_⟩
        · intro ht
          rw [hextra, List.append_nil]
          exact hw ((hre.tracks hall.length).symm.trans ht)
        · intro s' hs' ha
          obtain ⟨s, hm, i, hrev⟩ := hall.mem' hs'
          have ha' : s.isAwaited = true := (isAwaited_congr hrev.slot).symm.trans ha
          exact (hrev.quiet ha' (hq s hm ha')).resolve_left fun h => hsig ⟨_, h⟩
  | created | expired | finished o => trivial

/-- The branches of a group keep their account when some of them wake it. -/
theorem Joins.revise (h : g.Joins x steps) (hre : g.Rewoken g' steps.length signalled)
    (hall : RevisedAll x y place 0 steps steps' signalled) {v : Json}
    (hentered : EnteredAll x place 0 v steps)
    (hlead : ∀ a, y.lead a → x.lead a) (hsole : ∀ a, y.sole a → x.sole a)
    (hsettled : ∀ a s, x.world.settlement? a = some s → y.world.settlement? a = some s) :
    g'.Joins y steps' where
  recorded := h.recorded.revise hre hall.length hall.taken
  undecided hs := by
    obtain ⟨hv, hf⟩ := h.undecided (hre.stage.symm.trans hs)
    refine ⟨(hre.verdict hall.taken).trans hv, ?_⟩
    intro ht e he
    rw [hre.tracks hall.length] at ht
    exact hf ht e ((tookFailure_congr hall.taken e).1 he)
  noted hs ht := by
    rw [hre.stage] at hs
    rw [hre.tracks hall.length] at ht
    exact (h.noted hs ht).revise hre hall hentered hs ht
  decided o ho := by
    unfold Decided
    rw [hre.verdict hall.taken, hre.tracks hall.length]
    simp only [tookFailure_congr hall.taken]
    exact h.decided o (hre.stage.symm.trans ho)
  led := by
    rintro ⟨keys, hk⟩ hleaf i slot a hi hl hs
    obtain ⟨s, hi', hr⟩ := hall.exists_of' hi
    have hleaf' := isLeaf_of_resetList hall.reset hleaf
    obtain rfl : .leaf slot a = s :=
      eq_of_isLeaf (hleaf' s (List.mem_of_getElem? hi')) hr.reset hr.slot
    obtain ⟨e, he, hrun, hfin⟩ := h.led ⟨keys, hre.kind.symm.trans hk⟩ hleaf' i slot a hi'
      (hlead a hl) (hsole a hs)
    refine ⟨e, hsettled a _ he, ?_, fun o ho => hfin o (hre.stage.symm.trans ho)⟩
    intro hst
    exact (hrun (hre.stage.symm.trans hst)).revise hre hall

end Group

namespace Step

variable {x y : Scene} {place : List Nat} {g g' : Group} {steps steps' : List Step}
  {signalled : Nat → Bool}

/-- A group whose steps have changed, and which has noted those that woke it. -/
theorem Revised.group (slot : Slot) (woke : Bool) (hre : g.Rewoken g' steps.length signalled)
    (hall : RevisedAll x y place 0 steps steps' signalled)
    (hplaylist : y.playlist = x.playlist) (hlead : ∀ a, y.lead a → x.lead a)
    (hsole : ∀ a, y.sole a → x.sole a)
    (hsettled : ∀ a s, x.world.settlement? a = some s → y.world.settlement? a = some s)
    (hown : x.due (.group x.playlist place) → y.due (.group x.playlist place))
    (hwoken : .task ∈ g.waiters → (∃ i, signalled i = true) → y.due (.group x.playlist place)) :
    Revised x y place (.group slot g steps) (.group slot g' steps') woke where
  reset := by simp only [Step.reset, hre.kind, hall.reset]
  slot := rfl
  entered v h := by
    have hr : g.Runs x place v steps _ _ := h
    refine ⟨?_, ?_, hre.stage ▸ hr.created, hre.stage ▸ hr.expired, ?_, ?_, ?_, ?_⟩
    · rw [hall.length, hre.kind]
      exact hr.fits
    · rw [hplaylist]
      exact hr.alert.revise hre hall hown hwoken
    · intro input hs
      obtain ⟨hv, hfail, hu⟩ := hr.triggered input (hre.stage.symm.trans hs)
      exact ⟨hv, hre.firstFailure.trans hfail, hall.untouched hu⟩
    · intro hs hk
      rw [hre.stage]
      exact hall.enteredInOrder (hr.inOrder (hre.stage ▸ hs) (hre.kind ▸ hk))
    · intro hs hk
      exact hall.enteredAll (hr.together (hre.stage ▸ hs) (hre.kind ▸ hk))
    · intro hs hk
      rw [hre.stage] at hs
      rw [hre.kind] at hk
      exact (hr.joins hs hk).revise hre hall (hr.together hs hk) hlead hsole hsettled
  untouched h := by
    obtain ⟨⟨hslot, hstage, hfail, hfits, hfresh⟩, hu⟩ := h
    have hall' := hall.untouched fun s hs => ⟨freshList_iff.1 hfresh s hs, fun a ha =>
      hu a (leaves_subset hs ha)⟩
    refine ⟨⟨hslot, hre.stage.trans hstage, hre.firstFailure.trans hfail, ?_,
      freshList_iff.2 fun s hs => (hall' s hs).1⟩, ?_⟩
    · rw [hall.length, hre.kind]
      exact hfits
    · intro a ha
      have ha' : a ∈ leavesList steps' := ha
      rw [leavesList_eq] at ha'
      obtain ⟨s, hs, ha⟩ := List.mem_flatMap.1 ha'
      exact (hall' s hs).2 a ha
  dormant h := by
    obtain ⟨hslot, hstage, hfail, hfits, hu⟩ := h
    refine ⟨hslot, hre.stage ▸ hstage, hre.firstFailure.trans hfail, ?_, hall.untouched hu⟩
    rw [hall.length, hre.kind]
    exact hfits
  tied h := by
    simp only [Tied, hre.stage] at h ⊢
    exact h
  answer o h := by
    simp only [answer?, hre.stage] at h ⊢
    exact h
  quiet _ h := by
    simp only [Quiet, hre.stage, hre.waiters] at h ⊢
    exact .inr h
  ready h := by cases h

end Step

end Rundown
