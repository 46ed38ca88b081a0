import Mathlib.Data.List.Perm.Subperm
import Rundown.Proofs.Playlist.Drive
import Rundown.Proofs.Playlist.SweepRounds

/-!
# Driving woken branches

A sweep looks at the branches that have been woken until none is left, the group has a verdict, or
it has looked long enough for now.  `Group.Sweeping` is what every round preserves, and
`Group.Rounds.swept` what the sweep ends with: the rounds suffice, since the open branches and
the queue of wakes get shorter.
-/

namespace Rundown

theorem Scene.Apart.of_mem {x : Scene} {steps : List Step} (h : x.Apart (Step.leavesList steps))
    {s : Step} (hs : s ∈ steps) : x.Apart s.leaves := by
  induction steps with
  | nil => cases hs
  | cons t rest ih =>
    rcases List.mem_cons.1 hs with rfl | hs
    · exact h.left
    · exact ih h.right hs

theorem Scene.Apart.of_ne {x : Scene} {steps : List Step} (h : x.Apart (Step.leavesList steps))
    {i j : Nat} {s t : Step} (hi : steps[i]? = some s) (hj : steps[j]? = some t) (hne : i ≠ j)
    {a : ActionId} (ha : x.sole a) (hm : a ∈ s.leaves) : a ∉ t.leaves :=
  Step.notMem_of_count_le (h a ha) hi hj hne hm

namespace Step

variable {steps : List Step} {i j : Nat} {s t u : Step}

theorem isLeaf_congr (h : t.reset = s.reset) : t.isLeaf = s.isLeaf := by
  cases s <;> cases t <;> first | rfl | cases h

/-- Nothing but its slot can change in a leaf. -/
theorem eq_of_isLeaf (hl : s.isLeaf = true) (hr : t.reset = s.reset) (hs : t.slot = s.slot) :
    t = s := by
  cases s with
  | group => cases hl
  | leaf slot a =>
    cases t with
    | group => cases hr
    | leaf slot' b =>
      cases hr
      cases hs
      rfl

/-- A look changes one step of a group. -/
theorem getElem?_set_of (hi : steps[i]? = some s) :
    (steps.set i t)[j]? = some u ↔ (j = i ∧ u = t) ∨ (j ≠ i ∧ steps[j]? = some u) := by
  have hlt := (List.getElem?_eq_some_iff.1 hi).1
  rw [List.getElem?_set]
  by_cases h : i = j
  · subst h
    simp [hlt, eq_comm]
  · simp [h, Ne.symm h]

theorem resetList_set (hi : steps[i]? = some s) (hr : t.reset = s.reset) :
    resetList (steps.set i t) = resetList steps := by
  rw [resetList_eq, resetList_eq, List.map_set, hr]
  obtain ⟨hlt, rfl⟩ := List.getElem?_eq_some_iff.1 hi
  rw [← List.getElem_map reset (h := by simpa using hlt), List.set_getElem_self]

theorem isLeaf_of_resetList {steps' : List Step} (h : resetList steps' = resetList steps)
    (hl : ∀ s ∈ steps', s.isLeaf = true) : ∀ s ∈ steps, s.isLeaf = true := by
  intro s hs
  obtain ⟨i, hi⟩ := List.mem_iff_getElem?.1 hs
  obtain ⟨t, ht, heq⟩ := getElem?_of_resetList h hi
  rw [← isLeaf_congr heq]
  exact hl t (List.mem_of_getElem? ht)

/-- The indices of the steps that are not done. -/
def undone (steps : List Step) : List Nat :=
  (List.range steps.length).filter fun i => steps[i]?.any fun s => !s.isDone

theorem mem_undone : i ∈ undone steps ↔ ∃ s, steps[i]? = some s ∧ s.isDone = false := by
  simp only [undone, List.mem_filter, List.mem_range, Option.any_eq_true, Bool.not_eq_true']
  constructor
  · exact fun h => h.2
  · rintro ⟨s, hs, hd⟩
    exact ⟨(List.getElem?_eq_some_iff.1 hs).1, s, hs, hd⟩

theorem length_undone : (undone steps).length = (steps.filter fun s => !s.isDone).length := by
  have hrange : (List.range steps.length).map (fun i => steps[i]?) = steps.map some := by
    refine List.ext_getElem? ?_
    intro i
    rw [List.getElem?_map, List.getElem?_map]
    by_cases hi : i < steps.length
    · simp [List.getElem?_range hi, List.getElem?_eq_getElem hi]
    · simp [Nat.not_lt.1 hi]
  have hcount := congrArg (List.countP fun o => o.any fun s : Step => !s.isDone) hrange
  rw [List.countP_map, List.countP_map] at hcount
  rw [undone, ← List.countP_eq_length_filter, ← List.countP_eq_length_filter]
  exact hcount

theorem undone_set_of_isDone_eq (hi : steps[i]? = some s) (h : t.isDone = s.isDone) :
    undone (steps.set i t) = undone steps := by
  unfold undone
  rw [List.length_set]
  refine List.filter_congr ?_
  intro j _
  rw [List.getElem?_set]
  by_cases hij : i = j
  · subst hij
    rw [if_pos rfl, if_pos (List.getElem?_eq_some_iff.1 hi).1, hi, Option.any_some,
      Option.any_some, h]
  · rw [if_neg hij]

theorem length_undone_set (hi : steps[i]? = some s) (hs : s.isDone = false) (h : t.isDone = true) :
    (undone steps).length = (undone (steps.set i t)).length + 1 := by
  rw [length_undone, length_undone, ← List.countP_eq_length_filter, ← List.countP_eq_length_filter]
  obtain ⟨hlt, rfl⟩ := List.getElem?_eq_some_iff.1 hi
  have hpos : 0 < steps.countP fun s => !s.isDone :=
    List.countP_pos_iff.2 ⟨_, List.getElem_mem hlt, by simp [hs]⟩
  rw [List.countP_set hlt, hs, h]
  simp only [Bool.not_false, Bool.not_true, if_true, Bool.false_eq_true, if_false]
  omega

/-! ## Looking at one branch -/

/-- How the branches of a group stand after some looks at them. -/
structure Standing (x : Scene) (place : List Nat) (v : Json) (steps : List Step) (w : World)
    (steps' : List Step) (w' : World) : Prop where
  reset : resetList steps' = resetList steps
  evolves : World.Evolves (leavesList steps) w w'
  entered : EnteredAll (x.after w') place 0 v steps'

variable {x : Scene} {place : List Nat} {v : Json} {w w' w'' : World} {steps' : List Step}

/-- A look at one branch does not concern the others. -/
theorem follows_of_ne (hapart : x.Apart (leavesList steps)) (hi : steps[i]? = some s)
    (hj : steps[j]? = some u) (hne : j ≠ i) (hev : World.Evolves s.leaves w w') :
    Scene.Follows (place ++ [j]) u.leaves (x.after w) (x.after w') :=
  .of_evolves hev fun _ ha hx => hapart.of_ne hj hi hne hx ha

theorem enteredAll_set (h : EnteredAll (x.after w) place 0 v steps)
    (hapart : x.Apart (leavesList steps)) (hi : steps[i]? = some s)
    (hev : World.Evolves s.leaves w w') (ht : t.Entered (x.after w') (place ++ [i]) v)
    (htied : t.Tied) : EnteredAll (x.after w') place 0 v (steps.set i t) := by
  rw [enteredAll_iff] at h ⊢
  intro j u hj
  rcases (getElem?_set_of hi).1 hj with ⟨rfl, rfl⟩ | ⟨hne, hj⟩
  · rw [Nat.zero_add]
    exact ⟨ht, htied⟩
  · have hf := h j u hj
    rw [Nat.zero_add] at hf ⊢
    exact ⟨hf.1.mono (follows_of_ne hapart hi hj hne hev), hf.2⟩

theorem Standing.set (h : Standing x place v steps w steps' w')
    (hapart : x.Apart (leavesList steps)) (hi : steps'[i]? = some s) (hr : t.reset = s.reset)
    (hev : World.Evolves s.leaves w' w'') (ht : t.Entered (x.after w'') (place ++ [i]) v)
    (htied : t.Tied) : Standing x place v steps w (steps'.set i t) w'' where
  reset := (resetList_set hi hr).trans h.reset
  evolves := by
    refine h.evolves.trans (hev.mono ?_)
    rw [← leavesList_of_resetList h.reset]
    exact leaves_subset (List.mem_of_getElem? hi)
  entered := enteredAll_set h.entered (leavesList_of_resetList h.reset ▸ hapart) hi hev ht htied

theorem Standing.scheduleAll (h : Standing x place v steps w steps' w') (ts : List Task) :
    Standing x place v steps w steps' (w'.scheduleAll ts) where
  reset := h.reset
  evolves := h.evolves.scheduleAll ts
  entered := enteredAll_mono (fun _ _ _ _ h hf => h.mono hf) (fun _ => .scheduleAll w' ts)
    h.entered

/-- What a leaf that nobody else has leads to is what its completion settled with. -/
theorem Entered.result?_leaf {slot : Slot} {a : ActionId} {y : Scene}
    (h : (leaf slot a).Entered y place v) (ha : y.sole a) :
    (leaf slot a).result? y.world = (y.world.settlement? a).map fun s => s.mapError .action := by
  cases slot with
  | idle => exact h.elim
  | waiting => rfl
  | refused e => exact absurd ha h.2
  | done o =>
    rcases h with ⟨-, s, hs, rfl⟩ | ⟨-, hn⟩
    · rw [hs]
      rfl
    · exact absurd ha hn

end Step

namespace Step

variable {steps steps' : List Step}

theorem takenValues_congr (h : steps'.map taken? = steps.map taken?) :
    takenValues steps' = takenValues steps := by
  induction steps generalizing steps' with
  | nil => rw [List.map_eq_nil_iff.1 h]
  | cons s rest ih =>
    obtain ⟨s', rest', rfl, hs, hrest⟩ := List.map_eq_cons_iff.1 h
    simp only [takenValues, hs, ih hrest]

/-- What was taken is a value. -/
def isValue (o : Option Outcome) : Bool := o matches some (.ok _)

/-- The group around the step has taken a value from it. -/
def succeeded (s : Step) : Bool := isValue s.taken?

theorem succeeded_iff {s : Step} : s.succeeded = true ↔ ∃ u, s.taken? = some (.ok u) := by
  unfold succeeded isValue
  rcases s.taken? with _ | ⟨e | u⟩ <;> simp

theorem takenInOrder_eq (keys : List String) (steps : List Step) :
    takenInOrder keys steps = match steps.find? fun s => !s.succeeded with
      | some s => s.taken?
      | none => (takenValues steps).map fun values => .ok (Json.ofFields (keys.zip values)) := rfl

/-- The outcome of branches taken in order depends on the outcomes taken from them only. -/
theorem takenInOrder_congr (h : steps'.map taken? = steps.map taken?) (keys : List String) :
    takenInOrder keys steps' = takenInOrder keys steps := by
  have hmap (l : List Step) : (l.find? fun s => !s.succeeded).map taken? =
      (l.map taken?).find? fun o => !isValue o := by
    rw [List.find?_map]
    rfl
  have hfind := hmap steps'
  rw [h, ← hmap steps] at hfind
  rw [takenInOrder_eq, takenInOrder_eq, takenValues_congr h]
  cases hs : steps.find? fun s => !s.succeeded with
  | none =>
    rw [hs, Option.map_none, Option.map_eq_none_iff] at hfind
    rw [hfind]
  | some s =>
    obtain ⟨s', hs', ht⟩ := Option.map_eq_some_iff.1 (hs ▸ hfind)
    rw [hs']
    exact ht

end Step

namespace Group

open Step

variable {x : Scene} {place : List Nat} {tasks : List Task} {height : Nat} {look : Look}
  {g : Group} {v : Json} {steps : List Step} {w : World}

theorem tracksWakes_congr {g' : Group} (h : g'.kind = g.kind) (width : Nat) :
    g'.tracksWakes width = g.tracksWakes width := by
  unfold tracksWakes
  rw [h]

theorem verdict_congr {steps' : List Step} (h : steps'.map taken? = steps.map taken?) :
    g.verdict steps' = g.verdict steps := by
  have hdone : ∀ l : List Step, l.all isDone = (l.map taken?).all Option.isSome := by
    intro l
    rw [List.all_map]
    refine congrArg l.all (funext ?_)
    intro s
    unfold isDone taken?
    cases hs : s.slot <;> simp [hs]
  unfold verdict
  simp only [hdone, h, takenInOrder_congr h]

theorem TookFailure.set {i : Nat} {s t : Step} {e : PlaylistError} (h : TookFailure steps e)
    (hi : steps[i]? = some s) (hs : s.isDone = false) :
    TookFailure (steps.set i t) e := by
  obtain ⟨u, hu, htaken⟩ := h
  obtain ⟨j, hj⟩ := List.mem_iff_getElem?.1 hu
  refine ⟨u, List.mem_of_getElem? ((getElem?_set_of hi).2 (.inr ⟨?_, hj⟩)), htaken⟩
  rintro rfl
  rw [hi] at hj
  cases hj
  rw [taken?_eq_none_iff.2 hs] at htaken
  cases htaken

theorem TookFailure.of_set {i : Nat} {t : Step} {e : PlaylistError}
    (h : TookFailure (steps.set i t) e) :
    t.taken? = some (.error e) ∨ TookFailure steps e := by
  obtain ⟨u, hu, htaken⟩ := h
  rcases List.mem_or_eq_of_mem_set hu with hu | rfl
  · exact .inr ⟨u, hu, htaken⟩
  · exact .inl htaken

@[simp] theorem note_kind (o : Outcome) : (g.note o).kind = g.kind := by cases o <;> rfl

@[simp] theorem note_stage (o : Outcome) : (g.note o).stage = g.stage := by cases o <;> rfl

@[simp] theorem note_waiters (o : Outcome) : (g.note o).waiters = g.waiters := by cases o <;> rfl

@[simp] theorem note_woken (o : Outcome) : (g.note o).woken = g.woken := by cases o <;> rfl

/-- The group takes the outcome of a branch. -/
theorem Recorded.note {i : Nat} {s t : Step} {o : Outcome} (h : g.Recorded steps)
    (hi : steps[i]? = some s) (hs : s.isDone = false) (ht : t.taken? = some o) :
    (g.note o).Recorded (steps.set i t) := by
  cases o with
  | ok u =>
    refine ⟨fun e he => (h.took e he).set hi hs, ?_⟩
    intro htracks hnone e he
    rw [List.length_set] at htracks
    rcases he.of_set with he | he
    · rw [ht] at he
      cases he
    · exact h.keeps htracks hnone e he
  | error e =>
    constructor
    · intro e' he
      rcases Option.or_eq_some_iff.1 he with he | ⟨-, he⟩
      · exact (h.took e' he).set hi hs
      · cases he
        exact ⟨t, List.mem_of_getElem? ((getElem?_set_of hi).2 (.inl ⟨rfl, rfl⟩)), ht⟩
    · intro _ hnone
      cases (Option.or_eq_none_iff.1 hnone).2

/-- A leaf that has failed is still to be looked at as long as the group keeps no failure. -/
theorem Recorded.pending (h : g.Recorded steps) (htracks : g.tracksWakes steps.length = true)
    (hnone : g.firstFailure = none) {slot : Slot} {a : ActionId} {e : ActionError} {y : Scene}
    (hm : .leaf slot a ∈ steps) (hent : (Step.leaf slot a).Entered y place v) (hsole : y.sole a)
    (he : y.world.settlement? a = some (.error e)) :
    (Step.leaf slot a).isDone = false ∧
      (Step.leaf slot a).answer? y.world = some (.error (.action e)) := by
  have hres := hent.result?_leaf hsole
  rw [he, result?] at hres
  cases ht : (Step.leaf slot a).taken? with
  | none =>
    rw [ht] at hres
    exact ⟨taken?_eq_none_iff.1 ht, hres⟩
  | some o =>
    rw [ht] at hres
    cases hres
    exact absurd ⟨_, hm, ht⟩ (h.keeps htracks hnone (.action e))

/-! ## Rounds -/

/-- The next branch to be looked at leads, or it succeeds and another one leads. -/
theorem Heads.next {i j : Nat} {e : ActionError} {rest : List Nat} (h : g.Heads w steps i e)
    (hw : g.woken = j :: rest) :
    g.firstFailure = some (.action e) ∨ (g.firstFailure = none ∧ (i = j ∨
      ((∀ s, steps[j]? = some s → s.isDone = false → ∃ u, s.answer? w = some (.ok u)) ∧
        { g with woken := rest }.Heads w steps i e))) := by
  rcases h with h | ⟨h, front, back, hsplit, hfront⟩
  · exact .inl h
  · refine .inr ⟨h, ?_⟩
    rw [hw] at hsplit
    cases front with
    | nil =>
      cases hsplit
      exact .inl rfl
    | cons k front =>
      cases hsplit
      exact .inr ⟨hfront j List.mem_cons_self, .inr ⟨h, front, back, rfl, fun k hk =>
        hfront k (List.mem_cons_of_mem _ hk)⟩⟩

/-- What a sweep has made so far of a group whose branches were given, in the world `w`, at its
start. -/
structure Held (x : Scene) (place : List Nat) (tasks : List Task) (g : Group) (v : Json)
    (steps : List Step) (w : World) (d : Drive) : Prop
    extends Standing x place v steps w d.steps d.world where
  kind : d.group.kind = g.kind
  stage : d.group.stage = .running
  waiters : d.group.waiters = g.waiters
  recorded : d.group.Recorded d.steps
  led : d.group.Led (x.after d.world) d.steps
  signalled : d.signalled = true → ∀ t ∈ tasks, d.world.Due t

namespace Held

variable {d : Drive} {i j : Nat} {rest : List Nat} {s : Step} {p : Polled}

theorem tracks (h : Held x place tasks g v steps w d) :
    d.group.tracksWakes d.steps.length = g.tracksWakes steps.length := by
  rw [length_of_resetList h.reset, tracksWakes_congr h.kind]

theorem pending (h : Held x place tasks g v steps w d) (htracks : g.tracksWakes steps.length = true)
    (hnone : d.group.firstFailure = none) {slot : Slot} {a : ActionId} {e : ActionError}
    (hi : d.steps[i]? = some (.leaf slot a)) (hsole : x.sole a)
    (he : d.world.settlement? a = some (.error e)) :
    (Step.leaf slot a).isDone = false ∧
      (Step.leaf slot a).answer? d.world = some (.error (.action e)) :=
  h.recorded.pending (h.tracks.trans htracks) hnone (List.mem_of_getElem? hi)
    (enteredAll_iff.1 h.entered i _ hi).1 hsole he

/-- A branch that is done is not looked at. -/
theorem drop (h : Held x place tasks g v steps w d) (htracks : g.tracksWakes steps.length = true)
    (hw : d.group.woken = j :: rest) (hs : ∀ s, d.steps[j]? = some s → s.isDone = true) :
    Held x place tasks g v steps w { d with group := { d.group with woken := rest } } where
  toStanding := h.toStanding
  kind := h.kind
  stage := h.stage
  waiters := h.waiters
  recorded := ⟨h.recorded.took, h.recorded.keeps⟩
  signalled := h.signalled
  led hk hl i slot a hi hlead hsole := by
    obtain ⟨e, he, hrun, hfin⟩ := h.led hk hl i slot a hi hlead hsole
    refine ⟨e, he, ?_, hfin⟩
    intro hst
    rcases (hrun hst).next hw with hff | ⟨hnone, rfl | ⟨-, hheads⟩⟩
    · exact .inl hff
    · have hopen := (h.pending htracks hnone hi hsole he).1
      rw [hs _ hi] at hopen
      cases hopen
    · exact hheads

/-- A branch that was looked at is not ready. -/
theorem passed (h : Held x place tasks g v steps w d) (hapart : x.Apart (leavesList steps))
    (htracks : g.tracksWakes steps.length = true) (hw : d.group.woken = j :: rest)
    (hs : d.steps[j]? = some s) (ha : s.isAwaited = true)
    (hl : s.Looked x (place ++ [j]) v tasks d.world p) (ho : p.outcome = none) (extra : List Nat) :
    Held x place tasks g v steps w ⟨{ d.group with woken := rest ++ extra }, d.steps.set j p.step,
      p.world, none, d.signalled || p.signalled⟩ where
  toStanding := h.toStanding.set hapart hs hl.reset hl.evolves hl.entered
    (tied_of_isAwaited (enteredAll_iff.1 h.entered j s hs).2 ha hl.slot hl.reset)
  kind := h.kind
  stage := h.stage
  waiters := h.waiters
  recorded := by
    have hd := isDone_eq_false_of_isAwaited ha
    have hnone : p.step.taken? = none :=
      taken?_eq_none_iff.2 ((isDone_congr hl.slot).trans hd)
    refine ⟨fun e he => (h.recorded.took e he).set hs hd, ?_⟩
    intro ht hf e he
    rw [List.length_set] at ht
    rcases he.of_set with he | he
    · rw [hnone] at he
      cases he
    · exact h.recorded.keeps ht hf e he
  signalled hsg t ht := by
    rcases Bool.or_eq_true_iff.1 hsg with hsg | hsg
    · exact hl.evolves.keeps.due t (h.signalled hsg t ht)
    · exact hl.signalled hsg t ht
  led hk hleaf i slot a hi hlead hsole := by
    have hleaf' := isLeaf_of_resetList (resetList_set hs hl.reset) hleaf
    have hsame : p.step = s := eq_of_isLeaf (hleaf' s (List.mem_of_getElem? hs)) hl.reset hl.slot
    have hset : d.steps.set j p.step = d.steps := by
      rw [hsame]
      obtain ⟨hlt, rfl⟩ := List.getElem?_eq_some_iff.1 hs
      exact List.set_getElem_self hlt
    have hi' : d.steps[i]? = some (.leaf slot a) := hset ▸ hi
    obtain ⟨e, he, hrun, hfin⟩ := h.led hk hleaf' i slot a hi' hlead hsole
    refine ⟨e, hl.evolves.keeps.settled a _ he, ?_, hfin⟩
    intro hst
    -- the branch would be ready if it or another one behind it led
    have hans (o : Outcome) (hso : s.answer? d.world = some o) : False := by
      have := hl.answer.trans (hsame ▸ answer?_mono hl.evolves.keeps.settled hso)
      rw [ho] at this
      cases this
    rcases (hrun hst).next hw with hff | ⟨hnone, rfl | ⟨hok, -⟩⟩
    · exact .inl hff
    · obtain rfl : s = .leaf slot a := Option.some.inj (hs.symm.trans hi')
      exact (hans _ (h.pending htracks hnone hi' hsole he).2).elim
    · obtain ⟨u, hu⟩ := hok s hs (isDone_eq_false_of_isAwaited ha)
      exact (hans _ hu).elim

/-- A branch that is not done can be looked at. -/
theorem looked (h : Held x place tasks g v steps w d) (hlook : look.Sound x place tasks height)
    (hheight : heightList steps ≤ height) (hapart : x.Apart (leavesList steps))
    (hs : d.steps[j]? = some s) (hd : s.isDone = false) :
    s.isAwaited = true ∧ s.Looked x (place ++ [j]) v tasks d.world (look j s d.world) ∧
      ((look j s d.world).outcome = none →
        (look j s d.world).step.Quiet (look j s d.world).world) := by
  have hent := enteredAll_iff.1 h.entered j s hs
  rw [Nat.zero_add] at hent
  have ha := hent.1.isAwaited hent.2 hd
  have hm := List.mem_of_getElem? hs
  rw [← heightList_of_resetList h.reset] at hheight
  rw [← leavesList_of_resetList h.reset] at hapart
  exact ⟨ha, hlook j s d.world v (Nat.le_trans (height_le hm) hheight) (hapart.of_mem hm) hent.1
    hent.2 ha⟩

/-- The group takes the outcome of the branch that it has looked at. -/
theorem took (h : Held x place tasks g v steps w d) (hapart : x.Apart (leavesList steps))
    (htracks : g.tracksWakes steps.length = true) (hw : d.group.woken = j :: rest)
    (hs : d.steps[j]? = some s) (ha : s.isAwaited = true)
    (hl : s.Looked x (place ++ [j]) v tasks d.world p) {o : Outcome} (ho : p.outcome = some o)
    (extra : List Nat) (r : Option Outcome) :
    Held x place tasks g v steps w ⟨{ d.group with woken := rest ++ extra }.note o,
      d.steps.set j (p.step.withSlot (.done o)), p.world, r, d.signalled || p.signalled⟩ := by
  have hd := isDone_eq_false_of_isAwaited ha
  have hd' : p.step.isDone = false := (isDone_congr hl.slot).trans hd
  have hans := hl.answer.symm.trans ho
  have hreset : (p.step.withSlot (.done o)).reset = s.reset := (reset_withSlot _ _).trans hl.reset
  refine ⟨h.toStanding.set hapart hs hreset hl.evolves (hl.entered.take hans hd')
    (hl.entered.tied_take hans), (note_kind o).trans h.kind, (note_stage o).trans h.stage,
    (note_waiters o).trans h.waiters, ?_, ?_, ?_⟩
  · exact Recorded.note ⟨h.recorded.took, h.recorded.keeps⟩ hs hd (taken?_withSlot _ _)
  · intro hk hleaf i slot a hi hlead hsole
    have hleaf' := isLeaf_of_resetList (resetList_set hs hreset) hleaf
    have hsame : p.step = s := eq_of_isLeaf (hleaf' s (List.mem_of_getElem? hs)) hl.reset hl.slot
    obtain ⟨slot', hi'⟩ : ∃ slot', d.steps[i]? = some (.leaf slot' a) := by
      rcases (getElem?_set_of hs).1 hi with ⟨rfl, heq⟩ | ⟨-, hi⟩
      · rw [hsame] at heq
        cases s with
        | group => cases heq
        | leaf slot' b =>
          cases heq
          exact ⟨slot', hs⟩
      · exact ⟨slot, hi⟩
    have hk' : ∃ keys, d.group.kind = .parallel keys .settleAll := by
      simpa only [note_kind] using hk
    obtain ⟨e, he, hrun, hfin⟩ := h.led hk' hleaf' i slot' a hi' hlead hsole
    have hready (o' : Outcome) (hso : s.answer? d.world = some o') : o = o' := by
      have := hl.answer.trans (hsame ▸ answer?_mono hl.evolves.keeps.settled hso)
      rw [ho] at this
      exact Option.some.inj this
    refine ⟨e, hl.evolves.keeps.settled a _ he, ?_, ?_⟩
    · intro _
      rcases (hrun h.stage).next hw with hff | ⟨hnone, rfl | ⟨hok, hheads⟩⟩
      · left
        cases o with
        | ok u => exact hff
        | error e' => exact Option.or_eq_some_iff.2 (.inl hff)
      · obtain rfl : s = .leaf slot' a := Option.some.inj (hs.symm.trans hi')
        obtain rfl := hready _ (h.pending htracks hnone hi' hsole he).2
        exact .inl (Option.or_eq_some_iff.2 (.inr ⟨hnone, rfl⟩))
      · obtain ⟨u, hu⟩ := hok s hs hd
        obtain rfl := hready _ hu
        rcases hheads with hff | ⟨-, front, back, rfl, hfront⟩
        · exact .inl hff
        · refine .inr ⟨hnone, front, back ++ extra, by simp [note], ?_⟩
          intro k hk t ht htd
          rcases (getElem?_set_of hs).1 ht with ⟨rfl, rfl⟩ | ⟨-, ht⟩
          · rw [isDone_withSlot] at htd
            cases htd
          · obtain ⟨u', hu'⟩ := hfront k hk t ht htd
            exact ⟨u', answer?_mono hl.evolves.keeps.settled hu'⟩
    · intro o' ho'
      rw [note_stage] at ho'
      exact hfin o' ho'
  · intro hsg t ht
    rcases Bool.or_eq_true_iff.1 hsg with hsg | hsg
    · exact hl.evolves.keeps.due t (h.signalled hsg t ht)
    · exact hl.signalled hsg t ht

end Held

/-- What every round of a sweep preserves.  `seen` are the branches that were looked at since the
last outcome; a group of leaves does not come back to any of them, since leaves are not woken. -/
structure Sweeping (x : Scene) (place : List Nat) (tasks : List Task) (g : Group) (v : Json)
    (steps : List Step) (w : World) (live : Nat) (seen : List Nat) (d : Drive) : Prop
    extends Held x place tasks g v steps w d where
  outcome : d.outcome = none
  verdict : d.group.verdict d.steps = none
  nodup : d.group.woken.Nodup
  noted : ∀ i s, d.steps[i]? = some s → s.isDone = false → i ∈ d.group.woken ∨ s.Quiet d.world
  live : live = (undone d.steps).length
  seen : (∀ s ∈ d.steps, s.isLeaf = true) →
    (seen ++ d.group.woken).Nodup ∧ ∀ i ∈ seen, i ∈ undone d.steps

/-- What a sweep ends with. -/
structure Swept (x : Scene) (place : List Nat) (tasks : List Task) (g : Group) (v : Json)
    (steps : List Step) (w : World) (d : Drive) : Prop
    extends Held x place tasks g v steps w d where
  verdict : d.outcome = none → d.group.verdict d.steps = none
  noted : d.outcome = none → d.group.Noted (x.after d.world) d.steps
  caught : d.outcome = none → d.group.woken = [] ∨ ∀ t ∈ tasks, d.world.Due t
  decided : ∀ o, d.outcome = some o → d.group.verdict d.steps = some o

namespace Sweeping

variable {d : Drive} {j live : Nat} {seen rest : List Nat} {s : Step} {p : Polled}

theorem drop (h : Sweeping x place tasks g v steps w live seen d)
    (htracks : g.tracksWakes steps.length = true) (hw : d.group.woken = j :: rest)
    (hs : ∀ s, d.steps[j]? = some s → s.isDone = true) :
    Sweeping x place tasks g v steps w live seen
      { d with group := { d.group with woken := rest } } where
  toHeld := h.toHeld.drop htracks hw hs
  outcome := h.outcome
  verdict := h.verdict
  nodup := by
    have := h.nodup
    rw [hw] at this
    exact (List.nodup_cons.1 this).2
  noted i t hi hd := by
    rcases h.noted i t hi hd with hm | hq
    · rw [hw] at hm
      rcases List.mem_cons.1 hm with rfl | hm
      · rw [hs t hi] at hd
        cases hd
      · exact .inl hm
    · exact .inr hq
  live := h.live
  seen hleaf := by
    obtain ⟨hn, hsub⟩ := h.seen hleaf
    rw [hw] at hn
    exact ⟨hn.sublist ((List.sublist_cons_self j rest).append_left seen), hsub⟩

/-- The branch is queued again if it was woken while it was looked at. -/
theorem nodup_requeued (h : Sweeping x place tasks g v steps w live seen d)
    (hw : d.group.woken = j :: rest) (again : Bool) :
    (rest ++ if again then [j] else []).Nodup := by
  have hn := h.nodup
  rw [hw, List.nodup_cons] at hn
  cases again with
  | false => simpa using hn.2
  | true => simpa [List.nodup_append] using ⟨hn.2, fun a ha heq => hn.1 (heq ▸ ha)⟩

/-- The branches that are not looked at stay as they are. -/
theorem noted_of_ne (h : Sweeping x place tasks g v steps w live seen d)
    (hapart : x.Apart (leavesList steps)) (hw : d.group.woken = j :: rest)
    (hs : d.steps[j]? = some s) {w' : World} (hev : World.Evolves s.leaves d.world w')
    (extra : List Nat) {i : Nat} {t : Step} (hne : i ≠ j) (hi : d.steps[i]? = some t)
    (hd : t.isDone = false) : i ∈ rest ++ extra ∨ t.Quiet w' := by
  rcases h.noted i t hi hd with hm | hq
  · rw [hw] at hm
    exact .inl (List.mem_append_left _ ((List.mem_cons.1 hm).resolve_left hne))
  · have hapart' : x.Apart (leavesList d.steps) := leavesList_of_resetList h.reset ▸ hapart
    have hf : Scene.Follows (place ++ [i]) t.leaves (x.after d.world) (x.after w') :=
      follows_of_ne hapart' hs hi hne hev
    exact .inr (hq.mono hf)

theorem passed (h : Sweeping x place tasks g v steps w live seen d)
    (hapart : x.Apart (leavesList steps)) (htracks : g.tracksWakes steps.length = true)
    (hw : d.group.woken = j :: rest) (hs : d.steps[j]? = some s) (ha : s.isAwaited = true)
    (hl : s.Looked x (place ++ [j]) v tasks d.world p) (ho : p.outcome = none)
    (hq : p.step.Quiet p.world) :
    Sweeping x place tasks g v steps w live (j :: seen)
      ⟨{ d.group with woken := rest ++ if p.signalled then [j] else [] }, d.steps.set j p.step,
        p.world, none, d.signalled || p.signalled⟩ where
  toHeld := h.toHeld.passed hapart htracks hw hs ha hl ho _
  outcome := rfl
  verdict := by
    refine (verdict_congr ?_).trans h.verdict
    have hsame : p.step.taken? = s.taken? := by
      unfold taken?
      rw [hl.slot]
    rw [List.map_set, hsame]
    obtain ⟨hlt, rfl⟩ := List.getElem?_eq_some_iff.1 hs
    rw [← List.getElem_map taken? (h := by simpa using hlt), List.set_getElem_self]
  nodup := h.nodup_requeued hw _
  noted i t hi hd := by
    rcases (getElem?_set_of hs).1 hi with ⟨rfl, rfl⟩ | ⟨hne, hi⟩
    · exact .inr hq
    · exact h.noted_of_ne hapart hw hs hl.evolves _ hne hi hd
  live := by rw [undone_set_of_isDone_eq hs (isDone_congr hl.slot)]; exact h.live
  seen hleaf := by
    have hleaf' := isLeaf_of_resetList (resetList_set hs hl.reset) hleaf
    obtain ⟨hn, hsub⟩ := h.seen hleaf'
    rw [hw] at hn
    have hsilent := hl.silent (hleaf' s (List.mem_of_getElem? hs))
    rw [undone_set_of_isDone_eq hs (isDone_congr hl.slot)]
    refine ⟨?_, List.forall_mem_cons.2
      ⟨mem_undone.2 ⟨s, hs, isDone_eq_false_of_isAwaited ha⟩, hsub⟩⟩
    rw [hsilent]
    simpa using List.perm_middle.nodup_iff.1 hn

theorem took (h : Sweeping x place tasks g v steps w live seen d)
    (hapart : x.Apart (leavesList steps)) (htracks : g.tracksWakes steps.length = true)
    (hw : d.group.woken = j :: rest) (hs : d.steps[j]? = some s) (ha : s.isAwaited = true)
    (hl : s.Looked x (place ++ [j]) v tasks d.world p) {o : Outcome} (ho : p.outcome = some o)
    (hverdict : ({ d.group with woken := rest ++ if p.signalled then [j] else [] }.note o).verdict
      (d.steps.set j (p.step.withSlot (.done o))) = none) :
    Sweeping x place tasks g v steps w (live - 1) []
      ⟨{ d.group with woken := rest ++ if p.signalled then [j] else [] }.note o,
        d.steps.set j (p.step.withSlot (.done o)), p.world, none, d.signalled || p.signalled⟩ where
  toHeld := h.toHeld.took hapart htracks hw hs ha hl ho _ _
  outcome := rfl
  verdict := hverdict
  nodup := by
    rw [note_woken]
    exact h.nodup_requeued hw _
  noted i t hi hd := by
    rw [note_woken]
    rcases (getElem?_set_of hs).1 hi with ⟨rfl, rfl⟩ | ⟨hne, hi⟩
    · rw [isDone_withSlot] at hd
      cases hd
    · exact h.noted_of_ne hapart hw hs hl.evolves _ hne hi hd
  live := by
    have := length_undone_set hs (isDone_eq_false_of_isAwaited ha)
      (isDone_withSlot p.step o)
    have := h.live
    simp only
    omega
  seen _ := by
    rw [note_woken]
    exact ⟨h.nodup_requeued hw _, fun i hi => by cases hi⟩

theorem live_pos (h : Sweeping x place tasks g v steps w live seen d)
    (hs : d.steps[j]? = some s) (hd : s.isDone = false) : 0 < live := by
  rw [h.live]
  exact List.length_pos_of_mem (mem_undone.2 ⟨s, hs, hd⟩)

/-- The sweep is over when no branch is queued. -/
theorem finish (h : Sweeping x place tasks g v steps w live seen d) (hw : d.group.woken = []) :
    Swept x place tasks g v steps w d where
  toHeld := h.toHeld
  verdict _ := h.verdict
  noted _ := ⟨h.nodup, h.noted, fun _ i hi => by rw [hw] at hi; cases hi⟩
  caught _ := .inl hw
  decided o ho := by
    rw [h.outcome] at ho
    cases ho

/-- Once as many leaves were looked at as are open, none of them is queued. -/
theorem all_seen (h : Sweeping x place tasks g v steps w live seen d)
    (hleaf : ∀ s ∈ d.steps, s.isLeaf = true) (hlen : seen.length = live) {i : Nat}
    (hi : i ∈ d.group.woken) : i ∉ undone d.steps := by
  obtain ⟨hn, hsub⟩ := h.seen hleaf
  have hsubperm := (List.nodup_append.1 hn).1.subperm hsub
  have hperm := hsubperm.perm_of_length_le (Nat.le_of_eq (hlen.trans h.live).symm)
  exact fun hm => (List.nodup_append.1 hn).2.2 i (hperm.mem_iff.2 hm) i hi rfl

/-- The sweep stops for now, and the group is looked at again. -/
theorem stop (h : Sweeping x place tasks g v steps w live seen d)
    (hall : (∀ s ∈ d.steps, s.isLeaf = true) → seen.length = live) :
    Swept x place tasks g v steps w
      ⟨d.group, d.steps, d.world.scheduleAll tasks, none, true⟩ := by
  refine ⟨⟨h.toStanding.scheduleAll tasks, h.kind, h.stage, h.waiters, h.recorded, ?_,
    fun _ t ht => World.due_scheduleAll _ ht⟩, fun _ => h.verdict,
    fun _ => ⟨h.nodup, ?_, ?_⟩, fun _ => .inr fun t ht => World.due_scheduleAll _ ht,
    fun o ho => (by cases ho)⟩
  · intro hk hleaf i slot a hi hlead hsole
    obtain ⟨e, he, hrun, hfin⟩ := h.led hk hleaf i slot a hi hlead hsole
    have hsettled := (World.scheduleAll_keeps (fun _ => False) tasks d.world).settled
    exact ⟨e, hsettled a _ he, fun hst => (hrun hst).mono hsettled, hfin⟩
  · intro i s hi hd
    have hf : Scene.Follows place s.leaves (x.after d.world)
        (x.after (d.world.scheduleAll tasks)) := .scheduleAll d.world tasks
    exact (h.noted i s hi hd).imp_right fun hq => hq.mono hf
  · intro hleaf i hi s hs hd
    exact absurd (mem_undone.2 ⟨s, hs, hd⟩) (h.all_seen hleaf (hall hleaf) hi)

section Turn

variable {look : Look} {height : Nat} (h : Sweeping x place tasks g v steps w live seen d)
  (hlook : look.Sound x place tasks height) (hheight : heightList steps ≤ height)
  (hapart : x.Apart (leavesList steps))

include h

/-- The queue after a look at its first branch. -/
theorem requeued (hw : d.group.woken = j :: rest) (woken : Bool) :
    d.group.requeued j rest woken =
      { d.group with woken := rest ++ if woken then [j] else [] } := by
  have hn := h.nodup
  rw [hw] at hn
  exact requeued_eq (List.nodup_cons.1 hn).1 d.group woken

include hlook hheight hapart

theorem turn (ht : Turn look d j rest s p) : s.isAwaited = true ∧
    s.Looked x (place ++ [j]) v tasks d.world p ∧ (p.outcome = none → p.step.Quiet p.world) :=
  ht.looked ▸ h.toHeld.looked hlook hheight hapart ht.step ht.undone

variable (htracks : g.tracksWakes steps.length = true)

include htracks

theorem passing (ht : Turn look d j rest s p) (ho : p.outcome = none) :
    Sweeping x place tasks g v steps w live (j :: seen) (d.passing j rest p) := by
  obtain ⟨ha, hl, hquiet⟩ := h.turn hlook hheight hapart ht
  rw [Drive.passing, h.requeued ht.woken]
  exact h.passed hapart htracks ht.woken ht.step ha hl ho (hquiet ho)

theorem taking (ht : Turn look d j rest s p) {o : Outcome} (ho : p.outcome = some o)
    (hv : (d.taking j rest p o).group.verdict (d.taking j rest p o).steps = none) :
    Sweeping x place tasks g v steps w (live - 1) [] (d.taking j rest p o) := by
  obtain ⟨ha, hl, -⟩ := h.turn hlook hheight hapart ht
  simp only [Drive.taking, h.requeued ht.woken] at hv ⊢
  exact h.took hapart htracks ht.woken ht.step ha hl ho hv

/-- The group has a verdict when it takes the outcome. -/
theorem deciding (ht : Turn look d j rest s p) {o verdict : Outcome} (ho : p.outcome = some o)
    (hv : (d.taking j rest p o).group.verdict (d.taking j rest p o).steps = some verdict) :
    Swept x place tasks g v steps w { d.taking j rest p o with outcome := some verdict } := by
  obtain ⟨ha, hl, -⟩ := h.turn hlook hheight hapart ht
  simp only [Drive.taking, h.requeued ht.woken] at hv ⊢
  exact ⟨h.toHeld.took hapart htracks ht.woken ht.step ha hl ho _ (some verdict),
    fun h => (by cases h), fun h => (by cases h), fun h => (by cases h), fun _ heq => hv.trans heq⟩

end Turn

end Sweeping

/-- The rounds suffice: with each of them a branch ends, or the queue gets shorter, or the group is
one step nearer to the point where it stops for now. -/
theorem Rounds.swept {look : Look} {height fuel live looked again : Nat} {seen : List Nat}
    {d d' : Drive} (hlook : look.Sound x place tasks height) (hheight : heightList steps ≤ height)
    (hapart : x.Apart (leavesList steps)) (htracks : g.tracksWakes steps.length = true)
    (h : Rounds look tasks fuel live looked again d d')
    (hsweeping : Sweeping x place tasks g v steps w live seen d) (hseen : seen.length = looked)
    (hagain : again ≤ 1) (hfuel : d.group.woken.length + 2 * live + (1 - again) < fuel) :
    Swept x place tasks g v steps w d' := by
  induction h generalizing seen with
  | exhausted => omega
  | idle hwoken => exact hsweeping.finish hwoken
  | stale hwoken hdone _ ih =>
    rw [hwoken, List.length_cons] at hfuel
    exact ih (hsweeping.drop htracks hwoken hdone) hseen hagain (by simp only; omega)
  | pauses ht ho hstop =>
    obtain ⟨-, hl, -⟩ := hsweeping.turn hlook hheight hapart ht
    refine (hsweeping.passing hlook hheight hapart htracks ht ho).stop fun hleaf => ?_
    have hsilent := hl.silent (isLeaf_of_resetList (resetList_set ht.step hl.reset) hleaf _
      (List.mem_of_getElem? ht.step))
    rw [hsilent] at hstop
    rw [List.length_cons, hseen]
    exact hstop.resolve_left (Nat.not_le.2 (Nat.lt_succ_of_le hagain))
  | @passes fuel live looked again j rest d d' s p ht ho hgo _ ih =>
    rw [ht.woken, List.length_cons] at hfuel
    have hagain' := Nat.lt_of_not_le fun h => hgo (.inl h)
    refine ih (hsweeping.passing hlook hheight hapart htracks ht ho)
      (by rw [List.length_cons, hseen]) (Nat.le_of_lt_succ hagain') ?_
    rw [Drive.passing, hsweeping.requeued ht.woken]
    cases hsig : p.signalled with
    | true =>
      simp only [hsig, if_true, List.length_append, List.length_singleton] at hagain' ⊢
      omega
    | false =>
      simp only [hsig, Bool.false_eq_true, if_false, List.append_nil] at hagain' ⊢
      omega
  | decides ht ho hv => exact hsweeping.deciding hlook hheight hapart htracks ht ho hv
  | @takes fuel live looked again j rest d d' s p o ht ho hv _ ih =>
    rw [ht.woken, List.length_cons] at hfuel
    have hopen := hsweeping.live_pos ht.step ht.undone
    refine ih (hsweeping.taking hlook hheight hapart htracks ht ho hv) rfl (Nat.zero_le 1) ?_
    have hlength := length_requeued_le d.group j rest p.signalled
    rw [Drive.taking, note_woken]
    omega

end Group

end Rundown
