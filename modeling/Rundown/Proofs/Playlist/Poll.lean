import Rundown.Proofs.Playlist.Sweep

/-!
# A look at a step

`Step.pollWithin_looked`: a look keeps the invariant of a step, reports what awaiting the step leads
to, and leaves a step that is not ready in a state in which whatever makes it ready wakes the group
around it.
-/

namespace Rundown

namespace Step

/-! ## Forgetting steps -/

@[simp] theorem taken?_forgotten (s : Step) : s.forgotten.taken? = s.taken? := by
  simp only [taken?, slot_forgotten]

@[simp] theorem isLeaf_forgotten (s : Step) : s.forgotten.isLeaf = s.isLeaf := by
  cases s <;> rfl

variable {x : Scene} {place : List Nat} {v : Json} {s : Step} {steps : List Step}

theorem Tied.forgotten (h : s.Tied) : s.forgotten.Tied := by
  cases s <;> exact h

theorem Untouched.forgotten (h : s.Untouched x) : s.forgotten.Untouched x := by
  refine ⟨?_, by rw [leaves_congr (reset_forgotten s)]; exact h.2⟩
  cases s <;> exact h.1

theorem enteredInOrder_forgotten {index : Nat} {o : Option Outcome}
    (h : EnteredInOrder x place index v o steps) :
    EnteredInOrder x place index v o (steps.map Step.forgotten) := by
  induction steps generalizing index v with
  | nil => exact h
  | cons s rest ih =>
    obtain ⟨hs, ht, htaken⟩ := h
    have huntouched : (∀ t ∈ rest, t.Untouched x) → ∀ t ∈ rest.map Step.forgotten, t.Untouched x :=
      fun hu t htm => by
        obtain ⟨t', htm', rfl⟩ := List.mem_map.1 htm
        exact (hu t' htm').forgotten
    refine ⟨hs.forgotten, ht.forgotten, ?_⟩
    rw [taken?_forgotten]
    split at htaken
    · exact ⟨htaken.1, huntouched htaken.2⟩
    · exact ⟨htaken.1, huntouched htaken.2⟩
    · exact ih htaken

theorem enteredAll_forgotten (h : EnteredAll x place 0 v steps) :
    EnteredAll x place 0 v (steps.map Step.forgotten) := by
  rw [enteredAll_iff] at h ⊢
  intro i s hi
  rw [List.getElem?_map] at hi
  obtain ⟨t, ht, rfl⟩ := Option.map_eq_some_iff.1 hi
  exact ⟨(h i t ht).1.forgotten, (h i t ht).2.forgotten⟩

theorem resetList_forgotten (steps : List Step) :
    resetList (steps.map Step.forgotten) = resetList steps := by
  rw [resetList_eq, resetList_eq, List.map_map]
  exact List.map_congr_left fun s _ => reset_forgotten s

end Step

namespace Group

open Step

variable {x : Scene} {place : List Nat} {tasks : List Task} {height : Nat} {look : Look}
  {launch : Launch} {g : Group} {v : Json} {steps : List Step} {w : World} {d : Drive}

theorem tookFailure_forgotten {e : PlaylistError} :
    TookFailure (steps.map Step.forgotten) e ↔ TookFailure steps e := by
  simp only [TookFailure, List.mem_map, exists_exists_and_eq_and, taken?_forgotten]

theorem map_taken?_forgotten : (steps.map Step.forgotten).map taken? = steps.map taken? := by
  rw [List.map_map]
  exact List.map_congr_left fun s _ => taken?_forgotten s

/-! ## The end of a group -/

theorem verdict_settleAll {keys : List String} {o : Outcome}
    (hk : g.kind = .parallel keys .settleAll) (hv : g.verdict steps = some o) :
    (∀ s ∈ steps, s.isDone = true) ∧ ∀ e, g.firstFailure = some e → o = .error e := by
  simp only [verdict, hk] at hv
  split at hv
  next hall =>
    refine ⟨List.all_eq_true.1 hall, ?_⟩
    intro e he
    rw [he] at hv
    cases hv
    rfl
  · cases hv

/-- The group as it ends. -/
def ended (g : Group) (o : Outcome) : Group :=
  { g with stage := .finished o, waiters := [], woken := [] }

theorem Decided.ended {o : Outcome} (h : g.Decided steps o) :
    (g.ended o).Decided (steps.map Step.forgotten) o := by
  have htracks : (g.ended o).tracksWakes = g.tracksWakes := rfl
  have hverdict : (g.ended o).verdict steps = g.verdict steps := rfl
  unfold Decided
  rw [htracks, List.length_map, verdict_congr map_taken?_forgotten, hverdict]
  simp only [tookFailure_forgotten]
  exact h

theorem Recorded.ended (h : g.Recorded steps) (o : Outcome) :
    (g.ended o).Recorded (steps.map Step.forgotten) where
  took e he := tookFailure_forgotten.2 (h.took e he)
  keeps ht hnone e he := by
    rw [List.length_map] at ht
    exact h.keeps ht hnone e (tookFailure_forgotten.1 he)

theorem Led.ended {o : Outcome} (h : g.Led x steps) (hstage : g.stage = .running)
    (hentered : EnteredAll x place 0 v steps) (hrecorded : g.Recorded steps)
    (hdecided : g.Decided steps o) : (g.ended o).Led x (steps.map Step.forgotten) := by
  rintro ⟨keys, hk⟩ hleaf i slot a hi hlead hsole
  have hk : g.kind = .parallel keys .settleAll := hk
  have htracks : g.tracksWakes steps.length = true := by simp only [tracksWakes, hk]
  rw [List.getElem?_map] at hi
  obtain ⟨t, hi, ht⟩ := Option.map_eq_some_iff.1 hi
  obtain rfl : t = .leaf slot a := by
    cases t with
    | leaf => exact ht
    | group => cases ht
  have hleaf' : ∀ s ∈ steps, s.isLeaf = true := fun s hs =>
    (isLeaf_forgotten s).symm.trans (hleaf _ (List.mem_map_of_mem hs))
  obtain ⟨e, he, hrun, -⟩ := h ⟨keys, hk⟩ hleaf' i slot a hi hlead hsole
  refine ⟨e, he, fun hs => (by cases hs), ?_⟩
  intro o' ho'
  obtain rfl : o = o' := Stage.finished.inj ho'
  rcases hdecided with hv | ⟨hf, -⟩
  · obtain ⟨hdone, hfail⟩ := verdict_settleAll hk hv
    rcases hrun hstage with hff | ⟨hnone, -⟩
    · exact hfail _ hff
    · have hm := List.mem_of_getElem? hi
      have hopen := (hrecorded.pending htracks hnone hm (enteredAll_iff.1 hentered i _ hi).1 hsole
        he).1
      rw [hdone _ hm] at hopen
      cases hopen
  · rw [htracks] at hf
    cases hf

/-! ## What driving a group leads to -/

/-- How the branches of a parallel group stand after it was driven. -/
structure Gathered (x : Scene) (place : List Nat) (v : Json) (d : Drive) : Prop where
  entered : EnteredAll (x.after d.world) place 0 v d.steps
  recorded : d.group.Recorded d.steps
  led : d.group.Led (x.after d.world) d.steps
  undecided : d.outcome = none → d.group.Undecided d.steps
  noted : d.outcome = none → d.group.tracksWakes d.steps.length = true →
    d.group.Noted (x.after d.world) d.steps
  decided : ∀ o, d.outcome = some o → d.group.Decided d.steps o

/-- What driving a group leads to that was launched with the input `v` and runs. -/
structure Driven (x : Scene) (place : List Nat) (tasks : List Task) (g : Group) (v : Json)
    (steps : List Step) (w : World) (d : Drive) : Prop where
  kind : d.group.kind = g.kind
  stage : d.group.stage = .running
  waiters : d.group.waiters = g.waiters
  reset : resetList d.steps = resetList steps
  evolves : World.Evolves (leavesList steps) w d.world
  inOrder : g.kind = .sequence → EnteredInOrder (x.after d.world) place 0 v d.outcome d.steps
  together : g.kind ≠ .sequence → Gathered x place v d
  caught : d.outcome = none → (∀ t ∈ tasks, d.world.Due t) ∨
    ((d.group.tracksWakes d.steps.length = true → d.group.woken = []) ∧
      ∀ s ∈ d.steps, s.isAwaited = true → s.Quiet d.world)
  signalled : d.signalled = true → ∀ t ∈ tasks, d.world.Due t

theorem mem_wakes_own {above : List Task} {own : Task} (h : .task ∈ g.waiters) :
    own ∈ g.wakes above own :=
  List.mem_flatMap.2 ⟨.task, h, List.mem_singleton.2 rfl⟩

theorem mem_wakes_above {above : List Task} {own t : Task} (h : .parent ∈ g.waiters)
    (ht : t ∈ above) : t ∈ g.wakes above own :=
  List.mem_flatMap.2 ⟨.parent, h, ht⟩

theorem wakesParent_iff : g.wakesParent = true ↔ .parent ∈ g.waiters := List.contains_iff_mem

theorem Driven.fits (h : Driven x place tasks g v steps w d) (hfits : g.kind.Fits steps.length) :
    d.group.kind.Fits d.steps.length := by
  rw [h.kind, length_of_resetList h.reset]
  exact hfits

/-- A driven group without an outcome goes on. -/
theorem Driven.entered_of_none (slot : Slot) {above : List Task}
    (h : Driven x place (g.wakes above (.group x.playlist place)) g v steps w d)
    (hfits : g.kind.Fits steps.length)
    (hown : w.Due (.group x.playlist place) ∨ .task ∈ g.waiters) (ho : d.outcome = none) :
    (Step.group slot d.group d.steps).Entered (x.after d.world) place v := by
  refine ⟨h.fits hfits, ?_, by simp [h.stage], by simp [h.stage], by simp [h.stage], ?_, ?_, ?_⟩
  · show d.group.Alert (x.after d.world) (.group x.playlist place) d.steps
    unfold Alert
    simp only [h.stage]
    rcases hown with hdue | htask
    · exact .inl (h.evolves.keeps.due _ hdue)
    · rcases h.caught ho with hall | hcaught
      · exact .inl (hall _ (mem_wakes_own htask))
      · exact .inr ⟨h.waiters ▸ htask, hcaught⟩
  · intro _ hk
    have := h.inOrder (h.kind ▸ hk)
    rw [ho] at this
    rw [h.stage]
    exact this
  · intro _ hk
    exact (h.together (h.kind ▸ hk)).entered
  · intro _ hk
    have hg := h.together (h.kind ▸ hk)
    refine ⟨hg.recorded, fun _ => hg.undecided ho, fun _ => hg.noted ho, ?_, hg.led⟩
    intro o hf
    rw [h.stage] at hf
    cases hf

/-- A driven group with an outcome ends with it. -/
theorem Driven.entered_of_some (slot : Slot) {o : Outcome}
    (h : Driven x place tasks g v steps w d) (hfits : g.kind.Fits steps.length)
    (ho : d.outcome = some o) :
    (Step.group slot (d.group.ended o) (d.steps.map Step.forgotten)).Entered (x.after d.world)
      place v := by
  refine ⟨?_, trivial, fun hs => (by cases hs), fun hs => (by cases hs), fun _ hs => (by cases hs),
    ?_, ?_, ?_⟩
  · rw [List.length_map]
    exact h.fits hfits
  · intro _ hk
    have hall := h.inOrder (h.kind ▸ hk)
    rw [ho] at hall
    exact enteredInOrder_forgotten hall
  · intro _ hk
    exact enteredAll_forgotten (h.together (h.kind ▸ hk)).entered
  · intro _ hk
    have hg := h.together (h.kind ▸ hk)
    refine ⟨hg.recorded.ended o, fun hs => (by cases hs), fun hs => (by cases hs), ?_,
      hg.led.ended h.stage hg.entered hg.recorded (hg.decided o ho)⟩
    intro o' ho'
    cases ho'
    exact (hg.decided o ho).ended

/-- A driven group is a step that has been looked at.  `g₀` is the group before it was driven. -/
theorem Driven.looked (slot : Slot) (g₀ : Group) {above : List Task}
    (h : Driven x place (g.wakes above (.group x.playlist place)) g v steps w d)
    (hkind : g.kind = g₀.kind) (hfits : g.kind.Fits steps.length)
    (hparent : .parent ∈ g₀.waiters → .parent ∈ g.waiters)
    (hown : w.Due (.group x.playlist place) ∨ .task ∈ g.waiters) :
    (Step.group slot g₀ steps).Looked x place v above w
        (d.toPolled slot (g.wakes above (.group x.playlist place))) ∧
      (.parent ∈ g.waiters →
        (d.toPolled slot (g.wakes above (.group x.playlist place))).outcome = none →
        (d.toPolled slot (g.wakes above (.group x.playlist place))).step.Quiet
          (d.toPolled slot (g.wakes above (.group x.playlist place))).world) := by
  have hkind' : d.group.kind = g₀.kind := h.kind.trans hkind
  unfold Drive.toPolled
  cases ho : d.outcome with
  | none =>
    dsimp only
    have hquiet (hp : .parent ∈ g.waiters) : (Step.group slot d.group d.steps).Quiet d.world := by
      refine ⟨?_, ?_⟩
      · rw [h.stage]
        rfl
      · rw [h.waiters]
        exact hp
    refine ⟨⟨?_, rfl, h.evolves, h.entered_of_none slot hfits hown ho, ?_,
      fun hq => .inr (hquiet (hparent hq.2)), fun hl => (by cases hl), ?_⟩, fun hp _ => hquiet hp⟩
    · simp only [Step.reset, hkind', h.reset]
    · simp only [answer?, h.stage]
      rfl
    · intro hsg t ht
      rw [Bool.and_eq_true, wakesParent_iff, h.waiters] at hsg
      exact h.signalled hsg.1 t (mem_wakes_above hsg.2 ht)
  | some o =>
    dsimp only
    have hentered := (h.entered_of_some slot hfits ho).mono (.scheduleAll d.world
      (g.wakes above (.group x.playlist place)))
    refine ⟨⟨?_, rfl, h.evolves.scheduleAll _, hentered, rfl, ?_, fun hl => (by cases hl), ?_⟩,
      fun _ hnone => (by cases hnone)⟩
    · simp only [Step.reset, hkind', resetList_forgotten, h.reset]
    · intro hq
      left
      rw [wakesParent_iff, h.waiters]
      exact hparent hq.2
    · intro hsg t ht
      rw [wakesParent_iff, h.waiters] at hsg
      exact World.due_scheduleAll _ (mem_wakes_above hsg ht)

/-! ## Driving a group -/

theorem Swept.driven (h : Swept x place tasks g v steps w d) (hkind : g.kind ≠ .sequence)
    (htracks : g.tracksWakes steps.length = true) : Driven x place tasks g v steps w d where
  kind := h.kind
  stage := h.stage
  waiters := h.waiters
  reset := h.reset
  evolves := h.evolves
  inOrder hk := absurd hk hkind
  together _ := by
    refine ⟨h.entered, h.recorded, h.led, fun ho => ⟨h.verdict ho, ?_⟩, fun ho _ => h.noted ho,
      fun o ho => .inl (h.decided o ho)⟩
    intro hf
    rw [h.tracks, htracks] at hf
    cases hf
  caught ho := by
    rcases h.caught ho with hw | hall
    · refine .inr ⟨fun _ => hw, ?_⟩
      intro s hm ha
      obtain ⟨i, hi⟩ := List.mem_iff_getElem?.1 hm
      rcases (h.noted ho).noted i s hi (isDone_eq_false_of_isAwaited ha) with hn | hq
      · rw [hw] at hn
        cases hn
      · exact hq
    · exact .inl hall
  signalled := h.signalled

theorem DrivenEach.driven (h : DrivenEach x place tasks g 0 v steps w d)
    (hkind : g.kind ≠ .sequence) (hstage : g.stage = .running)
    (htracks : g.tracksWakes steps.length = false) (hnone : g.firstFailure = none) :
    Driven x place tasks g v steps w { d with outcome := d.outcome.or (g.verdict d.steps) } := by
  have hlength : d.group.tracksWakes d.steps.length = false := by
    rw [h.group, length_of_resetList h.reset]
    exact htracks
  have hnotracks : ¬d.group.tracksWakes d.steps.length = true := by simp [hlength]
  have hopen : d.outcome.or (g.verdict d.steps) = none →
      d.outcome = none ∧ g.verdict d.steps = none := Option.or_eq_none_iff.1
  refine ⟨by rw [h.group], by rw [h.group]; exact hstage, by rw [h.group], h.reset, h.evolves,
    fun hk => absurd hk hkind, fun _ => ⟨h.entered, ⟨?_, fun ht => absurd ht hnotracks⟩, ?_,
      fun ho => ⟨?_, fun _ => h.fine (hopen ho).1⟩, fun _ ht => absurd ht hnotracks, ?_⟩,
    fun ho => .inr ⟨fun ht => absurd ht hnotracks, h.quiet (hopen ho).1⟩, h.signalled⟩
  · intro e he
    have he : d.group.firstFailure = some e := he
    rw [h.group, hnone] at he
    cases he
  · rintro ⟨keys, hk⟩
    have hk : d.group.kind = .parallel keys .settleAll := hk
    simp [tracksWakes, hk] at hlength
  · have := (hopen ho).2
    rwa [← h.group] at this
  · intro o ho
    rcases Option.or_eq_some_iff.1 ho with ho | ⟨-, hv⟩
    · exact .inr ⟨hlength, h.failed o ho⟩
    · rw [← h.group] at hv
      exact .inl hv

theorem driveParallel_driven (hlook : look.Sound x place tasks height)
    (hheight : heightList steps ≤ height) (hapart : x.Apart (leavesList steps))
    (hkind : g.kind ≠ .sequence) (hstage : g.stage = .running)
    (hentered : EnteredAll (x.after w) place 0 v steps) (hrecorded : g.Recorded steps)
    (hled : g.Led (x.after w) steps)
    (hfine : g.tracksWakes steps.length = false → ∀ e, ¬TookFailure steps e)
    (hnodup : g.tracksWakes steps.length = true → g.woken.Nodup)
    (hnoted : g.tracksWakes steps.length = true →
      ∀ i s, steps[i]? = some s → s.isDone = false → i ∈ g.woken ∨ s.Quiet w) :
    Driven x place tasks g v steps w (g.driveParallel look tasks steps w) := by
  unfold driveParallel
  cases hv : g.verdict steps with
  | some o =>
    refine ⟨rfl, hstage, rfl, rfl, .refl w, fun hk => absurd hk hkind, ?_, fun h => (by cases h),
      fun h => (by cases h)⟩
    intro _
    refine ⟨hentered, hrecorded, hled, fun h => (by cases h), fun h => (by cases h), ?_⟩
    rintro o' ho'
    cases ho'
    exact .inl hv
  | none =>
    dsimp only
    cases htracks : g.tracksWakes steps.length with
    | true =>
      simp only [if_true]
      have hsweeping : Sweeping x place tasks g v steps w
          (steps.filter fun s => !s.isDone).length [] ⟨g, steps, w, none, false⟩ :=
        ⟨⟨⟨rfl, .refl w, hentered⟩, rfl, hstage, rfl, hrecorded, hled, fun h => (by cases h)⟩, rfl,
          hv, hnodup htracks, hnoted htracks, length_undone.symm,
          fun _ => ⟨hnodup htracks, fun i hi => (by cases hi)⟩⟩
      refine (Rounds.swept hlook hheight hapart htracks (driveWoken_rounds ..) hsweeping rfl
        (Nat.zero_le 1) ?_).driven hkind htracks
      -- every open branch may be looked at twice before the width is used up
      have hlive := List.length_filter_le (fun s : Step => !s.isDone) steps
      have hsquare : 2 * (steps.length + 2) ≤ (steps.length + 2) * (steps.length + 2) :=
        Nat.mul_le_mul_right _ (Nat.le_add_left 2 steps.length)
      simp only
      omega
    | false =>
      simp only [Bool.false_eq_true, if_false]
      have hnone : g.firstFailure = none := by
        cases hf : g.firstFailure with
        | none => rfl
        | some e => exact absurd (hrecorded.took e hf) (hfine htracks e)
      exact (driveEach_driven hlook hheight hapart hentered (hfine htracks)).driven hkind hstage
        htracks hnone

theorem DrivenInOrder.driven (h : DrivenInOrder x place tasks g 0 v steps w d)
    (hkind : g.kind = .sequence) (hstage : g.stage = .running) :
    Driven x place tasks g v steps w d where
  kind := by rw [h.group]
  stage := by rw [h.group]; exact hstage
  waiters := by rw [h.group]
  reset := h.reset
  evolves := h.evolves
  inOrder _ := h.entered
  together hk := absurd hkind hk
  caught ho := by
    refine .inr ⟨?_, h.quiet ho⟩
    intro ht
    rw [h.group] at ht
    simp [tracksWakes, hkind] at ht
  signalled := h.signalled

/-- Driving a group that runs. -/
theorem drive_driven (hlook : look.Sound x place tasks height) (hlaunch : launch.Sound x place)
    (hheight : heightList steps ≤ height) (hapart : x.Apart (leavesList steps))
    (hstage : g.stage = .running)
    (hinOrder : g.kind = .sequence → EnteredInOrder (x.after w) place 0 v none steps)
    (htogether : g.kind ≠ .sequence → EnteredAll (x.after w) place 0 v steps)
    (hjoins : g.kind ≠ .sequence → g.Joins (x.after w) steps) :
    Driven x place tasks g v steps w (g.drive look launch tasks steps w) := by
  unfold drive
  cases hkind : g.kind with
  | sequence =>
    exact (driveSequence_resumed hlook hlaunch hheight hapart (hinOrder hkind)).driven hkind hstage
  | parallel keys policy =>
    have hk : g.kind ≠ .sequence := by simp [hkind]
    have hj := hjoins hk
    exact driveParallel_driven hlook hheight hapart hk hstage (htogether hk) hj.recorded hj.led
      (hj.undecided hstage).fine (fun ht => (hj.noted hstage ht).nodup)
      fun ht => (hj.noted hstage ht).noted

theorem start_sequence (hk : g.kind = .sequence) :
    g.start look launch tasks v steps w =
      { g with stage := .running }.driveSequence look launch 0 (some v) steps w := by
  obtain ⟨kind, stage, waiters, woken, firstFailure⟩ := g
  cases hk
  rfl

/-- The group that drives its branches when they have been launched. -/
def launched (g : Group) (width : Nat) : Group :=
  { g with stage := .running, woken := if g.tracksWakes width then List.range width else [] }

theorem start_parallel (hk : g.kind ≠ .sequence) :
    g.start look launch tasks v steps w =
      (g.launched (launchAll launch v 0 steps w).1.length).driveParallel look tasks
        (launchAll launch v 0 steps w).1 (launchAll launch v 0 steps w).2 := by
  obtain ⟨kind, stage, waiters, woken, firstFailure⟩ := g
  cases kind with
  | sequence => exact absurd rfl hk
  | parallel keys policy => rfl

/-- Starting a group whose steps nobody has touched. -/
theorem start_driven (hlook : look.Sound x place tasks height) (hlaunch : launch.Sound x place)
    (hheight : heightList steps ≤ height) (hapart : x.Apart (leavesList steps))
    (hnone : g.firstFailure = none) (h : ∀ s ∈ steps, s.Untouched (x.after w)) :
    Driven x place tasks { g with stage := .running } v steps w
      (g.start look launch tasks v steps w) := by
  by_cases hk : g.kind = .sequence
  · rw [start_sequence hk]
    exact (driveSequence_driven hlook hlaunch hheight hapart h).driven hk rfl
  · rw [start_parallel hk]
    obtain ⟨hreset, hevolves, hentered, hawaited⟩ :=
      launchAll_launched (fun i s w hs => hlaunch i s w v hs) 0 hapart h
    generalize launchAll launch v 0 steps w = r at hreset hevolves hentered hawaited
    have hfine (e : PlaylistError) : ¬TookFailure r.1 e := by
      rintro ⟨s, hs, ht⟩
      rw [taken?_eq_none_of_isAwaited (hawaited s hs)] at ht
      cases ht
    have hwoken (ht : g.tracksWakes r.1.length = true) :
        (g.launched r.1.length).woken = List.range r.1.length := if_pos ht
    have hd := driveParallel_driven (g := g.launched r.1.length) hlook
      (heightList_of_resetList hreset ▸ hheight) (leavesList_of_resetList hreset ▸ hapart) hk
      rfl hentered ⟨fun e he => ?_, fun _ _ => hfine⟩ ?_ (fun _ => hfine) (fun ht => ?_)
      fun ht i s hi _ => ?_
    · refine ⟨hd.kind, hd.stage, hd.waiters, hd.reset.trans hreset, hevolves.trans ?_, hd.inOrder,
        hd.together, hd.caught, hd.signalled⟩
      exact leavesList_of_resetList hreset ▸ hd.evolves
    · have he : g.firstFailure = some e := he
      rw [hnone] at he
      cases he
    · intro _ _ i slot a hi hlead hsole
      have ha : a ∈ leavesList steps := by
        rw [← leavesList_of_resetList hreset]
        exact leaves_subset (List.mem_of_getElem? hi) (List.mem_singleton.2 rfl)
      rw [leavesList_eq] at ha
      obtain ⟨s, hs, ha⟩ := List.mem_flatMap.1 ha
      exact absurd hlead ((h s hs).2 a ha hsole).2
    · rw [hwoken ht]
      exact List.nodup_range
    · rw [hwoken ht]
      exact .inl (List.mem_range.2 (List.getElem?_eq_some_iff.1 hi).1)

end Group

/-! ## Looking at a step -/

/-- The same scene while the task `t` runs, which counts as due until it stops. -/
def Scene.during (x : Scene) (w : World) (t : Task) : Scene := x.amid w fun u => w.Due u ∨ u = t

theorem Scene.Follows.during {x : Scene} {place : List Nat} {actions : List ActionId} {w : World}
    {t : Task} : Scene.Follows place actions (x.after w) (x.during w t) :=
  .of_due fun _ => .inl

/-- The steps of a group do not depend on the group's own task. -/
theorem Scene.Follows.of_during {x : Scene} {place : List Nat} {actions : List ActionId} {w : World}
    {t : Task} (ht : ∀ below, t ≠ .group x.playlist (place ++ below)) :
    Scene.Follows place actions (x.during w t) (x.after w) :=
  .of_due fun below hd => hd.resolve_right fun heq => ht below heq.symm

theorem Task.group_ne_below (playlist : PlaylistId) (place : List Nat) (index : Nat)
    (below : List Nat) :
    Task.group playlist place ≠ .group playlist (place ++ [index] ++ below) := by
  intro h
  have := congrArg List.length (Task.group.inj h).2
  simp only [List.length_append, List.length_singleton] at this
  omega

namespace Step

variable {x : Scene} {place : List Nat} {v : Json} {s : Step} {w : World}

/-- The own task of a group that is alert without it may stop. -/
theorem Entered.of_during {slot : Slot} {g : Group} {steps : List Step}
    (h : (Step.group slot g steps).Entered (x.during w (.group x.playlist place)) place v)
    (ha : g.Alert (x.after w) (.group x.playlist place) steps) :
    (Step.group slot g steps).Entered (x.after w) place v :=
  h.of_below (fun index => .of_during fun below =>
    Task.group_ne_below x.playlist place index below) ha

theorem height_pos (s : Step) : 0 < s.height := by
  cases s with
  | leaf => exact Nat.one_pos
  | group => exact Nat.succ_pos _

end Step

/-- A group that somebody awaits, or looks at, has one more waiter at most. -/
theorem Group.awaited (g : Group) (waiter : Option Waiter) :
    ∃ waiters, waiter.elim g g.addWaiter = { g with waiters := waiters } ∧
      g.waiters ⊆ waiters ∧ ∀ k, waiter = some k → k ∈ waiters := by
  cases waiter with
  | none => exact ⟨g.waiters, rfl, fun _ h => h, fun k hk => by cases hk⟩
  | some k =>
    by_cases hm : k ∈ g.waiters
    · exact ⟨g.waiters, if_pos hm, fun _ h => h, by rintro _ ⟨⟩; exact hm⟩
    · exact ⟨g.waiters ++ [k], if_neg hm, List.subset_append_left _ _, by rintro _ ⟨⟩; simp⟩

namespace Step

variable {x : Scene} {place : List Nat} {v : Json} {s : Step} {w : World} {height : Nat}
  {site : Site} {tasks : List Task} {waiter : Option Waiter} {slot : Slot} {g : Group}
  {waiters : List Waiter} {steps : List Step}

/-- How a group at `site` looks at its steps; waking it makes `tasks` ready. -/
def lookBelow (height : Nat) (site : Site) (tasks : List Task) : Look := fun index s w =>
  match s.slot with
  | .refused e => ⟨s, w, some (.error e), false⟩
  | _ => pollWithin height (site.child tasks index) (some .parent) s w

/-- How a group at `site` launches its steps. -/
def launchBelow (site : Site) (tasks : List Task) : Launch := fun index input s w =>
  s.launch (site.child tasks index) input w

theorem pollWithin_triggered {input : Json}
    (hg : waiter.elim g g.addWaiter = { g with waiters := waiters })
    (hs : g.stage = .triggered input)
    (ht : tasks = { g with waiters := waiters }.wakes site.above site.task) :
    pollWithin (height + 1) site waiter (.group slot g steps) w =
      ({ g with waiters := waiters }.start (lookBelow height site tasks) (launchBelow site tasks)
        tasks input steps w).toPolled slot tasks := by
  simp only [pollWithin, hs, Stage.outcome?, hg, ht]
  rfl

theorem pollWithin_running (hg : waiter.elim g g.addWaiter = { g with waiters := waiters })
    (hs : g.stage = .running)
    (ht : tasks = { g with waiters := waiters }.wakes site.above site.task) :
    pollWithin (height + 1) site waiter (.group slot g steps) w =
      ({ g with waiters := waiters }.drive (lookBelow height site tasks) (launchBelow site tasks)
        tasks steps w).toPolled slot tasks := by
  simp only [pollWithin, hs, Stage.outcome?, hg, ht]
  rfl

/-- Looking at a step may change nothing. -/
theorem Entered.looked {above : List Task} {o : Option Outcome}
    (h : s.Entered (x.after w) place v) (ho : s.answer? w = o) :
    s.Looked x place v above w ⟨s, w, o, false⟩ where
  reset := rfl
  slot := rfl
  evolves := .refl w
  entered := h
  answer := ho.symm
  wakes := .inr
  silent _ := rfl
  signalled h := by cases h

/-- A group looks at its steps as `pollWithin` does, apart from those that were refused. -/
theorem lookBelow_sound {above : List Task}
    (hpoll : ∀ (i : Nat) {s : Step} {w : World} {v : Json}, s.height ≤ height → x.Apart s.leaves →
      s.Entered (x.after w) (place ++ [i]) v →
        s.Looked x (place ++ [i]) v tasks w
            (pollWithin height ⟨x.playlist, place ++ [i], tasks⟩ (some .parent) s w) ∧
          (s.isAwaited = true →
            (pollWithin height ⟨x.playlist, place ++ [i], tasks⟩ (some .parent) s w).outcome = none →
            (pollWithin height ⟨x.playlist, place ++ [i], tasks⟩ (some .parent) s w).step.Quiet
              (pollWithin height ⟨x.playlist, place ++ [i], tasks⟩ (some .parent) s w).world)) :
    (lookBelow height ⟨x.playlist, place, above⟩ tasks).Sound x place tasks height := by
  intro i s w v hheight hapart hent ht ha
  unfold lookBelow
  cases hs : s.slot with
  | idle | done o => simp [isAwaited, hs] at ha
  | waiting =>
    obtain ⟨hl, hq⟩ := hpoll i hheight hapart hent
    exact ⟨hl, hq ha⟩
  | refused e =>
    cases s with
    | group slot g steps =>
      obtain rfl : slot = .refused e := hs
      rcases ht with ht | ⟨o, ht, -⟩ <;> cases ht
    | leaf slot a =>
      obtain rfl : slot = .refused e := hs
      exact ⟨hent.looked rfl, fun ho => (by cases ho)⟩

/-- A group that has not ended is sure to look at itself, or its own task awaits it. -/
theorem Entered.due_or_waits (h : (Step.group slot g steps).Entered x place v)
    (hn : ∀ o, g.stage ≠ .finished o) : x.due (.group x.playlist place) ∨ .task ∈ g.waiters := by
  have hr : g.Runs x place v steps _ _ := h
  have halert := hr.alert
  unfold Group.Alert at halert
  cases hst : g.stage with
  | created => exact absurd hst hr.created
  | expired => exact absurd hst hr.expired
  | finished o => exact absurd hst (hn o)
  | triggered input =>
    simp only [hst] at halert
    exact .inl halert
  | running =>
    simp only [hst] at halert
    exact halert.imp_right fun h => h.1

/-- Looking at a step that was launched with the input `v`, on behalf of its own task or of somebody
else. -/
theorem pollWithin_looked (site : Site) (waiter : Option Waiter)
    (hsite : site.playlist = x.playlist) (hheight : s.height ≤ height) (hapart : x.Apart s.leaves)
    (hduring : s.Entered (x.during w site.task) site.place v)
    (hwaiter : waiter = some .task ∨ s.Entered (x.after w) site.place v) :
    s.Looked x site.place v site.above w (pollWithin height site waiter s w) ∧
      (waiter = some .parent → s.isAwaited = true →
        (pollWithin height site waiter s w).outcome = none →
        (pollWithin height site waiter s w).step.Quiet
          (pollWithin height site waiter s w).world) := by
  induction height generalizing site waiter v s w with
  | zero => exact absurd hheight (Nat.not_le.2 s.height_pos)
  | succ height ih =>
    obtain ⟨playlist, place, above⟩ := site
    obtain rfl : playlist = x.playlist := hsite
    cases s with
    | leaf slot a =>
      have hent : (leaf slot a).Entered (x.after w) place v := by
        cases slot <;> exact hduring
      refine ⟨hent.looked rfl, fun _ ha ho => ⟨ho, ?_⟩⟩
      cases slot with
      | idle | done o => cases ha
      | refused e => cases ho
      | waiting => exact World.Began.started hent
    | group slot g steps =>
      have hr : g.Runs _ place v steps _ _ := hduring
      have hheight' : heightList steps ≤ height := Nat.le_of_succ_le_succ hheight
      obtain ⟨waiters, hg, hsub, hmem⟩ := g.awaited waiter
      let own : Task := .group x.playlist place
      let tasks := { g with waiters := waiters }.wakes above own
      have hlook :
          (lookBelow height ⟨x.playlist, place, above⟩ tasks).Sound x place tasks height := by
        refine lookBelow_sound ?_
        intro i s w v hheight hapart hent
        obtain ⟨hl, hq⟩ := ih ⟨x.playlist, place ++ [i], tasks⟩ (some .parent) rfl hheight hapart
          (hent.mono .during) (.inr hent)
        exact ⟨hl, hq rfl⟩
      have hlaunch : (launchBelow ⟨x.playlist, place, above⟩ tasks).Sound x place :=
        fun i s w v hu => launch_launched v rfl hu
      have hown (hn : ∀ o, g.stage ≠ .finished o) : w.Due own ∨ .task ∈ waiters := by
        rcases hwaiter with rfl | hent
        · exact .inr (hmem _ rfl)
        · exact (hent.due_or_waits hn).imp_right fun h => hsub h
      have hbelow (index : Nat) : Scene.Follows (place ++ [index]) (leavesList steps)
          (x.during w own) (x.after w) :=
        .of_during fun below => Task.group_ne_below x.playlist place index below
      cases hst : g.stage with
      | created => exact absurd hst hr.created
      | expired => exact absurd hst hr.expired
      | finished o =>
        have hent := hduring.of_during (by unfold Group.Alert; simp only [hst])
        have hend : g.stage.outcome? = some o := by rw [hst]; rfl
        have hpoll : pollWithin (height + 1) ⟨x.playlist, place, above⟩ waiter
            (.group slot g steps) w = ⟨.group slot g steps, w, some o, false⟩ := by
          simp only [pollWithin, hend]
        rw [hpoll]
        exact ⟨hent.looked hend, fun _ _ ho => (by cases ho)⟩
      | triggered input =>
        obtain ⟨rfl, hnone, hu⟩ := hr.triggered input hst
        rw [pollWithin_triggered hg hst rfl]
        have hd := Group.start_driven (g := { g with waiters := waiters })
          (v := input) hlook hlaunch hheight' hapart hnone fun s hm =>
            (hu s hm).mono ((hbelow 0).mono (leaves_subset hm))
        obtain ⟨hl, hq⟩ := Group.Driven.looked slot g
          (g := { g with stage := .running, waiters := waiters }) hd rfl hr.fits (fun h => hsub h)
          (hown (by simp [hst]))
        exact ⟨hl, fun hp _ => hq (hmem _ hp)⟩
      | running =>
        rw [pollWithin_running hg hst rfl]
        have hd := Group.drive_driven (g := { g with waiters := waiters }) (v := v)
          (w := w) hlook hlaunch hheight' hapart hst (fun hk => ?_) (fun hk => ?_) fun hk => ?_
        · obtain ⟨hl, hq⟩ := Group.Driven.looked slot g hd rfl hr.fits (fun h => hsub h)
            (hown (by simp [hst]))
          exact ⟨hl, fun hp _ => hq (hmem _ hp)⟩
        · have := hr.inOrder (by rw [hst]; rfl) hk
          rw [hst] at this
          exact enteredInOrder_mono (fun _ _ _ _ h hf => h.mono hf) hbelow this
        · exact enteredAll_mono (fun _ _ _ _ h hf => h.mono hf) hbelow
            (hr.together (by rw [hst]; rfl) hk)
        · exact ((hr.joins (by rw [hst]; rfl) hk).mono (hbelow 0)).withWaiters waiters

end Step

end Rundown
