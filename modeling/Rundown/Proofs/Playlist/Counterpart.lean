import Rundown.Proofs.Playlist.Progress
import Rundown.Proofs.Playlist.Wake

/-!
# Steps with counterparts

Looking at a step asks the world whether actions have settled, begins actions and makes groups ready,
and it does nothing else with the world.  So when two worlds cannot be told apart by these means, a
look at a step in one of them does what a look at its counterpart does in the other: the steps stay
counterparts, with the same outcome, and the worlds stay alike (`Comparison.poll`,
`Comparison.pollPlace`).  The same holds of a wake (`Comparison.wake`).

A property of worlds that such changes keep is a comparison of a world with itself
(`Comparison.ofInvariant`), so what is shown of comparisons also shows that looks keep properties.
-/

namespace Rundown

/-- Which actions and which tasks are counterparts of one another, and which worlds are alike. -/
structure Comparison where
  action : ActionId → ActionId → Prop
  task : Task → Task → Prop
  world : World → World → Prop
  settlement? : ∀ {w w' a a'}, world w w' → action a a' → w'.settlement? a' = w.settlement? a
  begins : ∀ {w w' a a'} (v : Json), world w w' → action a a' →
    world (w.beginAction a v).1 (w'.beginAction a' v).1 ∧
      (w'.beginAction a' v).2 = (w.beginAction a v).2
  schedule : ∀ {w w' t t'}, world w w' → task t t' → world (w.schedule t) (w'.schedule t')

/-- A property that begins of some actions and wakes of some tasks keep. -/
def Comparison.ofInvariant (actions : ActionId → Prop) (tasks : Task → Prop) (holds : World → Prop)
    (begins : ∀ {w a} (v : Json), holds w → actions a → holds (w.beginAction a v).1)
    (schedule : ∀ {w t}, holds w → tasks t → holds (w.schedule t)) : Comparison where
  action a a' := a' = a ∧ actions a
  task t t' := t' = t ∧ tasks t
  world w w' := w' = w ∧ holds w
  settlement? := by
    rintro w _ a _ ⟨rfl, -⟩ ⟨rfl, -⟩
    rfl
  begins := by
    rintro w _ a _ v ⟨rfl, hw⟩ ⟨rfl, ha⟩
    exact ⟨⟨rfl, begins v hw ha⟩, rfl⟩
  schedule := by
    rintro w _ t _ ⟨rfl, hw⟩ ⟨rfl, ht⟩
    exact ⟨rfl, schedule hw ht⟩

namespace Step

mutual

/-- The same step with counterparts at its leaves. -/
def Twin (r : ActionId → ActionId → Prop) : Step → Step → Prop
  | leaf slot a, leaf slot' a' => slot' = slot ∧ r a a'
  | .group slot g steps, .group slot' g' steps' => slot' = slot ∧ g' = g ∧ TwinList r steps steps'
  | _, _ => False

/-- The same steps with counterparts at their leaves. -/
def TwinList (r : ActionId → ActionId → Prop) : List Step → List Step → Prop
  | [], [] => True
  | s :: rest, s' :: rest' => Twin r s s' ∧ TwinList r rest rest'
  | _, _ => False

end

variable {r : ActionId → ActionId → Prop} {s s' : Step} {steps steps' : List Step}
  {slot slot' : Slot} {g g' : Group} {a a' : ActionId} {i : Nat}

theorem twinList_iff : TwinList r steps steps' ↔ List.Forall₂ (Twin r) steps steps' := by
  induction steps generalizing steps' with
  | nil => cases steps' <;> simp [TwinList]
  | cons s rest ih => cases steps' <;> simp [TwinList, ih]

theorem twin_group : Twin r (.group slot g steps) (.group slot' g' steps') ↔
    slot' = slot ∧ g' = g ∧ List.Forall₂ (Twin r) steps steps' := by
  rw [Twin, twinList_iff]

theorem Twin.of_leaf (h : Twin r (leaf slot a) s') : ∃ a', s' = leaf slot a' ∧ r a a' := by
  cases s' with
  | leaf slot' a' =>
    obtain ⟨rfl, hr⟩ := h
    exact ⟨a', rfl, hr⟩
  | group => exact h.elim

theorem Twin.of_group (h : Twin r (.group slot g steps) s') :
    ∃ steps', s' = .group slot g steps' ∧ List.Forall₂ (Twin r) steps steps' := by
  cases s' with
  | leaf => exact h.elim
  | group slot' g' steps' =>
    obtain ⟨rfl, rfl, hsteps⟩ := twin_group.1 h
    exact ⟨steps', rfl, hsteps⟩

/-- Every step is its own twin, if its leaves are. -/
theorem Twin.refl (h : ∀ a ∈ s.leaves, r a a) : Twin r s s := by
  induction s using induction with
  | leaf slot a => exact ⟨rfl, h a List.mem_cons_self⟩
  | group slot g steps ih =>
    exact twin_group.2 ⟨rfl, rfl, List.forall₂_same.2 fun s hs =>
      ih s hs fun a ha => h a (leaves_subset hs ha)⟩

theorem Twin.slot_eq (h : Twin r s s') : s'.slot = s.slot := by
  cases s with
  | leaf slot a =>
    obtain ⟨a', rfl, -⟩ := h.of_leaf
    rfl
  | group slot g steps =>
    obtain ⟨steps', rfl, -⟩ := h.of_group
    rfl

theorem Twin.isDone_eq (h : Twin r s s') : s'.isDone = s.isDone := isDone_congr h.slot_eq

theorem Twin.taken?_eq (h : Twin r s s') : s'.taken? = s.taken? := by
  unfold taken?
  rw [h.slot_eq]

theorem Twin.withSlot (h : Twin r s s') (slot : Slot) :
    Twin r (s.withSlot slot) (s'.withSlot slot) := by
  cases s with
  | leaf slot₀ a =>
    obtain ⟨a', rfl, hr⟩ := h.of_leaf
    exact ⟨rfl, hr⟩
  | group slot₀ g steps =>
    obtain ⟨steps', rfl, hsteps⟩ := h.of_group
    exact twin_group.2 ⟨rfl, rfl, hsteps⟩

theorem Twin.forgotten (h : Twin r s s') : Twin r s.forgotten s'.forgotten := by
  cases s with
  | leaf slot a =>
    obtain ⟨a', rfl, hr⟩ := h.of_leaf
    exact ⟨rfl, hr⟩
  | group slot g steps =>
    obtain ⟨steps', rfl, hsteps⟩ := h.of_group
    exact twin_group.2 ⟨rfl, rfl, hsteps⟩

/-- What twins have in common their lists have in common. -/
theorem map_eq_of_twins {β : Type} {f : Step → β} (h : List.Forall₂ (Twin r) steps steps')
    (hf : ∀ s ∈ steps, ∀ s', Twin r s s' → f s' = f s) : steps'.map f = steps.map f := by
  induction h with
  | nil => rfl
  | cons hs _ ih =>
    rw [List.map_cons, List.map_cons, hf _ List.mem_cons_self _ hs,
      ih fun s hm => hf s (List.mem_cons_of_mem _ hm)]

theorem Twin.height_eq (h : Twin r s s') : s'.height = s.height := by
  induction s using induction generalizing s' with
  | leaf slot a =>
    obtain ⟨a', rfl, -⟩ := h.of_leaf
    rfl
  | group slot g steps ih =>
    obtain ⟨steps', rfl, hsteps⟩ := h.of_group
    rw [height, height, heightList_eq, heightList_eq, map_eq_of_twins hsteps fun s hs s' => ih s hs]

theorem twins_taken? (h : List.Forall₂ (Twin r) steps steps') :
    steps'.map taken? = steps.map taken? :=
  map_eq_of_twins h fun _ _ _ hs => hs.taken?_eq

theorem twins_isDone (h : List.Forall₂ (Twin r) steps steps') :
    (steps'.filter fun s => !s.isDone).length = (steps.filter fun s => !s.isDone).length := by
  rw [← List.countP_eq_length_filter, ← List.countP_eq_length_filter]
  have hmap := congrArg (List.countP (!·)) (map_eq_of_twins h fun _ _ _ hs => hs.isDone_eq)
  rwa [List.countP_map, List.countP_map] at hmap

theorem twins_set (h : List.Forall₂ (Twin r) steps steps') (hs : Twin r s s') :
    List.Forall₂ (Twin r) (steps.set i s) (steps'.set i s') := by
  induction h generalizing i with
  | nil => exact .nil
  | cons h₀ h ih =>
    cases i with
    | zero => exact .cons hs h
    | succ i => exact .cons h₀ ih

theorem twins_getElem? (h : List.Forall₂ (Twin r) steps steps') (i : Nat) :
    (steps[i]? = none ∧ steps'[i]? = none) ∨
      ∃ s s', steps[i]? = some s ∧ steps'[i]? = some s' ∧ Twin r s s' := by
  cases hi : steps[i]? with
  | none =>
    refine .inl ⟨rfl, ?_⟩
    rw [List.getElem?_eq_none_iff] at hi ⊢
    exact h.length_eq ▸ hi
  | some s =>
    obtain ⟨s', hi', hs⟩ := forall₂_getElem? h hi
    exact .inr ⟨s, s', rfl, hi', hs⟩

end Step

namespace Comparison

open Step

/-- The tasks around two sites are counterparts. -/
structure Sites (c : Comparison) (site site' : Site) : Prop where
  place : site'.place = site.place
  above : List.Forall₂ c.task site.above site'.above
  tasks : ∀ place, c.task (.group site.playlist place) (.group site'.playlist place)

/-- What two looks at counterparts leave behind. -/
structure Polls (c : Comparison) (p p' : Polled) : Prop where
  step : Twin c.action p.step p'.step
  world : c.world p.world p'.world
  outcome : p'.outcome = p.outcome
  signalled : p'.signalled = p.signalled

/-- What two groups make of counterparts. -/
structure Drives (c : Comparison) (d d' : Drive) : Prop where
  group : d'.group = d.group
  steps : List.Forall₂ (Twin c.action) d.steps d'.steps
  world : c.world d.world d'.world
  outcome : d'.outcome = d.outcome
  signalled : d'.signalled = d.signalled

/-- The two looks do the same to counterparts. -/
def Looks (c : Comparison) (look look' : Look) : Prop :=
  ∀ (i : Nat) {s s' : Step} {w w' : World}, Twin c.action s s' → c.world w w' →
    c.Polls (look i s w) (look' i s' w')

/-- The two ways to launch do the same to counterparts. -/
def Launches (c : Comparison) (launch launch' : Launch) : Prop :=
  ∀ (i : Nat) (v : Json) {s s' : Step} {w w' : World}, Twin c.action s s' → c.world w w' →
    Twin c.action (launch i v s w).1 (launch' i v s' w').1 ∧
      c.world (launch i v s w).2 (launch' i v s' w').2

variable {c : Comparison} {w w' : World} {s s' : Step} {steps steps' : List Step}
  {site site' : Site} {tasks tasks' : List Task}

theorem scheduleAll (hw : c.world w w') (h : List.Forall₂ c.task tasks tasks') :
    c.world (w.scheduleAll tasks) (w'.scheduleAll tasks') := by
  induction h generalizing w w' with
  | nil => exact hw
  | cons ht _ ih => exact ih (c.schedule hw ht)

theorem Sites.task (h : c.Sites site site') : c.task site.task site'.task := by
  unfold Site.task
  rw [h.place]
  exact h.tasks _

theorem Sites.child (h : c.Sites site site') (htasks : List.Forall₂ c.task tasks tasks')
    (i : Nat) : c.Sites (site.child tasks i) (site'.child tasks' i) :=
  ⟨congrArg (· ++ [i]) h.place, htasks, h.tasks⟩

/-- Groups with the same waiters wake counterparts. -/
theorem Sites.wakes (h : c.Sites site site') (g : Group) :
    List.Forall₂ c.task (g.wakes site.above site.task) (g.wakes site'.above site'.task) := by
  unfold Group.wakes
  induction g.waiters with
  | nil => exact .nil
  | cons waiter rest ih =>
    rw [List.flatMap_cons, List.flatMap_cons]
    refine List.rel_append ?_ ih
    cases waiter with
    | parent => exact h.above
    | task => exact .cons h.task .nil

/-! ## Driving a group -/

section

variable {look look' : Look} {launch launch' : Launch} {d d' : Drive}

theorem launchAll (hlaunch : c.Launches launch launch')
    (h : List.Forall₂ (Twin c.action) steps steps') (hw : c.world w w') (v : Json) (i : Nat) :
    List.Forall₂ (Twin c.action) (Step.launchAll launch v i steps w).1
        (Step.launchAll launch' v i steps' w').1 ∧
      c.world (Step.launchAll launch v i steps w).2 (Step.launchAll launch' v i steps' w').2 := by
  induction h generalizing i w w' with
  | nil => exact ⟨.nil, hw⟩
  | cons hs _ ih =>
    obtain ⟨hstep, hw⟩ := hlaunch i v hs hw
    obtain ⟨hrest, hw⟩ := ih hw (i + 1)
    exact ⟨.cons hstep hrest, hw⟩

theorem Drives.cons (h : c.Drives d d') (hs : Twin c.action s s') (signalled : Bool) :
    c.Drives (d.cons s signalled) (d'.cons s' signalled) where
  group := h.group
  steps := .cons hs h.steps
  world := h.world
  outcome := h.outcome
  signalled := congrArg (signalled || ·) h.signalled

theorem driveSequence (hlook : c.Looks look look') (hlaunch : c.Launches launch launch')
    (h : List.Forall₂ (Twin c.action) steps steps') (hw : c.world w w') (g : Group) (i : Nat)
    (carry : Option Json) :
    c.Drives (g.driveSequence look launch i carry steps w)
      (g.driveSequence look' launch' i carry steps' w') := by
  induction h generalizing i carry w w' with
  | nil => exact ⟨rfl, .nil, hw, rfl, rfl⟩
  | @cons s s' rest rest' hs hrest ih =>
    have current {s s' : Step} {w w' : World} (hs : Twin c.action s s') (hw : c.world w w') :
        c.Drives (g.driveCurrent look launch i s rest w)
          (g.driveCurrent look' launch' i s' rest' w') := by
      have hp := hlook i hs hw
      unfold Group.driveCurrent
      dsimp only
      rw [hp.outcome]
      cases ho : (look i s w).outcome with
      | none => exact ⟨rfl, .cons hp.step hrest, hp.world, rfl, hp.signalled⟩
      | some o =>
        cases o with
        | error e => exact ⟨rfl, .cons (hp.step.withSlot _) hrest, hp.world, rfl, hp.signalled⟩
        | ok u =>
          dsimp only
          rw [hp.signalled]
          exact (ih hp.world (i + 1) (some u)).cons (hp.step.withSlot _) _
    cases carry with
    | some v =>
      obtain ⟨hs, hw⟩ := hlaunch i v hs hw
      exact current hs hw
    | none =>
      cases hd : s.isDone with
      | true =>
        rw [Group.driveSequence_skip hd, Group.driveSequence_skip (hs.isDone_eq.trans hd)]
        exact (ih hw (i + 1) none).cons hs false
      | false =>
        rw [Group.driveSequence_current hd, Group.driveSequence_current (hs.isDone_eq.trans hd)]
        exact current hs hw

theorem driveEach (hlook : c.Looks look look')
    (h : List.Forall₂ (Twin c.action) steps steps') (hw : c.world w w') (g : Group) (i : Nat) :
    c.Drives (g.driveEach look i steps w) (g.driveEach look' i steps' w') := by
  induction h generalizing i w w' with
  | nil => exact ⟨rfl, .nil, hw, rfl, rfl⟩
  | @cons s s' rest rest' hs hrest ih =>
    unfold Group.driveEach
    rw [hs.isDone_eq]
    split
    · exact (ih hw (i + 1)).cons hs false
    · have hp := hlook i hs hw
      dsimp only
      rw [hp.outcome]
      cases ho : (look i s w).outcome with
      | none =>
        dsimp only
        rw [hp.signalled]
        exact (ih hp.world (i + 1)).cons hp.step _
      | some o =>
        cases o with
        | error e => exact ⟨rfl, .cons (hp.step.withSlot _) hrest, hp.world, rfl, hp.signalled⟩
        | ok u =>
          dsimp only
          rw [hp.signalled]
          exact (ih hp.world (i + 1)).cons (hp.step.withSlot _) _

section Rounds

variable {j : Nat} {rest : List Nat} {p p' : Polled}

/-- The branch whose turn it is has its counterpart's turn. -/
theorem Drives.turn (h : c.Drives d d') (hlook : c.Looks look look')
    (ht : Group.Turn look d j rest s p) :
    ∃ s' p', Group.Turn look' d' j rest s' p' ∧ c.Polls p p' := by
  rcases twins_getElem? h.steps j with ⟨hnone, -⟩ | ⟨t, s', hi, hi', hs⟩
  · rw [ht.step] at hnone
    cases hnone
  · obtain rfl : s = t := Option.some.inj (ht.step.symm.trans hi)
    exact ⟨s', _, ⟨h.group ▸ ht.woken, hi', hs.isDone_eq.trans ht.undone, rfl⟩,
      ht.looked ▸ hlook j hs h.world⟩

theorem Drives.passing (h : c.Drives d d') (hp : c.Polls p p') (j : Nat) (rest : List Nat) :
    c.Drives (d.passing j rest p) (d'.passing j rest p') where
  group := by rw [Drive.passing, Drive.passing, h.group, hp.signalled]
  steps := twins_set h.steps hp.step
  world := hp.world
  outcome := rfl
  signalled := by rw [Drive.passing, Drive.passing, h.signalled, hp.signalled]

theorem Drives.taking (h : c.Drives d d') (hp : c.Polls p p') (j : Nat) (rest : List Nat)
    (o : Outcome) :
    c.Drives (d.taking j rest p o) (d'.taking j rest p' o) where
  group := by rw [Drive.taking, Drive.taking, h.group, hp.signalled]
  steps := twins_set h.steps (hp.step.withSlot _)
  world := hp.world
  outcome := rfl
  signalled := by rw [Drive.taking, Drive.taking, h.signalled, hp.signalled]

theorem Drives.verdict (h : c.Drives d d') :
    d'.group.verdict d'.steps = d.group.verdict d.steps := by
  rw [h.group, Group.verdict_congr (twins_taken? h.steps)]

theorem rounds (hlook : c.Looks look look') (htasks : List.Forall₂ c.task tasks tasks')
    {fuel live looked again : Nat} {e : Drive}
    (hr : Group.Rounds look tasks fuel live looked again d e) (h : c.Drives d d') :
    ∃ e', Group.Rounds look' tasks' fuel live looked again d' e' ∧ c.Drives e e' := by
  induction hr generalizing d' with
  | exhausted => exact ⟨d', .exhausted, h⟩
  | idle hwoken => exact ⟨d', .idle (h.group ▸ hwoken), h⟩
  | @stale _ _ _ _ j rest d _ hwoken hdone _ ih =>
    have hpopped : c.Drives { d with group := { d.group with woken := rest } }
        { d' with group := { d'.group with woken := rest } } :=
      ⟨by rw [h.group], h.steps, h.world, h.outcome, h.signalled⟩
    obtain ⟨e', hr, he⟩ := ih hpopped
    refine ⟨e', .stale (h.group ▸ hwoken) (fun s' hi' => ?_) hr, he⟩
    rcases twins_getElem? h.steps j with ⟨-, hnone⟩ | ⟨s, t', hi, ht', hs⟩
    · rw [hi'] at hnone
      cases hnone
    · obtain rfl : s' = t' := Option.some.inj (hi'.symm.trans ht')
      exact hs.isDone_eq.trans (hdone s hi)
  | @pauses _ _ _ _ j rest _ _ _ ht ho hstop =>
    obtain ⟨s', p', ht', hp⟩ := h.turn hlook ht
    refine ⟨_, .pauses ht' (hp.outcome.trans ho) (hp.signalled ▸ hstop), ?_⟩
    have hd := h.passing hp j rest
    exact ⟨hd.group, hd.steps, scheduleAll hp.world htasks, rfl, rfl⟩
  | passes ht ho hgo _ ih =>
    obtain ⟨s', p', ht', hp⟩ := h.turn hlook ht
    obtain ⟨e', hr, he⟩ := ih (h.passing hp _ _)
    exact ⟨e', .passes ht' (hp.outcome.trans ho) (hp.signalled ▸ hgo) (hp.signalled ▸ hr), he⟩
  | @decides _ _ _ _ j rest _ _ _ o _ ht ho hv =>
    obtain ⟨s', p', ht', hp⟩ := h.turn hlook ht
    have hd := h.taking hp j rest o
    exact ⟨_, .decides ht' (hp.outcome.trans ho) (hd.verdict.trans hv),
      ⟨hd.group, hd.steps, hd.world, rfl, hd.signalled⟩⟩
  | @takes _ _ _ _ j rest _ _ _ _ o ht ho hv _ ih =>
    obtain ⟨s', p', ht', hp⟩ := h.turn hlook ht
    have hd := h.taking hp j rest o
    obtain ⟨e', hr, he⟩ := ih hd
    exact ⟨e', .takes ht' (hp.outcome.trans ho) (hd.verdict.trans hv) hr, he⟩

end Rounds

theorem driveParallel (hlook : c.Looks look look') (htasks : List.Forall₂ c.task tasks tasks')
    (h : List.Forall₂ (Twin c.action) steps steps') (hw : c.world w w') (g : Group) :
    c.Drives (g.driveParallel look tasks steps w) (g.driveParallel look' tasks' steps' w') := by
  unfold Group.driveParallel
  rw [Group.verdict_congr (twins_taken? h)]
  split
  · exact ⟨rfl, h, hw, rfl, rfl⟩
  · rw [← h.length_eq, twins_isDone h]
    split
    · have hd : c.Drives ⟨g, steps, w, none, false⟩ ⟨g, steps', w', none, false⟩ :=
        ⟨rfl, h, hw, rfl, rfl⟩
      obtain ⟨e', hr, he⟩ := rounds hlook htasks (Group.driveWoken_rounds ..) hd
      rw [hr.eq]
      exact he
    · have hd := driveEach hlook h hw g 0
      dsimp only
      rw [hd.outcome, Group.verdict_congr (twins_taken? hd.steps)]
      exact ⟨hd.group, hd.steps, hd.world, rfl, hd.signalled⟩

theorem drive (hlook : c.Looks look look') (hlaunch : c.Launches launch launch')
    (htasks : List.Forall₂ c.task tasks tasks') (h : List.Forall₂ (Twin c.action) steps steps')
    (hw : c.world w w') (g : Group) :
    c.Drives (g.drive look launch tasks steps w) (g.drive look' launch' tasks' steps' w') := by
  unfold Group.drive
  split
  · exact driveSequence hlook hlaunch h hw g 0 none
  · exact driveParallel hlook htasks h hw g

theorem start (hlook : c.Looks look look') (hlaunch : c.Launches launch launch')
    (htasks : List.Forall₂ c.task tasks tasks') (h : List.Forall₂ (Twin c.action) steps steps')
    (hw : c.world w w') (g : Group) (v : Json) :
    c.Drives (g.start look launch tasks v steps w) (g.start look' launch' tasks' v steps' w') := by
  by_cases hk : g.kind = .sequence
  · rw [Group.start_sequence hk, Group.start_sequence hk]
    exact driveSequence hlook hlaunch h hw _ 0 (some v)
  · rw [Group.start_parallel hk, Group.start_parallel hk]
    obtain ⟨hsteps, hw⟩ := launchAll hlaunch h hw v 0
    rw [← hsteps.length_eq]
    exact driveParallel hlook htasks hsteps hw _

theorem toPolled (htasks : List.Forall₂ c.task tasks tasks') (h : c.Drives d d') (slot : Slot) :
    c.Polls (d.toPolled slot tasks) (d'.toPolled slot tasks') := by
  unfold Drive.toPolled
  rw [h.outcome, h.group, h.signalled]
  split
  · exact ⟨twin_group.2 ⟨rfl, rfl, h.steps⟩, h.world, rfl, rfl⟩
  · refine ⟨twin_group.2 ⟨rfl, rfl, ?_⟩, scheduleAll h.world htasks, rfl, rfl⟩
    exact List.forall₂_map_left_iff.2 (List.forall₂_map_right_iff.2
      (h.steps.imp fun _ _ hs => hs.forgotten))

end

/-! ## Looking at a step -/

theorem launch (hsite : c.Sites site site') (hs : Twin c.action s s') (hw : c.world w w')
    (v : Json) :
    Twin c.action (s.launch site v w).1 (s'.launch site' v w').1 ∧
      c.world (s.launch site v w).2 (s'.launch site' v w').2 := by
  cases s with
  | leaf slot a =>
    obtain ⟨a', rfl, ha⟩ := hs.of_leaf
    obtain ⟨hw, hbegun⟩ := c.begins v hw ha
    simp only [Step.launch, hbegun]
    exact ⟨⟨rfl, ha⟩, hw⟩
  | group slot g steps =>
    obtain ⟨steps', rfl, hsteps⟩ := hs.of_group
    unfold Step.launch
    dsimp only
    split
    · exact ⟨twin_group.2 ⟨rfl, rfl, hsteps⟩, c.schedule hw hsite.task⟩
    · exact ⟨twin_group.2 ⟨rfl, rfl, hsteps⟩, hw⟩

theorem leafOutcome {a a' : ActionId} (ha : c.action a a') (hw : c.world w w') (slot : Slot) :
    Step.leafOutcome slot a' w' = Step.leafOutcome slot a w := by
  unfold Step.leafOutcome
  rw [c.settlement? hw ha]

theorem pollWithin (height : Nat) (hsite : c.Sites site site') (waiter : Option Waiter)
    (hs : Twin c.action s s') (hw : c.world w w') :
    c.Polls (Step.pollWithin height site waiter s w)
      (Step.pollWithin height site' waiter s' w') := by
  induction height generalizing site site' waiter s s' w w' with
  | zero => exact ⟨hs, hw, rfl, rfl⟩
  | succ height ih =>
    cases s with
    | leaf slot a =>
      obtain ⟨a', rfl, ha⟩ := hs.of_leaf
      exact ⟨hs, hw, leafOutcome ha hw slot, rfl⟩
    | group slot g steps =>
      obtain ⟨steps', rfl, hsteps⟩ := hs.of_group
      obtain ⟨waiters, hg, -⟩ := g.awaited waiter
      let tasks (site : Site) := { g with waiters := waiters }.wakes site.above site.task
      have htasks : List.Forall₂ c.task (tasks site) (tasks site') := hsite.wakes _
      have hlook : c.Looks (lookBelow height site (tasks site))
          (lookBelow height site' (tasks site')) := by
        intro i s s' w w' hs hw
        unfold lookBelow
        rw [hs.slot_eq]
        split
        · exact ⟨hs, hw, rfl, rfl⟩
        · exact ih (hsite.child htasks i) (some .parent) hs hw
      have hlaunch : c.Launches (launchBelow site (tasks site))
          (launchBelow site' (tasks site')) :=
        fun i v _ _ _ _ hs hw => launch (hsite.child htasks i) hs hw v
      cases hst : g.stage with
      | triggered input =>
        rw [pollWithin_triggered hg hst rfl, pollWithin_triggered hg hst rfl]
        exact toPolled htasks (start hlook hlaunch htasks hsteps hw _ input) slot
      | running =>
        rw [pollWithin_running hg hst rfl, pollWithin_running hg hst rfl]
        exact toPolled htasks (drive hlook hlaunch htasks hsteps hw _) slot
      | created | expired | finished =>
        simp only [Step.pollWithin, hst, Stage.outcome?, hg]
        exact ⟨twin_group.2 ⟨rfl, rfl, hsteps⟩, hw, rfl, rfl⟩

theorem poll (hsite : c.Sites site site') (waiter : Option Waiter) (hs : Twin c.action s s')
    (hw : c.world w w') : c.Polls (s.poll site waiter w) (s'.poll site' waiter w') := by
  unfold Step.poll
  rw [hs.height_eq]
  exact pollWithin s.height hsite waiter hs hw

theorem pollPlace (place : List Nat) (hsite : c.Sites site site') (hs : Twin c.action s s')
    (hw : c.world w w') : c.Polls (s.pollPlace place site w) (s'.pollPlace place site' w') := by
  induction place generalizing site site' s s' with
  | nil => exact poll hsite (some .task) hs hw
  | cons index place ih =>
    cases s with
    | leaf slot a =>
      obtain ⟨a', rfl, ha⟩ := hs.of_leaf
      exact ⟨hs, hw, rfl, rfl⟩
    | group slot g steps =>
      obtain ⟨steps', rfl, hsteps⟩ := hs.of_group
      unfold Step.pollPlace
      rcases twins_getElem? hsteps index with ⟨hi, hi'⟩ | ⟨s, s', hi, hi', hs'⟩
      · rw [hi, hi']
        exact ⟨hs, hw, rfl, rfl⟩
      · have hp := ih (hsite.child (hsite.wakes g) index) hs'
        rw [hi, hi']
        dsimp only
        rw [hp.outcome, hp.signalled, ← hsteps.length_eq]
        exact ⟨twin_group.2 ⟨rfl, rfl, twins_set hsteps hp.step⟩, hp.world, rfl, rfl⟩

/-! ## Waking -/

section

variable {a a' : ActionId}

/-- The actions are counterparts, and of no others. -/
def Paired (c : Comparison) (a a' : ActionId) : Prop := ∀ b b', c.action b b' → (b' = a' ↔ b = a)

theorem wakeList (a a' : ActionId)
    (hsite : ∀ i, c.Sites (site.child tasks i) (site'.child tasks' i))
    (h : List.Forall₂ (Twin c.action) steps steps')
    (ih : ∀ s ∈ steps, ∀ {s' : Step} {site site' : Site} {w w' : World}, c.Sites site site' →
      Twin c.action s s' → c.world w w' →
        Twin c.action (s.wake a site w).1 (s'.wake a' site' w').1 ∧
        c.world (s.wake a site w).2.1 (s'.wake a' site' w').2.1 ∧
        (s'.wake a' site' w').2.2 = (s.wake a site w).2.2)
    (hw : c.world w w') (width i : Nat) (g : Group) :
    (Step.wakeList a' (site'.child tasks') width i g steps' w').1 =
        (Step.wakeList a (site.child tasks) width i g steps w).1 ∧
      List.Forall₂ (Twin c.action) (Step.wakeList a (site.child tasks) width i g steps w).2.1
        (Step.wakeList a' (site'.child tasks') width i g steps' w').2.1 ∧
      c.world (Step.wakeList a (site.child tasks) width i g steps w).2.2.1
        (Step.wakeList a' (site'.child tasks') width i g steps' w').2.2.1 ∧
      (Step.wakeList a' (site'.child tasks') width i g steps' w').2.2.2 =
        (Step.wakeList a (site.child tasks) width i g steps w).2.2.2 := by
  induction h generalizing i g w w' with
  | nil => exact ⟨rfl, .nil, hw, rfl⟩
  | cons hs _ ihrest =>
    obtain ⟨hstep, hw, hsignalled⟩ := ih _ List.mem_cons_self (hsite i) hs hw
    simp only [Step.wakeList, hsignalled]
    obtain ⟨hg, hrest, hw, hlater⟩ :=
      ihrest (fun s hm => ih s (List.mem_cons_of_mem _ hm)) hw (i + 1) (g.noteWake i width _)
    exact ⟨hg, .cons hstep hrest, hw, congrArg _ hlater⟩

theorem wake (ha : c.Paired a a') (hsite : c.Sites site site') (hs : Twin c.action s s')
    (hw : c.world w w') :
    Twin c.action (s.wake a site w).1 (s'.wake a' site' w').1 ∧
      c.world (s.wake a site w).2.1 (s'.wake a' site' w').2.1 ∧
      (s'.wake a' site' w').2.2 = (s.wake a site w).2.2 := by
  induction s using induction generalizing s' site site' w w' with
  | leaf slot b =>
    obtain ⟨b', rfl, hb⟩ := hs.of_leaf
    have hawaits : awaits slot b' a' = awaits slot b a := by
      rw [Bool.eq_iff_iff, awaits_iff, awaits_iff, ha b b' hb]
    simp only [Step.wake, hawaits]
    refine ⟨⟨rfl, hb⟩, ?_, trivial⟩
    split
    · exact scheduleAll hw hsite.above
    · exact hw
  | group slot g steps ih =>
    obtain ⟨steps', rfl, hsteps⟩ := hs.of_group
    obtain ⟨hg, hrest, hw, hsignalled⟩ := wakeList a a'
      (fun i => hsite.child (hsite.wakes g) i) hsteps (fun s hm => ih s hm) hw steps.length 0 g
    simp only [Step.wake, ← hsteps.length_eq]
    refine ⟨twin_group.2 ⟨rfl, hg, hrest⟩, hw, ?_⟩
    rw [hsignalled, hg]

end

end Comparison

end Rundown
