import Rundown.Proofs.Playlist.Opened

/-!
# How a parallel group begins

`Entrance.Sound.onset` puts together what begins in the look that enters a parallel group, and in
which order: first its leaves, then the branches to which the look comes, and nothing below the
others.
-/

namespace Rundown

namespace Step

variable {g : Group} {s : Step} {w : World} {height : Nat} {look : Look} {launch : Launch}

@[simp] theorem toPolled_begun (slot : Slot) (tasks : List Task) (d : Drive) :
    (d.toPolled slot tasks).world.begun = d.world.begun := by
  unfold Drive.toPolled
  split
  · rfl
  · exact World.scheduleAll_begun _ _

/-- A sequence that begins something when it looks at its first step has begun it afterwards. -/
theorem driveCurrent_begun (hlook : look.Onward height) (hlaunch : launch.Confined)
    (hlfair : launch.Fair) (index : Nat) {rest : List Step}
    (hheight : ∀ t ∈ rest, t.height ≤ height) (hrest : ∀ t ∈ rest, t.Fresh) :
    ∀ b ∈ (look index s w).world.begun,
      b ∈ (g.driveCurrent look launch index s rest w).world.begun := by
  intro b hb
  unfold Group.driveCurrent
  dsimp only
  split
  · exact hb
  · exact hb
  next u _ =>
    have hworked (front : List Step) : Group.WorkedInLine look launch height front rest
        (look index s w).world (g.driveSequence look launch front.length (some u) rest
          (look index s w).world) :=
      Group.driveSequence_starts hlook.fair hlfair hheight hrest
    have hworks := (hworked (List.replicate (index + 1) s)).works
    rw [List.length_replicate] at hworks
    exact (works_evolves hlook.confined hlook.fair hlaunch hlfair hworks).2.keeps.begun b hb

end Step

/-! ## Entering a group -/

open Step

/-- A look that enters a parallel group: the look, the group as it stands after its launch, and the
world in which it is found. -/
structure Entrance where
  site : Site
  height : Nat
  waiter : Option Waiter
  slot : Slot
  group : Group
  steps : List Step
  input : Json
  world : World
  parallel : group.kind ≠ .sequence
  triggered : group.stage = .triggered input

namespace Entrance

/-- The tasks that waking the group makes ready. -/
def tasks (E : Entrance) : List Task :=
  (E.waiter.elim E.group E.group.addWaiter).wakes E.site.above E.site.task

/-- The branches and the world when all branches have been launched, and none has been looked
at. -/
def launched (E : Entrance) : List Step × World :=
  launchAll (launchBelow E.site E.tasks) E.input 0 E.steps E.world

/-- What looking at the branches makes of the group. -/
def drive (E : Entrance) : Drive :=
  ((E.waiter.elim E.group E.group.addWaiter).launched E.launched.1.length).driveParallel
    (lookBelow E.height E.site E.tasks) E.tasks E.launched.1 E.launched.2

/-- What the look leaves. -/
def polled (E : Entrance) : Polled :=
  pollWithin (E.height + 1) E.site E.waiter (.group E.slot E.group E.steps) E.world

theorem polled_eq (E : Entrance) : E.polled = E.drive.toPolled E.slot E.tasks := by
  obtain ⟨waiters, hg, -⟩ := E.group.awaited E.waiter
  have htasks : E.tasks = ({ E.group with waiters := waiters } : Group).wakes E.site.above
      E.site.task := by rw [tasks, hg]
  have hkind : ({ E.group with waiters := waiters } : Group).kind ≠ .sequence := E.parallel
  rw [polled, pollWithin_triggered hg E.triggered htasks, Group.start_parallel hkind, drive, hg]
  rfl

/-- Nobody has launched a step of the group, and all actions below it can begin. -/
structure Sound (E : Entrance) : Prop where
  fresh : ∀ s ∈ E.steps, s.Fresh
  nodup : (leavesList E.steps).Nodup
  logged : E.world.Logged
  unbegun : ∀ a ∈ leavesList E.steps, E.world.started? a = some false
  height : heightList E.steps ≤ E.height

variable {E : Entrance}

/-- Launching the branches makes the group ready to be looked at. -/
theorem Sound.launched (h : E.Sound) : E.launched.1 = E.steps.map (launchedWith E.input) ∧
    E.launched.2.begun = E.world.begun ++ (ownLeaves E.steps).map (·, E.input) ∧
    (∀ i s, E.steps[i]? = some s → s.isLeaf = false →
      E.launched.2.Due (E.site.child E.tasks i).task) ∧ Pristine E.steps E.launched.2 := by
  have hsub : (ownLeaves E.steps).Sublist (leavesList E.steps) := ownLeaves_sublist E.steps
  obtain ⟨hsteps, hbegun, hev, hdue⟩ := launchAll_fresh E.site E.tasks E.input 0 h.fresh
    (h.nodup.sublist hsub) fun a ha => h.unbegun a (hsub.subset ha)
  refine ⟨hsteps, hbegun, fun i s hi hl => ?_, h.fresh, h.nodup, hev.logged h.logged, ?_⟩
  · have := hdue i s hi hl
    rwa [Nat.zero_add] at this
  · intro s hs hl a ha
    exact (hev.started?_eq (notMem_ownLeaves h.nodup hs hl ha)).trans
      (h.unbegun a (leaves_subset hs ha))

/-- A leaf has begun when it was launched. -/
theorem Sound.begun_leaf (h : E.Sound) {slot : Slot} {a : ActionId}
    (hm : leaf slot a ∈ E.steps) : (a, E.input) ∈ E.launched.2.begun := by
  rw [h.launched.2.1]
  exact List.mem_append_right _ (List.mem_map_of_mem (mem_ownLeaves.2 ⟨slot, hm⟩))

theorem Sound.opened (h : E.Sound) (hlook : (lookBelow E.height E.site E.tasks).Onward E.height) :
    ∃ k, Group.Opened E.input E.steps E.launched.2 k E.drive.steps E.drive.world ∧
      (0 < E.steps.length → 0 < k) ∧
      ∀ j, k ≤ j → j < E.steps.length → Group.Withheld E.tasks E.group.kind j E.drive := by
  obtain ⟨hsteps, -, -, hpristine⟩ := h.launched
  obtain ⟨waiters, hg, -⟩ := E.group.awaited E.waiter
  have hopened := Group.driveParallel_opened (g := { E.group with waiters := waiters })
    (v := E.input) E.tasks hpristine hlook h.height E.parallel
  rw [drive, hsteps, List.length_map, hg]
  exact hopened

end Entrance

namespace Step

variable {s : Step} {rest : List Step} {w : World} {height : Nat} {site : Site}
  {tasks : List Task} {look : Look} {g : Group} {v : Json}

/-- A sequence begins something as it launches its first step, or as it looks at it. -/
theorem driveSequence_opens (hlook : look.Onward height) (index : Nat)
    (hheight : ∀ t ∈ s :: rest, t.height ≤ height) (h : ∀ t ∈ s :: rest, t.Fresh)
    (hnodup : s.leaves.Nodup) (hlogged : w.Logged)
    (hunbegun : ∀ a ∈ s.leaves, w.started? a = some false) (hopens : s.opensWithLeaf = true) :
    ∃ b ∈ (g.driveSequence look (launchBelow site tasks) index (some v) (s :: rest) w).world.begun,
      b.1 ∈ s.leaves := by
  rw [List.forall_mem_cons] at hheight h
  have onwards {u : Step} {w' : World} := driveCurrent_begun (g := g) (s := u) (w := w') hlook
    (launchBelow_confined site tasks) (launchBelow_fair site tasks) index hheight.2 h.2
  rw [Group.driveSequence_launch]
  cases s with
  | leaf slot a =>
    obtain rfl : slot = .idle := h.1
    have ha := hunbegun a (List.mem_singleton.2 rfl)
    rw [launchBelow_leaf index v ha]
    refine ⟨(a, v), onwards _ ?_, List.mem_singleton.2 rfl⟩
    obtain ⟨harrayed, hlaunched⟩ := launchedWith_fair h.1 v
    refine (hlook.confined index ((leaf .idle a).launchedWith v) _ hheight.1 harrayed hlaunched
      rfl).keeps.begun _ ?_
    rw [(World.beginAction_began v ha).2.2]
    simp
  | group slot g' steps =>
    rw [launchBelow_group index v h.1]
    obtain ⟨b, hb, hm⟩ := hlook.opens index v _ (w.schedule (site.child tasks index).task)
      hheight.1 rfl h.1 hnodup
      (hlogged.of_keeps (World.schedule_keeps w _ fun _ => False) (World.schedule_begun w _))
      (fun a ha => ((World.schedule_keeps w _ fun _ => False).same a not_false).1.trans
        (hunbegun a ha)) hopens
    exact ⟨b, onwards b hb, hm⟩

/-- A nested group that opens with a leaf begins something when it is entered. -/
theorem pollWithin_opens (site : Site) (waiter : Option Waiter) (v : Json)
    (hheight : s.height ≤ height) (hl : s.isLeaf = false) (h : s.Fresh) (hnodup : s.leaves.Nodup)
    (hlogged : w.Logged) (hunbegun : ∀ a ∈ s.leaves, w.started? a = some false)
    (hopens : s.opensWithLeaf = true) :
    ∃ b ∈ (pollWithin height site waiter (s.launchedWith v) w).world.begun, b.1 ∈ s.leaves := by
  induction height generalizing s site waiter w v with
  | zero => exact absurd hheight (Nat.not_le.2 s.height_pos)
  | succ height ih =>
    have honward (tasks : List Task) : (lookBelow height site tasks).Onward height := by
      refine ⟨lookBelow_fair height site tasks, lookBelow_confined height site tasks, ?_⟩
      intro i v s w hheight hl h hnodup hlogged hunbegun hopens
      cases s with
      | leaf => cases hl
      | group slot g steps => exact ih _ _ v hheight rfl h hnodup hlogged hunbegun hopens
    cases s with
    | leaf => cases hl
    | group slot g steps =>
      have hheight : heightList steps ≤ height := Nat.le_of_succ_le_succ hheight
      have hfresh := h.child
      cases steps with
      | nil => cases hopens
      | cons s rest =>
        have hopens : s.opensWithLeaf = true := hopens
        by_cases hk : g.kind = .sequence
        · obtain ⟨waiters, hg, -⟩ := ({ g with stage := .triggered v } : Group).awaited waiter
          have hkind : ({ g with stage := .triggered v, waiters := waiters } : Group).kind =
            .sequence := hk
          show ∃ b ∈ (pollWithin (height + 1) site waiter
            (.group .waiting { g with stage := .triggered v } (s :: rest)) w).world.begun, _
          rw [pollWithin_triggered hg rfl rfl, toPolled_begun, Group.start_sequence hkind]
          have hm : s ∈ s :: rest := List.mem_cons_self
          obtain ⟨b, hb, hbs⟩ := driveSequence_opens (honward _) 0 (Group.heightList_le hheight)
            hfresh (hnodup.sublist (leaves_sublist hm)) hlogged
            (fun a ha => hunbegun a (leaves_subset hm ha)) hopens
          exact ⟨b, hb, leaves_subset hm hbs⟩
        · let E : Entrance := ⟨site, height, waiter, .waiting, { g with stage := .triggered v },
            s :: rest, v, w, hk, rfl⟩
          have hE : E.Sound := ⟨hfresh, hnodup, hlogged, hunbegun, hheight⟩
          obtain ⟨k, hopened, hpos, -⟩ := hE.opened (honward E.tasks)
          show ∃ b ∈ E.polled.world.begun, _
          rw [E.polled_eq, toPolled_begun]
          cases s with
          | leaf slot' a =>
            exact ⟨(a, v), hopened.evolves.keeps.begun _ (hE.begun_leaf List.mem_cons_self),
              List.mem_cons_self⟩
          | group =>
            obtain ⟨b, hb, hm⟩ := hopened.begins 0 _ (hpos (Nat.succ_pos _)) rfl rfl hopens
            exact ⟨b, hb, leaves_subset List.mem_cons_self hm⟩

theorem lookBelow_onward (height : Nat) (site : Site) (tasks : List Task) :
    (lookBelow height site tasks).Onward height where
  fair := lookBelow_fair height site tasks
  confined := lookBelow_confined height site tasks
  opens i v s w hheight hl h hnodup hlogged hunbegun hopens := by
    cases s with
    | leaf => cases hl
    | group slot g steps =>
      exact pollWithin_opens _ _ v hheight rfl h hnodup hlogged hunbegun hopens

/-- Of two leaves, the one that stands first begins first. -/
theorem precedes_ownLeaves {steps : List Step} {i j : Nat} {slot slot' : Slot} {a b : ActionId}
    (hnodup : (leavesList steps).Nodup) (hij : i < j) (hi : steps[i]? = some (leaf slot a))
    (hj : steps[j]? = some (leaf slot' b)) (v : Json) :
    World.Precedes [a] [b] ((ownLeaves steps).map (·, v)) := by
  induction steps generalizing i j with
  | nil => cases hi
  | cons s rest ih =>
    obtain ⟨j, rfl⟩ : ∃ j', j = j' + 1 := ⟨j - 1, by omega⟩
    rw [List.getElem?_cons_succ] at hj
    rw [leavesList, List.nodup_append] at hnodup
    obtain ⟨-, hrest, hdisjoint⟩ := hnodup
    cases i with
    | zero =>
      cases hi
      exact .inl List.mem_cons_self
    | succ i =>
      have hlater := ih hrest (Nat.lt_of_succ_lt_succ hij) hi hj
      cases s with
      | group => exact hlater
      | leaf slot'' c =>
        refine .inr ⟨fun hc => ?_, hlater⟩
        obtain rfl : c = b := List.mem_singleton.1 hc
        exact hdisjoint c (List.mem_singleton.2 rfl) c
          (leaves_subset (List.mem_of_getElem? hj) (List.mem_singleton.2 rfl)) rfl

end Step

namespace Entrance

variable {E : Entrance} {slot : Slot} {a : ActionId}

/-- The look that enters the group does not come to the nested branch with the given index: the
branch stands as it has been launched, nothing below it has begun, and its own task is sure to
run. -/
structure Withholds (E : Entrance) (j : Nat) (t : Step) : Prop where
  stands : E.drive.steps[j]? = some (t.launchedWith E.input)
  unbegun : ∀ b ∈ E.polled.world.begun, b.1 ∉ t.leaves
  due : E.polled.world.Due (.group E.site.playlist (E.site.place ++ [j]))
  why : Group.Withheld E.tasks E.group.kind j E.drive

/-- What begins in the look that enters a group. -/
structure Onset (E : Entrance) : Prop where
  /-- When all branches have been launched, nested ones have got their input. -/
  launched : E.launched.1 = E.steps.map (launchedWith E.input)
  /-- By then the leaves among the branches have begun, one after another, and nothing else. -/
  leaves : E.launched.2.begun = E.world.begun ++ (ownLeaves E.steps).map (·, E.input)
  /-- Afterwards leaves of nested branches begin, and nothing else. -/
  nested : ∃ log, E.polled.world.begun = E.launched.2.begun ++ log ∧
    ∀ b ∈ log, ∃ s ∈ E.steps, s.isLeaf = false ∧ b.1 ∈ s.leaves
  /-- The first begin of a leaf comes before that of a nested branch, and those of two leaves or of
  two nested branches come in the order of the branches. -/
  order : ∀ (i j : Nat) (s t : Step), E.steps[i]? = some s → E.steps[j]? = some t →
    (s.isLeaf = true ∧ t.isLeaf = false) ∨ (s.isLeaf = t.isLeaf ∧ i < j) →
      s.opensWithLeaf = true → World.Precedes s.leaves t.leaves E.polled.world.begun
  /-- A nested branch has begun something, unless the look does not come to it. -/
  reaches : ∀ (j : Nat) (t : Step), E.steps[j]? = some t → t.isLeaf = false →
    t.opensWithLeaf = true →
      (∃ b ∈ E.polled.world.begun, b.1 ∈ t.leaves) ∨ E.Withholds j t

theorem polled_begun (E : Entrance) : E.polled.world.begun = E.drive.world.begun := by
  rw [E.polled_eq, toPolled_begun]

/-- Tasks that are due once the branches have been looked at are due after the look. -/
theorem polled_due {u : Task} (hu : E.drive.world.Due u) : E.polled.world.Due u := by
  rw [E.polled_eq]
  unfold Drive.toPolled
  split
  · exact hu
  · exact (World.scheduleAll_keeps (fun _ => False) _ _).due u hu

namespace Sound

/-- Of what begins when the branches are looked at, nothing is a leaf of the group's own. -/
theorem nested (h : E.Sound) {k : Nat}
    (hopened : Group.Opened E.input E.steps E.launched.2 k E.drive.steps E.drive.world) :
    ∃ log, E.drive.world.begun = E.launched.2.begun ++ log ∧
      ∀ b ∈ log, ∃ s ∈ E.steps, s.isLeaf = false ∧ b.1 ∈ s.leaves := by
  obtain ⟨log, hlog, hmem⟩ := hopened.evolves.exists_log
  refine ⟨log, hlog, fun b hb => ?_⟩
  have ha := hmem b hb
  rw [leavesList_eq, List.mem_flatMap] at ha
  obtain ⟨s, hs, ha⟩ := ha
  have hs := List.mem_of_mem_take hs
  refine ⟨s, hs, ?_, ha⟩
  cases s with
  | group => rfl
  | leaf slot a =>
    obtain rfl : b.1 = a := List.mem_singleton.1 ha
    have honce := (hopened.evolves.logged h.launched.2.2.2.logged).once
    rw [hlog, List.map_append, List.nodup_append] at honce
    have hbegun : b.1 ∈ E.launched.2.begun.map Prod.fst :=
      List.mem_map_of_mem (f := Prod.fst) (a := (b.1, E.input)) (h.begun_leaf hs)
    exact absurd rfl (honce.2.2 b.1 hbegun b.1 (List.mem_map_of_mem hb))

/-- A leaf comes before every nested branch, and before the leaves behind it. -/
theorem leaf_precedes (h : E.Sound) {i j : Nat} {t : Step} (hi : E.steps[i]? = some (leaf slot a))
    (hj : E.steps[j]? = some t) (hij : t.isLeaf = false ∨ i < j) (log : List (ActionId × Json)) :
    World.Precedes [a] t.leaves (E.launched.2.begun ++ log) := by
  have ht := List.mem_of_getElem? hj
  refine World.Precedes.append ?_
    ⟨_, h.begun_leaf (List.mem_of_getElem? hi), List.mem_singleton.2 rfl⟩ log
  rw [h.launched.2.1]
  refine World.precedes_append (fun b hb hm => ?_) ?_
  · exact h.logged.notMem hb (h.unbegun b.1 (leaves_subset ht hm))
  · cases t with
    | leaf slot' b =>
      exact precedes_ownLeaves h.nodup (hij.resolve_left Bool.noConfusion) hi hj E.input
    | group slot' g steps =>
      refine World.precedes_of_notMem fun b hb hm => ?_
      obtain ⟨c, hc, rfl⟩ := List.mem_map.1 hb
      exact notMem_ownLeaves h.nodup ht rfl hm hc

theorem onset (h : E.Sound) : E.Onset := by
  obtain ⟨hsteps, hbegun, hdue, hpristine⟩ := h.launched
  obtain ⟨k, hopened, -, hstop⟩ := h.opened (lookBelow_onward E.height E.site E.tasks)
  obtain ⟨log, hlog, hnested⟩ := h.nested hopened
  refine ⟨hsteps, hbegun, ⟨log, E.polled_begun.trans hlog, hnested⟩, ?_, ?_⟩
  · intro i j s t hi hj hij hopens
    rw [polled_begun]
    cases s with
    | leaf slot a =>
      rw [hlog]
      exact h.leaf_precedes hi hj (hij.imp And.right And.right) log
    | group =>
      obtain ⟨hl, hlt⟩ := hij.resolve_left fun hleaf => Bool.false_ne_true hleaf.1
      exact hopened.order i j _ t hlt hi hj rfl hl.symm hopens
  · intro j t hj hl hopens
    rw [polled_begun]
    by_cases hjk : j < k
    · exact .inl (hopened.begins j t hjk hj hl hopens)
    · have hkj := Nat.not_lt.1 hjk
      refine .inr ⟨?_, ?_, ?_, hstop j hkj (List.getElem?_eq_some_iff.1 hj).1⟩
      · rw [hopened.unlooked j hkj, hj]
        rfl
      · rw [polled_begun]
        exact hopened.not_begun hpristine hkj hj hl
      · exact polled_due (hopened.evolves.keeps.due _ (hdue j t hj hl))

end Sound

end Entrance

end Rundown
