import Mathlib.Logic.Relation
import Rundown.Proofs.Playlist.Progress

/-!
# What a group does to its steps

A group that is looked at launches steps that nobody has launched, looks at steps that it awaits and
takes the outcomes of steps that are ready.  These are its acts (`Group.Acts`), and nothing else
happens to its steps (`Step.pollWithin_acts`), so what every act preserves, every look preserves.

That a group launches a step only once and awaits only what it has launched does not depend on the
world: it follows from how the steps stand at each stage of the group (`Step.Arrayed`).
-/

namespace Rundown

namespace Step

/-- The group around the step has launched it.  A nested group that is not awaited any more has
ended with the outcome that was taken from it. -/
def IsLaunched : Step → Prop
  | leaf slot _ => slot ≠ .idle
  | .group slot g _ => (slot = .waiting ∧ g.stage ≠ .created ∧ g.stage ≠ .expired) ∨
      ∃ o, slot = .done o ∧ g.stage = .finished o

/-- The steps of a running sequence: some that are done, the one that is awaited, and others that
have not been launched. -/
def InLine : List Step → Prop
  | [] => False
  | s :: rest => s.IsLaunched ∧ if s.isDone then InLine rest else ∀ t ∈ rest, t.Fresh

end Step

open Step

/-- The steps stand as the stage of their group says. -/
def Group.Arrays (g : Group) (steps : List Step) : Prop :=
  match g.stage with
  | .created | .expired | .triggered _ => ∀ s ∈ steps, s.Fresh
  | .running => if g.kind = .sequence then InLine steps else ∀ s ∈ steps, s.IsLaunched
  | .finished _ => True

/-- The steps of a group that nobody has entered are as they were compiled. -/
theorem Group.Arrays.fresh {g : Group} {steps : List Step} (h : g.Arrays steps)
    (hs : g.stage.isStarted = false) : ∀ s ∈ steps, s.Fresh := by
  unfold Group.Arrays at h
  cases hstage : g.stage with
  | created | expired | triggered => rwa [hstage] at h
  | running | finished =>
    rw [hstage] at hs
    cases hs

/-- In every group inside the step the steps stand as its stage says. -/
def Step.Arrayed (s : Step) : Prop :=
  ∀ place slot g steps, s.at? place = some (.group slot g steps) → g.Arrays steps

namespace Step

variable {s : Step} {w : World} {slot : Slot} {a : ActionId} {g g' : Group} {steps : List Step}

theorem arrayed_leaf : (leaf slot a).Arrayed := by
  intro place slot' g steps hat
  cases place <;> cases hat

theorem arrayed_group :
    (group slot g steps).Arrayed ↔ g.Arrays steps ∧ ∀ s ∈ steps, s.Arrayed := by
  constructor
  · intro h
    refine ⟨h [] slot g steps rfl, ?_⟩
    intro s hm place slot' g' steps' hat
    obtain ⟨i, hi⟩ := List.mem_iff_getElem?.1 hm
    exact h (i :: place) slot' g' steps' (by rw [at?, hi]; exact hat)
  · rintro ⟨hown, hbelow⟩ place slot' g' steps' hat
    cases place with
    | nil =>
      cases hat
      exact hown
    | cons i place =>
      obtain ⟨s, hi, hat⟩ := Option.bind_eq_some_iff.1 hat
      exact hbelow s (List.mem_of_getElem? hi) place slot' g' steps' hat

theorem Fresh.child (h : (group slot g steps).Fresh) : ∀ s ∈ steps, s.Fresh :=
  freshList_iff.1 h.2.2.2.2

theorem Fresh.at? {place : List Nat} {t : Step} (h : s.Fresh) (hat : s.at? place = some t) :
    t.Fresh := by
  induction place generalizing s with
  | nil =>
    cases hat
    exact h
  | cons i place ih =>
    cases s with
    | leaf => cases hat
    | group slot g steps =>
      obtain ⟨u, hi, hat⟩ := Option.bind_eq_some_iff.1 hat
      exact ih (h.child u (List.mem_of_getElem? hi)) hat

theorem Fresh.arrayed (h : s.Fresh) : s.Arrayed := by
  intro place slot g steps hat
  have hfresh := h.at? hat
  simp only [Group.Arrays, hfresh.2.1]
  exact hfresh.child

theorem Arrayed.withSlot (h : s.Arrayed) (slot : Slot) : (s.withSlot slot).Arrayed := by
  cases s with
  | leaf => exact arrayed_leaf
  | group => exact arrayed_group.2 (arrayed_group.1 h)

theorem Arrayed.forgotten (h : s.Arrayed) : s.forgotten.Arrayed := by
  cases s with
  | leaf => exact arrayed_leaf
  | group =>
    obtain ⟨hown, hbelow⟩ := arrayed_group.1 h
    exact arrayed_group.2 ⟨hown, hbelow⟩

/-- A step that was launched and is not done is awaited. -/
theorem IsLaunched.isAwaited (h : s.IsLaunched) (hd : s.isDone = false) : s.isAwaited = true := by
  cases s with
  | leaf slot a =>
    cases slot with
    | idle => exact absurd rfl h
    | waiting | refused => rfl
    | done => cases hd
  | group slot g steps =>
    rcases h with ⟨rfl, -⟩ | ⟨o, rfl, -⟩
    · rfl
    · cases hd

/-- A nested group is never refused. -/
theorem IsLaunched.waiting (h : (group slot g steps).IsLaunched)
    (ha : (group slot g steps).isAwaited = true) :
    slot = .waiting ∧ g.stage ≠ .created ∧ g.stage ≠ .expired := by
  rcases h with h | ⟨o, rfl, -⟩
  · exact h
  · cases ha

/-- The outcome of a step that is ready is taken from it. -/
theorem IsLaunched.take {o : Outcome} (h : s.IsLaunched) (ha : s.isAwaited = true)
    (ho : s.answer? w = some o) : (s.withSlot (.done o)).IsLaunched := by
  cases s with
  | leaf => exact fun h => by cases h
  | group slot g steps =>
    obtain ⟨-, hcreated, hexpired⟩ := h.waiting ha
    refine .inr ⟨o, rfl, ?_⟩
    have ho : g.stage.outcome? = some o := ho
    cases hs : g.stage with
    | created => exact absurd hs hcreated
    | expired => exact absurd hs hexpired
    | triggered | running => rw [hs] at ho; cases ho
    | finished o' => rw [hs] at ho; cases ho; rfl

/-! ## Known steps -/

variable {x : Scene} {place : List Nat} {v : Json}

theorem Entered.isLaunched (h : s.Entered x place v) (ht : s.Tied) : s.IsLaunched := by
  cases s with
  | leaf slot a =>
    rintro rfl
    exact h.elim
  | group slot g steps =>
    have hr : g.Runs x place v steps _ _ := h
    exact ht.imp_left fun hs => ⟨hs, hr.created, hr.expired⟩

theorem EnteredInOrder.inLine {index : Nat} (h : EnteredInOrder x place index v none steps) :
    InLine steps := by
  induction steps generalizing index v with
  | nil => cases h
  | cons s rest ih =>
    obtain ⟨hs, ht, htaken⟩ := h
    refine ⟨hs.isLaunched ht, ?_⟩
    split at htaken
    next hnone =>
      rw [taken?_eq_none_iff.1 hnone]
      exact fun t hm => (htaken.2 t hm).1
    · cases htaken.1
    next u hu =>
      rw [isDone_of_taken? hu]
      exact ih htaken

theorem Known.arrays (h : (group slot g steps).Known x place) : g.Arrays steps := by
  rcases h with ⟨v, h⟩ | h | h
  · have hr : g.Runs x place v steps _ _ := h
    unfold Group.Arrays
    cases hs : g.stage with
    | created => exact absurd hs hr.created
    | expired => exact absurd hs hr.expired
    | triggered input => exact fun s hm => ((hr.triggered input hs).2.2 s hm).1
    | finished o => trivial
    | running =>
      dsimp only
      split
      next hk =>
        have hsteps := hr.inOrder (by rw [hs]; rfl) hk
        rw [hs] at hsteps
        exact hsteps.inLine
      next hk =>
        intro s hm
        obtain ⟨i, hi⟩ := List.mem_iff_getElem?.1 hm
        obtain ⟨hent, ht⟩ := enteredAll_iff.1 (hr.together (by rw [hs]; rfl) hk) i s hi
        exact hent.isLaunched ht
  · exact (arrayed_group.1 h.1.arrayed).1
  · have hfresh : ∀ s ∈ steps, s.Fresh := fun s hm => (h.2.2.2.2 s hm).1
    unfold Group.Arrays
    rcases h.2.1 with hs | hs <;> rw [hs] <;> exact hfresh

/-- What the invariant of a playlist says about how its steps stand. -/
theorem Known.arrayed (h : s.Known x place) : s.Arrayed := by
  intro below slot g steps hat
  exact (h.at? hat).arrays

end Step

/-! ## Acts -/

/-- What a look leaves of a step. -/
structure Step.Seen (s : Step) (p : Polled) : Prop where
  arrayed : p.step.Arrayed
  launched : s.IsLaunched → p.step.IsLaunched
  slot : p.step.slot = s.slot
  reset : p.step.reset = s.reset
  answer : p.outcome = p.step.answer? p.world

/-- The looks at the steps that a group awaits keep them in order. -/
def Look.Fair (look : Look) (height : Nat) : Prop :=
  ∀ (i : Nat) (s : Step) (w : World), s.height ≤ height → s.Arrayed → s.IsLaunched →
    s.isAwaited = true → s.Seen (look i s w)

/-- The group awaits what it has launched. -/
def Launch.Fair (launch : Launch) : Prop :=
  ∀ (i : Nat) (v : Json) (s : Step) (w : World), s.Fresh → (launch i v s w).1.Arrayed ∧
    (launch i v s w).1.IsLaunched ∧ (launch i v s w).1.isAwaited = true ∧
    (launch i v s w).1.reset = s.reset

namespace Group

/-- One thing that a group does to its steps in a world. -/
inductive Acts (look : Look) (launch : Launch) (height : Nat) :
    List Step × World → List Step × World → Prop
  /-- It launches a step that has not been launched. -/
  | launches {steps : List Step} {i : Nat} {s : Step} (v : Json) (w : World) :
      steps[i]? = some s → s.Fresh →
      Acts look launch height (steps, w) (steps.set i (launch i v s w).1, (launch i v s w).2)
  /-- It looks at a step that it awaits. -/
  | looks {steps : List Step} {i : Nat} {s : Step} (w : World) : steps[i]? = some s →
      s.height ≤ height → s.Arrayed → s.IsLaunched → s.isAwaited = true →
      Acts look launch height (steps, w) (steps.set i (look i s w).step, (look i s w).world)
  /-- It takes the outcome of a step that it awaits. -/
  | takes {steps : List Step} {i : Nat} {s : Step} {w : World} {o : Outcome} :
      steps[i]? = some s → s.isAwaited = true → s.answer? w = some o →
      Acts look launch height (steps, w) (steps.set i (s.withSlot (.done o)), w)
  /-- It stops awaiting its steps. -/
  | forgets (steps : List Step) (w : World) :
      Acts look launch height (steps, w) (steps.map Step.forgotten, w)
  /-- Somebody is woken. -/
  | wakes (steps : List Step) (w : World) (t : Task) :
      Acts look launch height (steps, w) (steps, w.schedule t)

/-- Any number of acts. -/
abbrev Works (look : Look) (launch : Launch) (height : Nat) :
    List Step × World → List Step × World → Prop :=
  Relation.ReflTransGen (Acts look launch height)

variable {look : Look} {launch : Launch} {height : Nat} {g : Group} {tasks : List Task}
  {front steps rest : List Step} {s : Step} {w : World} {input : Json}

theorem Works.scheduleAll (steps : List Step) (w : World) (ts : List Task) :
    Works look launch height (steps, w) (steps, w.scheduleAll ts) := by
  induction ts generalizing w with
  | nil => exact .refl
  | cons t ts ih => exact .head (.wakes steps w t) (ih (w.schedule t))

theorem getElem?_middle : (front ++ s :: rest)[front.length]? = some s := by simp

theorem set_middle {t : Step} : (front ++ s :: rest).set front.length t = front ++ t :: rest := by
  simp

theorem append_cons_assoc {t : Step} : front ++ t :: rest = (front ++ [t]) ++ rest := by simp

theorem acts_launch (v : Json) (h : s.Fresh) :
    Acts look launch height (front ++ s :: rest, w)
      (front ++ (launch front.length v s w).1 :: rest, (launch front.length v s w).2) := by
  have hacts : Acts look launch height (front ++ s :: rest, w)
      ((front ++ s :: rest).set front.length _, _) := .launches v w getElem?_middle h
  rwa [set_middle] at hacts

theorem acts_look (hheight : s.height ≤ height) (harrayed : s.Arrayed) (hs : s.IsLaunched)
    (ha : s.isAwaited = true) :
    Acts look launch height (front ++ s :: rest, w)
      (front ++ (look front.length s w).step :: rest, (look front.length s w).world) := by
  have hacts : Acts look launch height (front ++ s :: rest, w)
      ((front ++ s :: rest).set front.length _, _) :=
    .looks w getElem?_middle hheight harrayed hs ha
  rwa [set_middle] at hacts

theorem acts_take {o : Outcome} (ha : s.isAwaited = true) (ho : s.answer? w = some o) :
    Acts look launch height (front ++ s :: rest, w)
      (front ++ s.withSlot (.done o) :: rest, w) := by
  have hacts : Acts look launch height (front ++ s :: rest, w)
      ((front ++ s :: rest).set front.length (s.withSlot (.done o)), w) :=
    .takes getElem?_middle ha ho
  rwa [set_middle] at hacts

end Group

namespace Step.Seen

open Rundown.Group

variable {look : Look} {launch : Launch} {height : Nat} {front rest : List Step} {s : Step}
  {w : World} {p : Polled} {o : Outcome}

theorem isAwaited (h : s.Seen p) (ha : s.isAwaited = true) : p.step.isAwaited = true :=
  (isAwaited_congr h.slot).trans ha

theorem take (h : s.Seen p) (hs : s.IsLaunched) (ha : s.isAwaited = true)
    (ho : p.outcome = some o) : (p.step.withSlot (.done o)).IsLaunched :=
  (h.launched hs).take (h.isAwaited ha) (h.answer.symm.trans ho)

theorem reset_take (h : s.Seen p) (o : Outcome) : (p.step.withSlot (.done o)).reset = s.reset :=
  (reset_withSlot _ _).trans h.reset

/-- The step behind `front` is looked at, and then its outcome is taken. -/
theorem works (h : s.Seen p)
    (hlooked : Acts look launch height (front ++ s :: rest, w) (front ++ p.step :: rest, p.world))
    (ha : s.isAwaited = true) (ho : p.outcome = some o) :
    Works look launch height (front ++ s :: rest, w)
      (front ++ p.step.withSlot (.done o) :: rest, p.world) :=
  .tail (.single hlooked) (acts_take (h.isAwaited ha) (h.answer.symm.trans ho))

end Step.Seen

namespace Group

variable {look : Look} {launch : Launch} {height : Nat} {g : Group} {tasks : List Task}
  {front steps rest : List Step} {s : Step} {w : World} {input : Json}

/-! ## Driving -/

/-- What a group does to the steps behind `front`. -/
structure Worked (look : Look) (launch : Launch) (height : Nat) (front steps : List Step)
    (w : World) (steps' : List Step) (w' : World) : Prop where
  works : Works look launch height (front ++ steps, w) (front ++ steps', w')
  arrayed : ∀ s ∈ steps', s.Arrayed
  reset : resetList steps' = resetList steps

/-- What driving a sequence does to the steps behind `front`. -/
structure WorkedInLine (look : Look) (launch : Launch) (height : Nat) (front steps : List Step)
    (w : World) (d : Drive) : Prop
    extends Worked look launch height front steps w d.steps d.world where
  inLine : d.outcome = none → InLine d.steps

/-- What a group does to branches behind `front`, which it has launched. -/
structure WorkedAll (look : Look) (launch : Launch) (height : Nat) (front steps : List Step)
    (w : World) (steps' : List Step) (w' : World) : Prop
    extends Worked look launch height front steps w steps' w' where
  launched : ∀ s ∈ steps', s.IsLaunched

theorem Worked.refl (h : ∀ s ∈ steps, s.Arrayed) :
    Worked look launch height front steps w steps w :=
  ⟨.refl, h, rfl⟩

/-- The first of the steps and then the others. -/
theorem Worked.cons {s' : Step} {rest' : List Step} {w' w'' : World}
    (h : Works look launch height (front ++ s :: rest, w) (front ++ s' :: rest, w'))
    (harrayed : s'.Arrayed) (hreset : s'.reset = s.reset)
    (hrest : Worked look launch height (front ++ [s']) rest w' rest' w'') :
    Worked look launch height front (s :: rest) w (s' :: rest') w'' where
  works := by
    have hworks := hrest.works
    rw [← append_cons_assoc, ← append_cons_assoc] at hworks
    exact h.trans hworks
  arrayed := List.forall_mem_cons.2 ⟨harrayed, hrest.arrayed⟩
  reset := by rw [resetList, resetList, hreset, hrest.reset]

theorem WorkedAll.cons {s' : Step} {rest' : List Step} {w' w'' : World}
    (h : Works look launch height (front ++ s :: rest, w) (front ++ s' :: rest, w'))
    (harrayed : s'.Arrayed) (hreset : s'.reset = s.reset) (hlaunched : s'.IsLaunched)
    (hrest : WorkedAll look launch height (front ++ [s']) rest w' rest' w'') :
    WorkedAll look launch height front (s :: rest) w (s' :: rest') w'' :=
  ⟨.cons h harrayed hreset hrest.toWorked, List.forall_mem_cons.2 ⟨hlaunched, hrest.launched⟩⟩

theorem WorkedAll.nil : WorkedAll look launch height front [] w [] w :=
  ⟨.refl fun _ hm => (by cases hm), fun _ hm => (by cases hm)⟩

theorem launchAll_works (hlaunch : launch.Fair) (h : ∀ s ∈ steps, s.Fresh) :
    WorkedAll look launch height front steps w (launchAll launch input front.length steps w).1
      (launchAll launch input front.length steps w).2 := by
  induction steps generalizing front w with
  | nil => exact .nil
  | cons s rest ih =>
    rw [List.forall_mem_cons] at h
    obtain ⟨harrayed, hlaunched, -, hreset⟩ := hlaunch front.length input s w h.1
    have hrest := @ih (front ++ [(launch front.length input s w).1])
      (launch front.length input s w).2 h.2
    rw [List.length_append, List.length_singleton] at hrest
    exact .cons (.single (acts_launch input h.1)) harrayed hreset hlaunched hrest

/-- Driving the current step of a sequence, which has been launched, and what follows it. -/
theorem driveCurrent_works (hlook : look.Fair height) (hheight : s.height ≤ height)
    (harrayed : s.Arrayed) (hs : s.IsLaunched) (ha : s.isAwaited = true)
    (hrest : ∀ t ∈ rest, t.Fresh)
    (ih : ∀ (front : List Step) (u : Json) (w : World), WorkedInLine look launch height front rest w
      (g.driveSequence look launch front.length (some u) rest w)) :
    WorkedInLine look launch height front (s :: rest) w
      (g.driveCurrent look launch front.length s rest w) := by
  have hseen := hlook front.length s w hheight harrayed hs ha
  have hlooked : Acts look launch height (front ++ s :: rest, w) _ :=
    acts_look hheight harrayed hs ha
  unfold driveCurrent
  generalize look front.length s w = p at hseen hlooked
  have hfresh : ∀ t ∈ rest, t.Arrayed := fun t hm => (hrest t hm).arrayed
  dsimp only
  cases ho : p.outcome with
  | none =>
    refine ⟨.cons (.single hlooked) hseen.arrayed hseen.reset (.refl hfresh), fun _ => ?_⟩
    refine ⟨hseen.launched hs, ?_⟩
    rw [isDone_eq_false_of_isAwaited (hseen.isAwaited ha)]
    exact hrest
  | some o =>
    have htaken := hseen.works hlooked ha ho
    cases o with
    | error e =>
      exact ⟨.cons htaken (hseen.arrayed.withSlot _) (hseen.reset_take _) (.refl hfresh),
        fun h => by cases h⟩
    | ok u =>
      have hworked := ih (front ++ [p.step.withSlot (.done (.ok u))]) u p.world
      rw [List.length_append, List.length_singleton] at hworked
      refine ⟨.cons htaken (hseen.arrayed.withSlot _) (hseen.reset_take _) hworked.toWorked, ?_⟩
      intro h
      refine ⟨hseen.take hs ha ho, ?_⟩
      rw [isDone_withSlot]
      exact hworked.inLine h

/-- Driving a sequence from its first step on. -/
theorem driveSequence_starts (hlook : look.Fair height) (hlaunch : launch.Fair)
    (hheight : ∀ s ∈ steps, s.height ≤ height) (h : ∀ s ∈ steps, s.Fresh) :
    WorkedInLine look launch height front steps w
      (g.driveSequence look launch front.length (some input) steps w) := by
  induction steps generalizing front input w with
  | nil => exact ⟨WorkedAll.nil.toWorked, fun h => by cases h⟩
  | cons s rest ih =>
    rw [List.forall_mem_cons] at hheight h
    obtain ⟨harrayed, hlaunched, hawaited, hreset⟩ := hlaunch front.length input s w h.1
    have hact : Acts look launch height (front ++ s :: rest, w) _ := acts_launch input h.1
    rw [driveSequence_launch]
    generalize launch front.length input s w = r at harrayed hlaunched hawaited hreset hact
    have hworked : WorkedInLine look launch height front (r.1 :: rest) r.2
        (g.driveCurrent look launch front.length r.1 rest r.2) :=
      driveCurrent_works hlook (height_congr hreset ▸ hheight.1) harrayed hlaunched hawaited h.2
        fun front u w => ih hheight.2 h.2
    refine ⟨⟨.head hact hworked.works, hworked.arrayed, hworked.reset.trans ?_⟩, hworked.inLine⟩
    rw [resetList, resetList, hreset]

/-- Driving a sequence that goes on. -/
theorem driveSequence_works (hlook : look.Fair height) (hlaunch : launch.Fair)
    (hheight : ∀ s ∈ steps, s.height ≤ height) (harrayed : ∀ s ∈ steps, s.Arrayed)
    (h : InLine steps) : WorkedInLine look launch height front steps w
      (g.driveSequence look launch front.length none steps w) := by
  induction steps generalizing front with
  | nil => cases h
  | cons s rest ih =>
    rw [List.forall_mem_cons] at hheight harrayed
    obtain ⟨hs, hnext⟩ := h
    cases hd : s.isDone with
    | true =>
      rw [hd] at hnext
      rw [driveSequence_skip hd]
      have hworked := @ih (front ++ [s]) hheight.2 harrayed.2 hnext
      rw [List.length_append, List.length_singleton] at hworked
      refine ⟨.cons .refl harrayed.1 rfl hworked.toWorked, fun h => ⟨hs, ?_⟩⟩
      rw [hd]
      exact hworked.inLine h
    | false =>
      rw [hd] at hnext
      rw [driveSequence_current hd]
      exact driveCurrent_works hlook hheight.1 harrayed.1 hs (hs.isAwaited hd) hnext
        fun front u w => driveSequence_starts hlook hlaunch hheight.2 hnext

theorem driveEach_works (hlook : look.Fair height) (hheight : ∀ s ∈ steps, s.height ≤ height)
    (harrayed : ∀ s ∈ steps, s.Arrayed) (h : ∀ s ∈ steps, s.IsLaunched) :
    WorkedAll look launch height front steps w (g.driveEach look front.length steps w).steps
      (g.driveEach look front.length steps w).world := by
  induction steps generalizing front w with
  | nil => exact .nil
  | cons s rest ih =>
    rw [List.forall_mem_cons] at hheight harrayed h
    have later (t : Step) (w' : World) : WorkedAll look launch height (front ++ [t]) rest w'
        (g.driveEach look (front.length + 1) rest w').steps
        (g.driveEach look (front.length + 1) rest w').world := by
      have := @ih (front ++ [t]) w' hheight.2 harrayed.2 h.2
      rwa [List.length_append, List.length_singleton] at this
    cases hd : s.isDone with
    | true =>
      simp only [driveEach, hd, if_true]
      exact .cons .refl harrayed.1 rfl h.1 (later s w)
    | false =>
      have ha := h.1.isAwaited hd
      have hseen := hlook front.length s w hheight.1 harrayed.1 h.1 ha
      have hlooked : Acts look launch height (front ++ s :: rest, w) _ :=
        acts_look hheight.1 harrayed.1 h.1 ha
      simp only [driveEach, hd, Bool.false_eq_true, if_false]
      generalize look front.length s w = p at hseen hlooked
      cases ho : p.outcome with
      | none =>
        exact .cons (.single hlooked) hseen.arrayed hseen.reset (hseen.launched h.1)
          (later p.step p.world)
      | some o =>
        have htaken := hseen.works hlooked ha ho
        have hdone := hseen.take h.1 ha ho
        cases o with
        | error e =>
          exact .cons htaken (hseen.arrayed.withSlot _) (hseen.reset_take _) hdone
            ⟨.refl harrayed.2, h.2⟩
        | ok u =>
          exact .cons htaken (hseen.arrayed.withSlot _) (hseen.reset_take _) hdone
            (later (p.step.withSlot (.done (.ok u))) p.world)

/-! ## Driving woken branches -/

/-- One of the branches has become another step. -/
theorem WorkedAll.set {i : Nat} {s' : Step} {w' : World} (hi : steps[i]? = some s)
    (hworks : Works look launch height (steps, w) (steps.set i s', w'))
    (hsteps : ∀ t ∈ steps, t.Arrayed ∧ t.IsLaunched) (harrayed : s'.Arrayed)
    (hlaunched : s'.IsLaunched) (hreset : s'.reset = s.reset) :
    WorkedAll look launch height [] steps w (steps.set i s') w' where
  works := hworks
  arrayed t hm := (List.mem_or_eq_of_mem_set hm).elim (fun hm => (hsteps t hm).1) fun h =>
    h ▸ harrayed
  reset := resetList_set hi hreset
  launched t hm := (List.mem_or_eq_of_mem_set hm).elim (fun hm => (hsteps t hm).2) fun h =>
    h ▸ hlaunched

theorem WorkedAll.trans {steps' steps'' : List Step} {w' w'' : World}
    (h : WorkedAll look launch height front steps w steps' w')
    (h' : WorkedAll look launch height front steps' w' steps'' w'') :
    WorkedAll look launch height front steps w steps'' w'' :=
  ⟨⟨h.works.trans h'.works, h'.arrayed, h'.reset.trans h.reset⟩, h'.launched⟩

/-- What is done to branches is done again to what they have become. -/
theorem WorkedAll.next {steps' steps'' : List Step} {w' w'' : World}
    (h : WorkedAll look launch height front steps w steps' w') (hheight : heightList steps ≤ height)
    (hnext : heightList steps' ≤ height → (∀ s ∈ steps', s.Arrayed ∧ s.IsLaunched) →
      WorkedAll look launch height front steps' w' steps'' w'') :
    WorkedAll look launch height front steps w steps'' w'' :=
  h.trans (hnext (heightList_of_resetList h.reset ▸ hheight) fun s hm =>
    ⟨h.arrayed s hm, h.launched s hm⟩)

theorem heightList_le (h : heightList steps ≤ height) : ∀ s ∈ steps, s.height ≤ height :=
  fun _ hm => Nat.le_trans (height_le hm) h

/-- A branch from the queue is looked at, and its outcome may be taken. -/
theorem Turn.works {d : Drive} {j : Nat} {rest : List Nat} {p : Polled}
    (ht : Turn look d j rest s p) (launch : Launch) (hlook : look.Fair height)
    (hheight : heightList d.steps ≤ height) (hsteps : ∀ s ∈ d.steps, s.Arrayed ∧ s.IsLaunched) :
    WorkedAll look launch height [] d.steps d.world (d.passing j rest p).steps p.world ∧
      ∀ o, p.outcome = some o →
        WorkedAll look launch height [] d.steps d.world (d.taking j rest p o).steps p.world := by
  have hm := List.mem_of_getElem? ht.step
  obtain ⟨harrayed, hs⟩ := hsteps s hm
  have ha := hs.isAwaited ht.undone
  have hlow := heightList_le hheight s hm
  have hseen := hlook j s d.world hlow harrayed hs ha
  have hlooked : Acts look launch height (d.steps, d.world) _ :=
    .looks d.world ht.step hlow harrayed hs ha
  rw [ht.looked] at hseen hlooked
  refine ⟨.set ht.step (.single hlooked) hsteps hseen.arrayed (hseen.launched hs) hseen.reset,
    fun o ho => ?_⟩
  have htake : Acts look launch height (d.steps.set j p.step, p.world) _ :=
    .takes ((getElem?_set_of ht.step).2 (.inl ⟨rfl, rfl⟩)) (hseen.isAwaited ha)
      (hseen.answer.symm.trans ho)
  rw [List.set_set] at htake
  exact .set ht.step (.tail (.single hlooked) htake) hsteps (hseen.arrayed.withSlot _)
    (hseen.take hs ha ho) (hseen.reset_take o)

theorem Rounds.works {fuel live looked again : Nat} {d d' : Drive} (hlook : look.Fair height)
    (h : Rounds look tasks fuel live looked again d d') (hheight : heightList d.steps ≤ height)
    (hsteps : ∀ s ∈ d.steps, s.Arrayed ∧ s.IsLaunched) :
    WorkedAll look launch height [] d.steps d.world d'.steps d'.world := by
  induction h with
  | exhausted | idle => exact ⟨.refl fun s hm => (hsteps s hm).1, fun s hm => (hsteps s hm).2⟩
  | stale _ _ _ ih => exact ih hheight hsteps
  | pauses ht =>
    obtain ⟨hworked, -⟩ := ht.works launch hlook hheight hsteps
    have hwoken := hworked.works.trans (Works.scheduleAll _ _ tasks)
    exact ⟨⟨hwoken, hworked.arrayed, hworked.reset⟩, hworked.launched⟩
  | passes ht _ _ _ ih => exact (ht.works launch hlook hheight hsteps).1.next hheight ih
  | decides ht ho => exact (ht.works launch hlook hheight hsteps).2 _ ho
  | takes ht ho _ _ ih => exact ((ht.works launch hlook hheight hsteps).2 _ ho).next hheight ih

theorem driveParallel_works (launch : Launch) (g : Group) (tasks : List Task) (w : World)
    (hlook : look.Fair height) (hheight : heightList steps ≤ height)
    (harrayed : ∀ s ∈ steps, s.Arrayed) (h : ∀ s ∈ steps, s.IsLaunched) :
    WorkedAll look launch height [] steps w (g.driveParallel look tasks steps w).steps
      (g.driveParallel look tasks steps w).world := by
  unfold driveParallel
  split
  · exact ⟨.refl harrayed, h⟩
  · split
    · exact (driveWoken_rounds look tasks _ _ 0 0 ⟨g, steps, w, none, false⟩).works hlook hheight
        fun s hm => ⟨harrayed s hm, h s hm⟩
    · have hworked : WorkedAll look launch height [] steps w (g.driveEach look 0 steps w).steps
          (g.driveEach look 0 steps w).world :=
        driveEach_works hlook (heightList_le hheight) harrayed h
      exact hworked

/-- Driving a running group. -/
theorem drive_works (g : Group) (tasks : List Task) (w : World) (hlook : look.Fair height)
    (hlaunch : launch.Fair)
    (hheight : heightList steps ≤ height) (harrayed : ∀ s ∈ steps, s.Arrayed)
    (hs : g.stage = .running) (h : g.Arrays steps) :
    Worked look launch height [] steps w (g.drive look launch tasks steps w).steps
        (g.drive look launch tasks steps w).world ∧
      ((g.drive look launch tasks steps w).outcome = none →
        ({ g with stage := .running } : Group).Arrays
          (g.drive look launch tasks steps w).steps) := by
  simp only [Arrays, hs] at h ⊢
  unfold drive
  cases hk : g.kind with
  | sequence =>
    rw [hk, if_pos rfl] at h
    have hworked : WorkedInLine look launch height [] steps w _ :=
      driveSequence_works (g := g) hlook hlaunch (heightList_le hheight) harrayed h
    exact ⟨hworked.toWorked, hworked.inLine⟩
  | parallel keys policy =>
    rw [hk, if_neg (by simp)] at h
    have hworked := driveParallel_works launch g tasks w hlook hheight harrayed h
    exact ⟨hworked.toWorked, fun _ => hworked.launched⟩

/-- Starting a group. -/
theorem start_works (g : Group) (tasks : List Task) (input : Json) (w : World)
    (hlook : look.Fair height) (hlaunch : launch.Fair)
    (hheight : heightList steps ≤ height) (h : ∀ s ∈ steps, s.Fresh) :
    Worked look launch height [] steps w (g.start look launch tasks input steps w).steps
        (g.start look launch tasks input steps w).world ∧
      ((g.start look launch tasks input steps w).outcome = none →
        ({ g with stage := .running } : Group).Arrays
          (g.start look launch tasks input steps w).steps) := by
  simp only [Arrays]
  by_cases hk : g.kind = .sequence
  · rw [start_sequence hk, if_pos hk]
    have hworked : WorkedInLine look launch height [] steps w
        (({ g with stage := .running } : Group).driveSequence look launch 0 (some input) steps w) :=
      driveSequence_starts hlook hlaunch (heightList_le hheight) h
    exact ⟨hworked.toWorked, hworked.inLine⟩
  · rw [start_parallel hk, if_neg hk]
    have hall : WorkedAll look launch height [] steps w (launchAll launch input 0 steps w).1
        (launchAll launch input 0 steps w).2 := launchAll_works hlaunch h
    have hworked := driveParallel_works launch
      (g.launched (launchAll launch input 0 steps w).1.length) tasks
      (launchAll launch input 0 steps w).2 hlook (heightList_of_resetList hall.reset ▸ hheight)
      hall.arrayed hall.launched
    exact ⟨(hall.trans hworked).toWorked, fun _ => hworked.launched⟩

/-- What a look at a group does to the group and its steps. -/
structure Handles (look : Look) (launch : Launch) (height : Nat) (slot : Slot) (g : Group)
    (steps : List Step) (w : World) (p : Polled) (g' : Group) (steps' : List Step) : Prop where
  step : p.step = .group slot g' steps'
  worked : Worked look launch height [] steps w steps' p.world
  arrays : g'.Arrays steps'
  kind : g'.kind = g.kind
  looks : g.stage.Looks p.outcome g'.stage

end Group

theorem Stage.Looks.outcome?_eq {stage stage' : Stage} {o : Option Outcome}
    (h : stage.Looks o stage') : stage'.outcome? = o := by
  cases h <;> rfl

/-- A look does not make a group one that has not been played. -/
theorem Stage.Looks.played {stage stage' : Stage} {o : Option Outcome} (h : stage.Looks o stage')
    (hcreated : stage ≠ .created) (hexpired : stage ≠ .expired) :
    stage' ≠ .created ∧ stage' ≠ .expired := by
  cases h with
  | same => exact ⟨hcreated, hexpired⟩
  | runs | ends => exact ⟨fun h => (by cases h), fun h => (by cases h)⟩

/-- A look at a group that has ended leaves it alone. -/
theorem Stage.Looks.finished {stage stage' : Stage} {o : Option Outcome} {o' : Outcome}
    (h : stage.Looks o stage') (hs : stage = .finished o') : stage' = .finished o' := by
  subst hs
  cases h with
  | same => rfl
  | runs h | ends _ h => cases h

namespace Step

variable {look : Look} {launch : Launch} {height : Nat} {slot : Slot} {g g' : Group}
  {steps steps' : List Step} {s : Step} {w : World} {p : Polled}

theorem seen_of_handles (h : g.Handles look launch height slot steps w p g' steps') :
    (group slot g steps).Seen p where
  arrayed := by
    rw [h.step]
    exact arrayed_group.2 ⟨h.arrays, h.worked.arrayed⟩
  launched hs := by
    rw [h.step]
    rcases hs with ⟨hslot, hcreated, hexpired⟩ | ⟨o, hslot, hfinished⟩
    · exact .inl ⟨hslot, h.looks.played hcreated hexpired⟩
    · exact .inr ⟨o, hslot, h.looks.finished hfinished⟩
  slot := by rw [h.step]; rfl
  reset := by rw [h.step, reset, reset, h.kind, h.worked.reset]
  answer := by
    rw [h.step]
    exact h.looks.outcome?_eq.symm

/-- A group that is driven is handled. -/
theorem toPolled_handles {d : Drive} (tasks : List Task) (hopen : g.stage.isOpen = true)
    (honward : (group slot g steps).Onward (d.toPolled slot tasks).step)
    (hs : d.group.stage = .running)
    (hworked : Group.Worked look launch height [] steps w d.steps d.world)
    (harrays : d.outcome = none → ({ g with stage := .running } : Group).Arrays d.steps) :
    ∃ g' steps', g.Handles look launch height slot steps w (d.toPolled slot tasks) g' steps' := by
  have hlooks := toPolled_looks slot tasks hopen hs
  unfold Drive.toPolled at honward hlooks ⊢
  cases ho : d.outcome with
  | none =>
    rw [ho] at honward hlooks
    have hkind : d.group.kind = g.kind := honward.1
    refine ⟨d.group, d.steps, rfl, hworked, ?_, hkind, hlooks⟩
    have harrays := harrays ho
    unfold Group.Arrays at harrays ⊢
    rw [hs, hkind]
    exact harrays
  | some o =>
    rw [ho] at honward hlooks
    refine ⟨_, d.steps.map forgotten, rfl, ⟨?_, ?_, ?_⟩, trivial, honward.1, hlooks⟩
    · have hforgets : Group.Acts look launch height (d.steps, d.world) _ := .forgets d.steps d.world
      exact (hworked.works.tail hforgets).trans (Group.Works.scheduleAll _ _ tasks)
    · intro s hm
      obtain ⟨t, ht, rfl⟩ := List.mem_map.1 hm
      exact (hworked.arrayed t ht).forgotten
    · rw [← hworked.reset, resetList_eq, resetList_eq, List.map_map]
      exact List.map_congr_left fun s _ => reset_forgotten s

theorem launchBelow_fair (site : Site) (tasks : List Task) : (launchBelow site tasks).Fair := by
  intro i v s w h
  unfold launchBelow
  cases s with
  | leaf slot a =>
    refine ⟨arrayed_leaf, ?_, ?_, rfl⟩ <;> unfold launch <;> dsimp only <;> split
    · exact fun h => by cases h
    · exact fun h => by cases h
    · rfl
    · rfl
  | group slot g steps =>
    have hsteps := h.child
    simp only [launch, h.2.1]
    exact ⟨arrayed_group.2 ⟨hsteps, fun s hm => (hsteps s hm).arrayed⟩,
      .inl ⟨rfl, fun h => (by cases h), fun h => (by cases h)⟩, rfl, rfl⟩

/-- A look at a group is made of looks at its steps, which may be assumed to be fair. -/
theorem pollWithin_handles (site : Site) (waiter : Option Waiter)
    (hlook : ∀ tasks, (lookBelow height site tasks).Fair height)
    (h : (group slot g steps).Arrayed) (hheight : heightList steps ≤ height) :
    ∃ tasks g' steps', g.Handles (lookBelow height site tasks) (launchBelow site tasks) height slot
      steps w (pollWithin (height + 1) site waiter (group slot g steps) w) g' steps' := by
  have honward := (pollWithin_labours (height + 1) site waiter (group slot g steps) w).onward
  obtain ⟨harrays, harrayed⟩ := arrayed_group.1 h
  obtain ⟨waiters, hg, -⟩ := g.awaited waiter
  let tasks := ({ g with waiters := waiters } : Group).wakes site.above site.task
  refine ⟨tasks, ?_⟩
  cases hs : g.stage with
  | triggered input =>
    rw [pollWithin_triggered hg hs rfl] at honward ⊢
    simp only [Group.Arrays, hs] at harrays
    obtain ⟨hworked, harrays⟩ := Group.start_works { g with waiters := waiters } tasks input w
      (hlook tasks) (launchBelow_fair site tasks) hheight harrays
    exact toPolled_handles tasks (by rw [hs]; rfl) honward Group.start_stage hworked harrays
  | running =>
    rw [pollWithin_running hg hs rfl] at honward ⊢
    obtain ⟨hworked, harrays⟩ := Group.drive_works { g with waiters := waiters } tasks w
      (hlook tasks) (launchBelow_fair site tasks) hheight harrayed hs harrays
    exact toPolled_handles tasks (by rw [hs]; rfl) honward (Group.drive_stage.trans hs) hworked
      harrays
  | created =>
    refine ⟨{ g with waiters := waiters }, steps, ?_, ?_, harrays, rfl, ?_⟩ <;>
      simp only [pollWithin, hs, Stage.outcome?, hg]
    · exact .refl harrayed
    · exact .same
  | expired | finished =>
    refine ⟨g, steps, ?_, ?_, harrays, rfl, ?_⟩ <;> simp only [pollWithin, hs, Stage.outcome?]
    · exact .refl harrayed
    · exact .same

theorem lookBelow_seen {site : Site} {tasks : List Task} {i : Nat} (hs : s.IsLaunched)
    (ha : s.isAwaited = true)
    (h : s.Seen (pollWithin height (site.child tasks i) (some .parent) s w)) :
    s.Seen (lookBelow height site tasks i s w) := by
  unfold lookBelow
  split
  next e he =>
    -- Only a leaf can have been refused, and a look leaves it as it is.
    cases s with
    | leaf slot a =>
      obtain rfl : slot = .refused e := he
      exact ⟨arrayed_leaf, fun h => h, rfl, rfl, rfl⟩
    | group slot g steps =>
      obtain ⟨rfl, -⟩ := hs.waiting ha
      cases he
  · exact h

theorem pollWithin_seen (site : Site) (waiter : Option Waiter) (w : World) (h : s.Arrayed)
    (hheight : s.height ≤ height) : s.Seen (pollWithin height site waiter s w) := by
  induction height generalizing site waiter s w with
  | zero => exact absurd hheight (Nat.not_le.2 s.height_pos)
  | succ height ih =>
    cases s with
    | leaf slot a => exact ⟨arrayed_leaf, fun h => h, rfl, rfl, rfl⟩
    | group slot g steps =>
      have hlook (tasks : List Task) : (lookBelow height site tasks).Fair height :=
        fun i s w hheight harrayed hs ha => lookBelow_seen hs ha (ih _ _ w harrayed hheight)
      obtain ⟨tasks, g', steps', hhandles⟩ := pollWithin_handles (w := w) site waiter hlook h
        (Nat.le_of_succ_le_succ hheight)
      exact seen_of_handles hhandles

theorem lookBelow_fair (height : Nat) (site : Site) (tasks : List Task) :
    (lookBelow height site tasks).Fair height :=
  fun _ _ w hheight harrayed hs ha => lookBelow_seen hs ha (pollWithin_seen _ _ w harrayed hheight)

/-- A look at a group does to its steps what the group does to them, and nothing else. -/
theorem pollWithin_acts (site : Site) (waiter : Option Waiter) (w : World)
    (h : (group slot g steps).Arrayed) (hheight : heightList steps ≤ height) :
    ∃ tasks g' steps', g.Handles (lookBelow height site tasks) (launchBelow site tasks) height slot
      steps w (pollWithin (height + 1) site waiter (group slot g steps) w) g' steps' :=
  pollWithin_handles site waiter (lookBelow_fair height site) h hheight

end Step

end Rundown
