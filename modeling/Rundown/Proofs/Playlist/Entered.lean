import Rundown.Proofs.Playlist.Layout
import Rundown.Proofs.World.Frame
import Rundown.Playlist.Poll

/-!
# The invariant of a playlist

`Step.Entered x place v s` describes every state in which a step can be that was launched with the
input `v`, in the middle of a run: which of its leaves have begun and with what, how the outcomes of
its groups come from those of their steps, and that no wake gets lost.

A scene says what this is read against: the world, the tasks that are sure to run, and the actions
that belong to one leaf only.  For the last part a group that has been launched and not finished is
`Group.Alert`: its own task is sure to run, or that task awaits the group and the group awaits
nothing that is ready.

The invariant survives every change of the world that leaves the leaves of the step alone
(`Step.Entered.mono`).
-/

namespace Rundown

/-- What the invariant of a playlist is read against. -/
structure Scene where
  world : World
  playlist : PlaylistId
  /-- Tasks that are sure to run. -/
  due : Task → Prop
  /-- Actions that no two leaves share. -/
  sole : ActionId → Prop
  /-- Actions that fail before all others of their group do. -/
  lead : ActionId → Prop

/-- The same scene with another world and other tasks that are due. -/
def Scene.amid (x : Scene) (w : World) (due : Task → Prop) : Scene :=
  { x with world := w, due := due }

/-- The same scene with another world, whose tasks are due. -/
def Scene.after (x : Scene) (w : World) : Scene := x.amid w w.Due

namespace Step

/-- What awaiting the step leads to now. -/
def answer? (w : World) : Step → Option Outcome
  | leaf slot a => leafOutcome slot a w
  | .group _ g _ => g.stage.outcome?

/-- What the group around the step has taken from it or would get now. -/
def result? (w : World) (s : Step) : Option Outcome := s.taken?.or (s.answer? w)

/-- The step is not ready, and whatever makes it ready wakes the group around it. -/
def Quiet (w : World) : Step → Prop
  | leaf slot a => leafOutcome slot a w = none ∧ w.started? a = some true
  | .group _ g _ => g.stage.outcome? = none ∧ .parent ∈ g.waiters

/-- Whether the step is a leaf. -/
def isLeaf : Step → Bool
  | leaf _ _ => true
  | .group _ _ _ => false

/-- Whether the group around the step has launched it and not yet taken its outcome. -/
def isAwaited (s : Step) : Bool :=
  match s.slot with
  | .waiting | .refused _ => true
  | _ => false

/-- A nested group's slot agrees with its stage. -/
def Tied : Step → Prop
  | leaf _ _ => True
  | .group slot g _ => slot = .waiting ∨ ∃ o, slot = .done o ∧ g.stage = .finished o

end Step

/-- A parallel group has a key for every step. -/
def GroupKind.Fits (width : Nat) : GroupKind → Prop
  | .sequence => True
  | .parallel keys _ => keys.length = width

/-- The group has been launched and looked at. -/
def Stage.isStarted : Stage → Bool
  | .running | .finished _ => true
  | _ => false

mutual

/-- Nothing of the step has been launched. -/
def Step.Fresh : Step → Prop
  | .leaf slot _ => slot = .idle
  | .group slot g steps => slot = .idle ∧ g.stage = .created ∧ g.firstFailure = none ∧
      g.kind.Fits steps.length ∧ Step.FreshList steps

/-- Nothing of the steps has been launched. -/
def Step.FreshList : List Step → Prop
  | [] => True
  | s :: rest => s.Fresh ∧ Step.FreshList rest

end

/-- Nothing of the step has been launched, and the leaves that nobody else has can begin. -/
def Step.Untouched (x : Scene) (s : Step) : Prop :=
  s.Fresh ∧ ∀ a ∈ s.leaves, x.sole a → x.world.started? a = some false ∧ ¬x.lead a

/-- How a leaf that was launched with the input `v` can stand.  Only the leaf of a shared action can
be refused. -/
def Slot.Sound (x : Scene) (v : Json) (a : ActionId) : Slot → Prop
  | .idle => False
  | .waiting => x.world.Began a v
  | .refused e => e = .action .alreadyStarted ∧ ¬x.sole a
  | .done o =>
    (x.world.Began a v ∧ ∃ s, x.world.settlement? a = some s ∧ o = s.mapError .action) ∨
      (o = .error (.action .alreadyStarted) ∧ ¬x.sole a)

namespace Group

/-- The group's own task looks at the group in time: it is sure to run, or it awaits the group, and
then nothing that the group awaits is ready. -/
def Alert (x : Scene) (own : Task) (g : Group) (steps : List Step) : Prop :=
  match g.stage with
  | .triggered _ => x.due own
  | .running => x.due own ∨ (.task ∈ g.waiters ∧
      (g.tracksWakes steps.length = true → g.woken = []) ∧
      ∀ s ∈ steps, s.isAwaited = true → s.Quiet x.world)
  | _ => True

/-- The branches of a group that looks at woken branches only: each that may be ready is noted.
When all branches are leaves, only those that are ready are noted. -/
structure Noted (x : Scene) (g : Group) (steps : List Step) : Prop where
  nodup : g.woken.Nodup
  noted : ∀ i s, steps[i]? = some s → s.isDone = false → i ∈ g.woken ∨ s.Quiet x.world
  ready : (∀ s ∈ steps, s.isLeaf = true) → ∀ i ∈ g.woken, ∀ s, steps[i]? = some s →
    s.isDone = false → s.answer? x.world ≠ none

/-- A branch has failed in the eyes of the group. -/
def TookFailure (steps : List Step) (e : PlaylistError) : Prop :=
  ∃ s ∈ steps, s.taken? = some (.error e)

/-- The failure that the group keeps is one of a branch, and it keeps one if there is one. -/
structure Recorded (g : Group) (steps : List Step) : Prop where
  took : ∀ e, g.firstFailure = some e → TookFailure steps e
  keeps : g.tracksWakes steps.length = true → g.firstFailure = none → ∀ e, ¬TookFailure steps e

/-- The branches leave it open how the group ends. -/
structure Undecided (g : Group) (steps : List Step) : Prop where
  verdict : g.verdict steps = none
  fine : g.tracksWakes steps.length = false → ∀ e, ¬TookFailure steps e

/-- The outcome of a group that has ended: the verdict on its branches, or any failure for a group
that looks at every branch. -/
def Decided (g : Group) (steps : List Step) (o : Outcome) : Prop :=
  g.verdict steps = some o ∨
    (g.tracksWakes steps.length = false ∧ ∃ e, o = .error e ∧ TookFailure steps e)

/-- Of the failures that the running group has seen or is going to see, that of the branch with
index `i` is the first. -/
def Heads (w : World) (g : Group) (steps : List Step) (i : Nat) (e : ActionError) : Prop :=
  g.firstFailure = some (.action e) ∨
    (g.firstFailure = none ∧ ∃ front back, g.woken = front ++ i :: back ∧
      ∀ j ∈ front, ∀ s, steps[j]? = some s → s.isDone = false → ∃ u, s.answer? w = some (.ok u))

/-- A group of leaves that waits for all of them fails with the failure of its leading branch. -/
def Led (x : Scene) (g : Group) (steps : List Step) : Prop :=
  (∃ keys, g.kind = .parallel keys .settleAll) → (∀ s ∈ steps, s.isLeaf = true) →
    ∀ i slot a, steps[i]? = some (.leaf slot a) → x.lead a → x.sole a →
      ∃ e, x.world.settlement? a = some (.error e) ∧
        (g.stage = .running → g.Heads x.world steps i e) ∧
        ∀ o, g.stage = .finished o → o = .error (.action e)

/-- How a started parallel group stands to its branches. -/
structure Joins (x : Scene) (g : Group) (steps : List Step) : Prop where
  recorded : g.Recorded steps
  undecided : g.stage = .running → g.Undecided steps
  noted : g.stage = .running → g.tracksWakes steps.length = true → g.Noted x steps
  decided : ∀ o, g.stage = .finished o → g.Decided steps o
  led : g.Led x steps

/-- How a group that was launched with the input `v` can stand.  The last two parameters say how the
steps of a started sequence and the branches of a started parallel group stand. -/
structure Runs (x : Scene) (place : List Nat) (v : Json) (g : Group) (steps : List Step)
    (inOrder together : Prop) : Prop where
  fits : g.kind.Fits steps.length
  alert : g.Alert x (.group x.playlist place) steps
  created : g.stage ≠ .created
  expired : g.stage ≠ .expired
  triggered : ∀ input, g.stage = .triggered input →
    input = v ∧ g.firstFailure = none ∧ ∀ s ∈ steps, s.Untouched x
  inOrder : g.stage.isStarted = true → g.kind = .sequence → inOrder
  together : g.stage.isStarted = true → g.kind ≠ .sequence → together
  joins : g.stage.isStarted = true → g.kind ≠ .sequence → g.Joins x steps

end Group

namespace Step

mutual

/-- The step at `place` was launched with the input `v` and stands as it can stand. -/
def Entered (x : Scene) : List Nat → Json → Step → Prop
  | _, v, leaf slot a => slot.Sound x v a
  | place, v, .group _ g steps =>
    g.Runs x place v steps (EnteredInOrder x place 0 v g.stage.outcome? steps)
      (EnteredAll x place 0 v steps)

/-- The steps of a started sequence, from the one with the given index on, which gets the input `v`.
`o` is the outcome of the sequence. -/
def EnteredInOrder (x : Scene) : List Nat → Nat → Json → Option Outcome → List Step → Prop
  | _, _, v, o, [] => o = some (.ok v)
  | place, index, v, o, s :: rest => Entered x (place ++ [index]) v s ∧ s.Tied ∧
    match s.taken? with
    | none => o = none ∧ ∀ t ∈ rest, t.Untouched x
    | some (.error e) => o = some (.error e) ∧ ∀ t ∈ rest, t.Untouched x
    | some (.ok u) => EnteredInOrder x place (index + 1) u o rest

/-- The branches of a started parallel group, from the one with the given index on. -/
def EnteredAll (x : Scene) : List Nat → Nat → Json → List Step → Prop
  | _, _, _, [] => True
  | place, index, v, s :: rest =>
    (Entered x (place ++ [index]) v s ∧ s.Tied) ∧ EnteredAll x place (index + 1) v rest

end

theorem freshList_iff {steps : List Step} : FreshList steps ↔ ∀ s ∈ steps, s.Fresh := by
  induction steps with
  | nil => simp [FreshList]
  | cons s rest ih => rw [FreshList, ih, List.forall_mem_cons]

theorem enteredAll_iff {x : Scene} {place : List Nat} {v : Json} {steps : List Step} {index : Nat} :
    EnteredAll x place index v steps ↔ ∀ (i : Nat) (s : Step), steps[i]? = some s →
      s.Entered x (place ++ [index + i]) v ∧ s.Tied := by
  induction steps generalizing index with
  | nil => simp [EnteredAll]
  | cons s rest ih =>
    rw [EnteredAll, ih]
    constructor
    · rintro ⟨hs, hrest⟩ i t hi
      cases i with
      | zero =>
        cases hi
        exact hs
      | succ i => simpa only [Nat.add_right_comm, Nat.add_assoc] using hrest i t hi
    · intro h
      refine ⟨h 0 s rfl, ?_⟩
      intro i t hi
      simpa only [Nat.add_right_comm, Nat.add_assoc] using h (i + 1) t hi

theorem Quiet.answer?_eq {w : World} {s : Step} (h : s.Quiet w) : s.answer? w = none := by
  cases s with
  | leaf slot a => exact h.1
  | group slot g steps => exact h.1

theorem isAwaited_eq_false_of_isDone {s : Step} (h : s.isDone = true) : s.isAwaited = false := by
  unfold isDone at h
  unfold isAwaited
  cases hs : s.slot <;> simp_all

theorem taken?_eq_none_iff {s : Step} : s.taken? = none ↔ s.isDone = false := by
  unfold taken? isDone
  cases s.slot <;> simp

theorem Fresh.slot_eq {s : Step} (h : s.Fresh) : s.slot = .idle := by
  cases s with
  | leaf slot a => exact h
  | group slot g steps => exact h.1

theorem Fresh.isAwaited_eq {s : Step} (h : s.Fresh) : s.isAwaited = false := by
  rw [isAwaited, h.slot_eq]

end Step

/-! ## Scenes that follow one another -/

/-- `y` comes after `x`, and what happened in between touched neither the given actions nor the
groups at `place` and below. -/
structure Scene.Follows (place : List Nat) (actions : List ActionId) (x y : Scene) : Prop where
  playlist : y.playlist = x.playlist
  due : ∀ below, x.due (.group x.playlist (place ++ below)) →
    y.due (.group x.playlist (place ++ below))
  sole : ∀ a ∈ actions, y.sole a → x.sole a
  lead : ∀ a, y.lead a → x.lead a
  began : ∀ a v, x.world.Began a v → y.world.Began a v
  started : ∀ a, x.world.started? a = some true → y.world.started? a = some true
  settled : ∀ a s, x.world.settlement? a = some s → y.world.settlement? a = some s
  quiet : ∀ a ∈ actions, x.world.started? a = some true →
    y.world.settlement? a = x.world.settlement? a
  unbegun : ∀ a ∈ actions, y.sole a → x.world.started? a = some false →
    y.world.started? a = some false

namespace Scene.Follows

variable {place : List Nat} {actions actions' : List ActionId} {x y : Scene}

theorem mono (h : Follows place actions x y) (hsub : actions' ⊆ actions) :
    Follows place actions' x y :=
  { h with
    sole := fun a ha => h.sole a (hsub ha)
    quiet := fun a ha => h.quiet a (hsub ha)
    unbegun := fun a ha => h.unbegun a (hsub ha) }

theorem below (h : Follows place actions x y) (index : Nat) (hsub : actions' ⊆ actions) :
    Follows (place ++ [index]) actions' x y :=
  { h.mono hsub with
    due := by
      intro rest hd
      rw [List.append_assoc] at hd ⊢
      exact h.due _ hd }

theorem own (h : Follows place actions x y) (hd : x.due (.group x.playlist place)) :
    y.due (.group y.playlist place) := by
  have := h.due [] (by rwa [List.append_nil])
  rwa [List.append_nil, ← h.playlist] at this

end Scene.Follows

namespace Step

variable {place : List Nat} {x y : Scene}

theorem answer?_mono {w w' : World}
    (h : ∀ a s, w.settlement? a = some s → w'.settlement? a = some s) {s : Step} {o : Outcome}
    (ha : s.answer? w = some o) : s.answer? w' = some o := by
  cases s with
  | group slot g steps => exact ha
  | leaf slot a =>
    cases slot with
    | refused e => exact ha
    | idle | waiting | done =>
      obtain ⟨s, hs, rfl⟩ := Option.map_eq_some_iff.1 ha
      exact Option.map_eq_some_iff.2 ⟨s, h a s hs, rfl⟩

theorem Quiet.mono {s : Step} (h : s.Quiet x.world) (hf : Scene.Follows place s.leaves x y) :
    s.Quiet y.world := by
  cases s with
  | group slot g steps => exact h
  | leaf slot a =>
    obtain ⟨hout, hs⟩ := h
    have heq := hf.quiet a (List.mem_singleton.2 rfl) hs
    refine ⟨?_, ?_⟩
    · cases slot with
      | refused e => exact hout
      | idle | waiting | done => simpa only [leafOutcome, heq] using hout
    · exact hf.started a hs

theorem Untouched.mono {s : Step} (h : s.Untouched x)
    (hf : Scene.Follows place s.leaves x y) : s.Untouched y :=
  ⟨h.1, fun a ha hy =>
    have ⟨hs, hl⟩ := h.2 a ha (hf.sole a ha hy)
    ⟨hf.unbegun a ha hy hs, fun hn => hl (hf.lead a hn)⟩⟩

theorem Untouched.child {slot : Slot} {g : Group} {steps : List Step}
    (h : (Step.group slot g steps).Untouched x) : ∀ s ∈ steps, s.Untouched x := by
  obtain ⟨⟨-, -, -, -, hfresh⟩, hu⟩ := h
  exact fun s hs => ⟨freshList_iff.1 hfresh s hs, fun a ha => hu a (leaves_subset hs ha)⟩

end Step

theorem Slot.Sound.mono {x y : Scene} {a : ActionId} {v : Json} {slot : Slot}
    (h : slot.Sound x v a) (hsole : y.sole a → x.sole a)
    (hbegan : x.world.Began a v → y.world.Began a v)
    (hsettled : ∀ s, x.world.settlement? a = some s → y.world.settlement? a = some s) :
    slot.Sound y v a := by
  cases slot with
  | idle => exact h
  | waiting => exact hbegan h
  | refused e => exact ⟨h.1, fun hy => h.2 (hsole hy)⟩
  | done o =>
    rcases h with ⟨hb, s, hs, ho⟩ | ⟨ho, hn⟩
    · exact .inl ⟨hbegan hb, s, hsettled s hs, ho⟩
    · exact .inr ⟨ho, fun hy => hn (hsole hy)⟩

namespace Group

variable {x y : Scene} {place : List Nat} {g : Group} {steps : List Step}

theorem Alert.mono (h : g.Alert x (.group x.playlist place) steps)
    (hf : Scene.Follows place (Step.leavesList steps) x y) :
    g.Alert y (.group y.playlist place) steps := by
  unfold Alert at h ⊢
  cases hs : g.stage with
  | triggered input =>
    simp only [hs] at h ⊢
    exact hf.own h
  | running =>
    simp only [hs] at h ⊢
    rcases h with h | ⟨ht, hw, hq⟩
    · exact .inl (hf.own h)
    · exact .inr ⟨ht, hw, fun s hm ha => (hq s hm ha).mono (hf.below 0 (Step.leaves_subset hm))⟩
  | created | expired | finished o => trivial

theorem Heads.mono {w w' : World} {i : Nat} {e : ActionError} (h : g.Heads w steps i e)
    (hset : ∀ a s, w.settlement? a = some s → w'.settlement? a = some s) :
    g.Heads w' steps i e := by
  rcases h with h | ⟨h, front, back, hw, hfront⟩
  · exact .inl h
  · refine .inr ⟨h, front, back, hw, ?_⟩
    intro j hj s hs hd
    obtain ⟨u, hu⟩ := hfront j hj s hs hd
    exact ⟨u, Step.answer?_mono hset hu⟩

theorem Joins.mono (h : g.Joins x steps) (hf : Scene.Follows place (Step.leavesList steps) x y) :
    g.Joins y steps where
  recorded := h.recorded
  undecided := h.undecided
  noted hs ht := by
    obtain ⟨hn, hq, hr⟩ := h.noted hs ht
    refine ⟨hn, ?_, ?_⟩
    · intro i s hi hd
      rcases hq i s hi hd with hm | hq
      · exact .inl hm
      · exact .inr (hq.mono (hf.below i (Step.leaves_subset (List.mem_of_getElem? hi))))
    · intro hl i hi s hs hd hnone
      obtain ⟨o, ho⟩ := Option.ne_none_iff_exists'.1 (hr hl i hi s hs hd)
      rw [Step.answer?_mono hf.settled ho] at hnone
      cases hnone
  decided := h.decided
  led hk hl i slot a hi hlead hsole := by
    have ha : a ∈ Step.leavesList steps :=
      Step.leaves_subset (List.mem_of_getElem? hi) (List.mem_singleton.2 rfl)
    obtain ⟨e, he, hrun, hfin⟩ := h.led hk hl i slot a hi (hf.lead a hlead) (hf.sole a ha hsole)
    exact ⟨e, hf.settled a _ he, fun hs => (hrun hs).mono hf.settled, hfin⟩

/-- Who awaits the group does not matter to its branches. -/
theorem Joins.withWaiters (h : g.Joins x steps) (waiters : List Waiter) :
    { g with waiters := waiters }.Joins x steps where
  recorded := ⟨h.recorded.took, h.recorded.keeps⟩
  undecided hs := ⟨(h.undecided hs).verdict, (h.undecided hs).fine⟩
  noted hs ht := ⟨(h.noted hs ht).nodup, (h.noted hs ht).noted, (h.noted hs ht).ready⟩
  decided := h.decided
  led := h.led

theorem Runs.mono {v : Json} {p q p' q' : Prop} (h : g.Runs x place v steps p q)
    (hf : Scene.Follows place (Step.leavesList steps) x y) (hp : p → p') (hq : q → q') :
    g.Runs y place v steps p' q' where
  fits := h.fits
  alert := h.alert.mono hf
  created := h.created
  expired := h.expired
  triggered input hs := by
    obtain ⟨hv, hfail, hu⟩ := h.triggered input hs
    exact ⟨hv, hfail, fun s hm => (hu s hm).mono (hf.below 0 (Step.leaves_subset hm))⟩
  inOrder hs hk := hp (h.inOrder hs hk)
  together hs hk := hq (h.together hs hk)
  joins hs hk := (h.joins hs hk).mono hf

end Group

namespace Step

variable {x y : Scene}

theorem EnteredInOrder.imp {place : List Nat} {steps : List Step} {index : Nat} {v : Json}
    {o : Option Outcome} (h : EnteredInOrder x place index v o steps)
    (hentered : ∀ (i : Nat) (s : Step), steps[i]? = some s → ∀ v,
      s.Entered x (place ++ [index + i]) v → s.Entered y (place ++ [index + i]) v)
    (huntouched : ∀ s ∈ steps, s.Untouched x → s.Untouched y) :
    EnteredInOrder y place index v o steps := by
  induction steps generalizing index v with
  | nil => exact h
  | cons s rest ih =>
    obtain ⟨hs, htied, htaken⟩ := h
    have hrest (hu : ∀ t ∈ rest, t.Untouched x) : ∀ t ∈ rest, t.Untouched y := fun t ht =>
      huntouched t (List.mem_cons_of_mem _ ht) (hu t ht)
    refine ⟨hentered 0 s rfl v hs, htied, ?_⟩
    split at htaken
    · exact ⟨htaken.1, hrest htaken.2⟩
    · exact ⟨htaken.1, hrest htaken.2⟩
    · refine ih htaken ?_ fun t ht => huntouched t (List.mem_cons_of_mem _ ht)
      intro i t hi v ht
      rw [Nat.add_assoc, Nat.add_comm 1 i] at ht ⊢
      exact hentered (i + 1) t hi v ht

section

variable {place : List Nat} {steps : List Step}
  (ih : ∀ s ∈ steps, ∀ {place : List Nat} {v : Json}, s.Entered x place v →
    Scene.Follows place s.leaves x y → s.Entered y place v)
  (hf : ∀ index, Scene.Follows (place ++ [index]) (leavesList steps) x y)

include ih hf

theorem enteredInOrder_mono {index : Nat} {v : Json} {o : Option Outcome}
    (h : EnteredInOrder x place index v o steps) : EnteredInOrder y place index v o steps :=
  h.imp
    (fun _ s hi _ hs =>
      have hm := List.mem_of_getElem? hi
      ih s hm hs ((hf _).mono (leaves_subset hm)))
    fun _ hm hu => hu.mono ((hf 0).mono (leaves_subset hm))

theorem enteredAll_mono {index : Nat} {v : Json} (h : EnteredAll x place index v steps) :
    EnteredAll y place index v steps := by
  rw [enteredAll_iff] at h ⊢
  intro i s hi
  have hm := List.mem_of_getElem? hi
  exact ⟨ih s hm (h i s hi).1 ((hf _).mono (leaves_subset hm)), (h i s hi).2⟩

end

/-- The invariant survives what does not concern the step. -/
theorem Entered.mono {s : Step} {place : List Nat} {v : Json} (h : s.Entered x place v)
    (hf : Scene.Follows place s.leaves x y) : s.Entered y place v := by
  induction s using induction generalizing place v with
  | leaf slot a =>
    exact Slot.Sound.mono h (hf.sole a (List.mem_singleton.2 rfl)) (hf.began a v) (hf.settled a)
  | group slot g steps ih =>
    have hbelow (index : Nat) := hf.below index (List.Subset.refl (leavesList steps))
    exact Group.Runs.mono h hf (enteredInOrder_mono (fun s hs => ih s hs) hbelow)
      (enteredAll_mono (fun s hs => ih s hs) hbelow)

/-- Who looks at a group in time does not matter to its steps. -/
theorem Entered.of_below {slot : Slot} {g : Group} {steps : List Step} {place : List Nat} {v : Json}
    (h : (Step.group slot g steps).Entered x place v)
    (hf : ∀ index, Scene.Follows (place ++ [index]) (leavesList steps) x y)
    (ha : g.Alert y (.group y.playlist place) steps) :
    (Step.group slot g steps).Entered y place v := by
  have hr : g.Runs x place v steps _ _ := h
  refine ⟨hr.fits, ha, hr.created, hr.expired, ?_,
    fun hs hk => enteredInOrder_mono (fun _ _ _ _ h hf => h.mono hf) hf (hr.inOrder hs hk),
    fun hs hk => enteredAll_mono (fun _ _ _ _ h hf => h.mono hf) hf (hr.together hs hk),
    fun hs hk => (hr.joins hs hk).mono (hf 0)⟩
  intro input hs
  obtain ⟨hv, hfail, hu⟩ := hr.triggered input hs
  exact ⟨hv, hfail, fun s hm => (hu s hm).mono ((hf 0).mono (leaves_subset hm))⟩

/-! ## Taking an outcome and forgetting a step -/

variable {place : List Nat} {v : Json} {s : Step}

/-- The group around the step takes its outcome. -/
theorem Entered.take {o : Outcome} (h : s.Entered x place v) (ha : s.answer? x.world = some o)
    (hd : s.isDone = false) : (s.withSlot (.done o)).Entered x place v := by
  cases s with
  | group slot g steps => exact h
  | leaf slot a =>
    cases slot with
    | idle => exact h.elim
    | waiting =>
      obtain ⟨s, hs, ho⟩ := Option.map_eq_some_iff.1 ha
      exact .inl ⟨h, s, hs, ho.symm⟩
    | refused e =>
      cases ha
      obtain ⟨rfl, hn⟩ := h
      exact .inr ⟨rfl, hn⟩
    | done o => cases hd

theorem Entered.tied_take {o : Outcome} (h : s.Entered x place v)
    (ha : s.answer? x.world = some o) : (s.withSlot (.done o)).Tied := by
  cases s with
  | leaf slot a => trivial
  | group slot g steps =>
    refine .inr ⟨o, rfl, ?_⟩
    have hne := Group.Runs.expired h
    simp only [answer?, Stage.outcome?] at ha
    cases hs : g.stage with
    | finished o' => simpa [hs] using ha
    | expired => exact absurd hs hne
    | created | triggered | running => simp [hs] at ha

/-- The group around the step stops awaiting it. -/
theorem Entered.forgotten (h : s.Entered x place v) : s.forgotten.Entered x place v := by
  cases s with
  | leaf slot a => exact h
  | group slot g steps =>
    have hr : g.Runs x place v steps _ _ := h
    refine ⟨hr.fits, ?_, hr.created, hr.expired, hr.triggered, hr.inOrder, hr.together,
      fun hs hk => (hr.joins hs hk).withWaiters _⟩
    have halert := hr.alert
    unfold Group.Alert at halert ⊢
    cases hs : g.stage with
    | running =>
      simp only [hs] at halert ⊢
      rcases halert with hd | ⟨ht, hw, hq⟩
      · exact .inl hd
      · exact .inr ⟨List.mem_filter.2 ⟨ht, rfl⟩, hw, hq⟩
    | triggered input => simpa only [hs] using halert
    | created | expired | finished o => trivial

end Step

end Rundown
