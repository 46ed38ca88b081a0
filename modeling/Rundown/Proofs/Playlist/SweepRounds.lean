import Rundown.Playlist.Poll

/-!
# The rounds of a sweep

A parallel group that keeps track of wakes takes one branch after the other from its queue.
`Group.Rounds` has a case for each way in which such a round can go; these are the rounds of the
loop and no others (`Group.driveWoken_rounds`, `Group.Rounds.eq`).  What is true of the loop is
proved by induction on its rounds.
-/

namespace Rundown

namespace Group

variable {g : Group} {j : Nat} {rest : List Nat} {woken : Bool}

@[simp] theorem enqueue_kind : (g.enqueue j).kind = g.kind := by
  unfold enqueue
  split <;> rfl

@[simp] theorem enqueue_stage : (g.enqueue j).stage = g.stage := by
  unfold enqueue
  split <;> rfl

@[simp] theorem enqueue_firstFailure : (g.enqueue j).firstFailure = g.firstFailure := by
  unfold enqueue
  split <;> rfl

theorem length_enqueue_le (g : Group) (j : Nat) :
    (g.enqueue j).woken.length ≤ g.woken.length + 1 := by
  unfold enqueue
  split <;> simp

/-- The group without the first branch in its queue, which is queued again if it was woken while it
was looked at. -/
def requeued (g : Group) (j : Nat) (rest : List Nat) (woken : Bool) : Group :=
  if woken then ({ g with woken := rest } : Group).enqueue j else { g with woken := rest }

@[simp] theorem requeued_kind : (g.requeued j rest woken).kind = g.kind := by
  unfold requeued
  split <;> simp

@[simp] theorem requeued_stage : (g.requeued j rest woken).stage = g.stage := by
  unfold requeued
  split <;> simp

@[simp] theorem requeued_firstFailure :
    (g.requeued j rest woken).firstFailure = g.firstFailure := by
  unfold requeued
  split <;> simp

theorem length_requeued_le (g : Group) (j : Nat) (rest : List Nat) (woken : Bool) :
    (g.requeued j rest woken).woken.length ≤ rest.length ∨
      (woken = true ∧ (g.requeued j rest woken).woken.length ≤ rest.length + 1) := by
  cases woken with
  | false => exact .inl (Nat.le_refl _)
  | true => exact .inr ⟨rfl, length_enqueue_le _ j⟩

/-- A branch that was taken from a queue without repetitions is not in it any more. -/
theorem requeued_eq (hj : j ∉ rest) (g : Group) (woken : Bool) :
    g.requeued j rest woken = { g with woken := rest ++ if woken then [j] else [] } := by
  cases woken with
  | false => simp [requeued]
  | true => simp [requeued, enqueue, hj]

end Group

namespace Drive

/-- A branch has been looked at and has no outcome yet. -/
def passing (d : Drive) (j : Nat) (rest : List Nat) (p : Polled) : Drive :=
  ⟨d.group.requeued j rest p.signalled, d.steps.set j p.step, p.world, none,
    d.signalled || p.signalled⟩

/-- A branch has been looked at and its outcome taken. -/
def taking (d : Drive) (j : Nat) (rest : List Nat) (p : Polled) (o : Outcome) : Drive :=
  ⟨(d.group.requeued j rest p.signalled).note o, d.steps.set j (p.step.withSlot (.done o)), p.world,
    none, d.signalled || p.signalled⟩

end Drive

namespace Group

/-- The first branch in the queue is still open, and `p` is what a look at it leaves behind. -/
structure Turn (look : Look) (d : Drive) (j : Nat) (rest : List Nat) (s : Step) (p : Polled) :
    Prop where
  woken : d.group.woken = j :: rest
  step : d.steps[j]? = some s
  undone : s.isDone = false
  looked : look j s d.world = p

/-- The rounds that make `d'` of `d`: at most `fuel` of them, with `live` branches open, of which
`looked` were looked at since the last outcome, `again` of them woken meanwhile. -/
inductive Rounds (look : Look) (tasks : List Task) :
    (fuel live looked again : Nat) → Drive → Drive → Prop where
  | exhausted {live looked again : Nat} {d : Drive} : Rounds look tasks 0 live looked again d d
  | idle {fuel live looked again : Nat} {d : Drive} (hwoken : d.group.woken = []) :
      Rounds look tasks (fuel + 1) live looked again d d
  | stale {fuel live looked again j : Nat} {rest : List Nat} {d d' : Drive}
      (hwoken : d.group.woken = j :: rest)
      (hdone : ∀ s, d.steps[j]? = some s → s.isDone = true)
      (h : Rounds look tasks fuel live looked again
        { d with group := { d.group with woken := rest } } d') :
      Rounds look tasks (fuel + 1) live looked again d d'
  | pauses {fuel live looked again j : Nat} {rest : List Nat} {d : Drive} {s : Step} {p : Polled}
      (ht : Turn look d j rest s p) (ho : p.outcome = none)
      (hstop : 2 ≤ (if p.signalled then again + 1 else again) ∨ looked + 1 = live) :
      Rounds look tasks (fuel + 1) live looked again d
        { d.passing j rest p with world := p.world.scheduleAll tasks, signalled := true }
  | passes {fuel live looked again j : Nat} {rest : List Nat} {d d' : Drive} {s : Step} {p : Polled}
      (ht : Turn look d j rest s p) (ho : p.outcome = none)
      (hgo : ¬(2 ≤ (if p.signalled then again + 1 else again) ∨ looked + 1 = live))
      (h : Rounds look tasks fuel live (looked + 1) (if p.signalled then again + 1 else again)
        (d.passing j rest p) d') :
      Rounds look tasks (fuel + 1) live looked again d d'
  | decides {fuel live looked again j : Nat} {rest : List Nat} {d : Drive} {s : Step} {p : Polled}
      {o verdict : Outcome} (ht : Turn look d j rest s p) (ho : p.outcome = some o)
      (hv : (d.taking j rest p o).group.verdict (d.taking j rest p o).steps = some verdict) :
      Rounds look tasks (fuel + 1) live looked again d
        { d.taking j rest p o with outcome := some verdict }
  | takes {fuel live looked again j : Nat} {rest : List Nat} {d d' : Drive} {s : Step} {p : Polled}
      {o : Outcome} (ht : Turn look d j rest s p) (ho : p.outcome = some o)
      (hv : (d.taking j rest p o).group.verdict (d.taking j rest p o).steps = none)
      (h : Rounds look tasks fuel (live - 1) 0 0 (d.taking j rest p o) d') :
      Rounds look tasks (fuel + 1) live looked again d d'

theorem driveWoken_rounds (look : Look) (tasks : List Task) (fuel live looked again : Nat)
    (d : Drive) : Rounds look tasks fuel live looked again d
      (driveWoken look tasks fuel live looked again d) := by
  induction fuel generalizing live looked again d with
  | zero => exact .exhausted
  | succ fuel ih =>
    unfold driveWoken
    cases hwoken : d.group.woken with
    | nil => exact .idle hwoken
    | cons j rest =>
      dsimp only
      cases hs : d.steps[j]? with
      | none => exact .stale hwoken (by simp [hs]) (ih ..)
      | some s =>
        dsimp only
        cases hdone : s.isDone with
        | true => exact .stale hwoken (by simp [hs, hdone]) (ih ..)
        | false =>
          have ht : Turn look d j rest s (look j s d.world) := ⟨hwoken, hs, hdone, rfl⟩
          simp only [Bool.false_eq_true, if_false]
          cases ho : (look j s d.world).outcome with
          | none =>
            dsimp only
            by_cases hstop : 2 ≤ (if (look j s d.world).signalled then again + 1 else again) ∨
                looked + 1 = live
            · rw [if_pos hstop]
              exact .pauses ht ho hstop
            · rw [if_neg hstop]
              exact .passes ht ho hstop (ih ..)
          | some o =>
            dsimp only
            split
            next hv => exact .decides ht ho hv
            next hv => exact .takes ht ho hv (ih ..)

/-- The loop makes no other rounds. -/
theorem Rounds.eq {look : Look} {tasks : List Task} {fuel live looked again : Nat} {d d' : Drive}
    (h : Rounds look tasks fuel live looked again d d') :
    driveWoken look tasks fuel live looked again d = d' := by
  induction h with
  | exhausted => rfl
  | @idle _ _ _ _ d hwoken => simp only [driveWoken, hwoken]
  | @stale _ _ _ _ j _ d _ hwoken hdone _ ih =>
    simp only [driveWoken, hwoken]
    split
    · exact ih
    next s hs =>
      rw [if_pos (hdone s hs)]
      exact ih
  | pauses ht ho hstop =>
    simp only [driveWoken, ht.woken, ht.step, ht.undone, ht.looked, ho, if_pos hstop]
    rfl
  | passes ht ho hgo _ ih =>
    simp only [driveWoken, ht.woken, ht.step, ht.undone, ht.looked, ho, if_neg hgo]
    exact ih
  | decides ht ho hv =>
    simp only [Drive.taking, requeued] at hv
    simp only [driveWoken, ht.woken, ht.step, ht.undone, ht.looked, ho, hv]
    rfl
  | takes ht ho hv _ ih =>
    simp only [Drive.taking, requeued] at hv
    simp only [driveWoken, ht.woken, ht.step, ht.undone, ht.looked, ho, hv]
    exact ih

end Group

end Rundown
