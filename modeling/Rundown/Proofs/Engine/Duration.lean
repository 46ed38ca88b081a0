import Rundown.Proofs.Engine.BranchOrder
import Rundown.Proofs.Engine.Undisturbed
import Rundown.Proofs.Members
import Rundown.Proofs.Plan.Timetable

/-!
# How long a tree of waits takes

A playlist whose leaves are all waits is played in an engine that nobody disturbs.  Its leaves begin
as the timetable of its plan says, and it ends with a value when the time of its plan is up
(`Production.duration_spec`).

The invariant is `Engine.OnSchedule`: what has begun did so when it was due, and what has not is not
overdue.  Running a task keeps it, since a leaf begins only when the leaves before it have had their
time (`OnSchedule.next`).  The clock keeps it, since a leaf that is still missing at rest waits for
another that is running, and the clock does not pass the end of that one (`OnSchedule.moveClock`).
-/

namespace Rundown

theorem Duration.timerMillis_ofMillis {ms : Nat} (h : (ofMillis ms).seconds < Nat.pow 2 63) :
    (ofMillis ms).timerMillis = ms := by
  rw [timerMillis, if_pos h]
  simp only [ceilMillis, ofMillis, nanosPerMilli]
  omega

namespace World

variable {w : World} {a : ActionId} {ms : Nat}

/-- The action is a wait of so many milliseconds, not too many for the clock to count. -/
def Waits (w : World) (a : ActionId) (ms : Nat) : Prop :=
  (∃ result, w.actions[a]? = some (.wait (.ofMillis ms) result)) ∧
    (Duration.ofMillis ms).seconds < Nat.pow 2 63

theorem Waits.effects (h : w.Waits a ms) (v : Json) :
    ∃ value, w.effects (a, v) = [.completeAfter (.ofMillis ms) value] := by
  obtain ⟨⟨result, ha⟩, -⟩ := h
  exact ⟨result.getD v, by rw [World.effects, ha]; rfl⟩

theorem Waits.congr {w' : World} (h : w.Waits a ms) (hactions : w'.actions = w.actions) :
    w'.Waits a ms := by
  rwa [Waits, hactions]

end World

namespace Engine

open Step

variable {e e' f : Engine} {id : PlaylistId} {input : Json} {plan : Plan}
  {time since : ActionId → Nat} {start now limit t s : Nat} {a : ActionId} {u : Json}

/-! ## A playlist among others -/

/-- The playlist with the given number has been played with the input and is to carry out the plan,
and it shares none of its leaves with anybody. -/
structure Performing (id : PlaylistId) (input : Json) (plan : Plan) (e : Engine) : Prop where
  root : ∃ p, e.playlists[id]? = some p ∧ p.root.isLeaf = false ∧ p.root.plan = plan ∧
    p.root.leaves = plan.leaves ∧ p.root.Entered (e.scene (fun _ => False) id) [] input
  sole : ∀ a ∈ plan.leaves, (e.scene (fun _ => False) id).sole a

theorem Performing.turn (h : Performing id input plan e) (hturns : Turns (fun _ => False) e e')
    (hlength : e'.playlists.length = e.playlists.length) : Performing id input plan e' := by
  obtain ⟨p, hp, hgroup, hplan, hleaves, hentered⟩ := h.root
  obtain ⟨p', hp', hb⟩ := hturns.each id p hp
  refine ⟨⟨p', hp', (isLeaf_congr hb.reset).trans hgroup, (plan_congr hb.reset).trans hplan,
    (leaves_congr hb.reset).trans hleaves, hb.entered input hentered⟩, fun a ha => ?_⟩
  show e'.leaves.count a ≤ 1
  rw [leaves_of_each hlength fun id p hp =>
    (hturns.each id p hp).imp fun _ h => ⟨h.1, h.2.reset⟩]
  exact h.sole a ha

section

variable (h : Performing id input plan e)

include h

/-- At any time the leaves of the playlist have begun only as the plan says. -/
theorem Performing.planned (hlogged : e.world.Logged) {b : ActionId × Json}
    (hb : b ∈ e.world.begun) (ha : b.1 ∈ plan.leaves) :
    b ∈ plan.begins e.world.settlement? input := by
  obtain ⟨p, -, -, hplan, hleaves, hentered⟩ := h.root
  rw [← hplan]
  exact hentered.planned hlogged (hleaves ▸ h.sole) b hb (hleaves ▸ ha)

/-- At rest they have begun exactly as the plan says. -/
theorem Performing.begun_of_begins (hsound : Sound (fun _ => False) e) (hquiet : e.Quiescent)
    {b : ActionId × Json} (hb : b ∈ plan.begins e.world.settlement? input) :
    b ∈ e.world.begun := by
  obtain ⟨p, -, -, hplan, hleaves, hentered⟩ := h.root
  rw [← hplan] at hb
  exact ((hentered.begins (hsound.atRest hquiet id) hsound.logged (hleaves ▸ h.sole) b).2 hb).1

theorem Performing.outcome?_eq : ∃ root : Step, root.plan = plan ∧ root.leaves = plan.leaves ∧
    root.Entered (e.scene (fun _ => False) id) [] input ∧
      e.outcome? id = root.answer? e.world := by
  obtain ⟨p, hp, hgroup, hplan, hleaves, hentered⟩ := h.root
  refine ⟨p.root, hplan, hleaves, hentered, ?_⟩
  rw [outcome?, hp, Option.bind_some, Playlist.stage]
  cases hr : p.root with
  | leaf slot a =>
    rw [hr] at hgroup
    cases hgroup
  | group slot g steps => rfl

/-- A playlist that has ended with a value has ended with that of its plan. -/
theorem Performing.value?_of_outcome? (ho : e.outcome? id = some (.ok u)) :
    plan.value? e.world.settlement? input = some u := by
  obtain ⟨root, hplan, hleaves, hentered, heq⟩ := h.outcome?_eq
  rw [heq] at ho
  rw [← hplan]
  exact hentered.value?_of_answer? (hleaves ▸ h.sole) ho

/-- At rest a playlist whose plan has a value has ended. -/
theorem Performing.outcome?_of_value? (hsound : Sound (fun _ => False) e) (hquiet : e.Quiescent)
    (hu : plan.value? e.world.settlement? input = some u) : e.outcome? id = some (.ok u) := by
  obtain ⟨root, hplan, hleaves, hentered, heq⟩ := h.outcome?_eq
  rw [heq]
  rw [← hplan] at hu
  exact hentered.answer?_of_value? (hsound.atRest hquiet id) (hleaves ▸ h.sole) hu

end

/-! ## The invariant -/

/-- The playlist was played at `start`, its leaves `a` are waits of `time a`, and so far they have
begun as its timetable says. -/
structure OnSchedule (id : PlaylistId) (input : Json) (plan : Plan) (time : ActionId → Nat)
    (start : Nat) (since : ActionId → Nat) (e : Engine) : Prop
    extends Tended since e, Performing id input plan e where
  waits : ∀ a ∈ plan.leaves, e.world.Waits a (time a)
  nodup : plan.leaves.Nodup
  played : start ≤ e.world.clock
  begun : ∀ a s, (a, s) ∈ plan.timetable time start → e.world.started? a = some true →
    since a = s ∧ s ≤ e.world.clock
  unbegun : ∀ a s, (a, s) ∈ plan.timetable time start → e.world.started? a ≠ some true →
    e.world.clock ≤ s

namespace OnSchedule

theorem leaf_of_timetable (h : (a, s) ∈ plan.timetable time start) : a ∈ plan.leaves := by
  rw [← plan.keys_timetable start]
  exact List.mem_map_of_mem h

section

variable (h : OnSchedule id input plan time start since e)

include h

theorem time_unique {s' : Nat} (hs : (a, s) ∈ plan.timetable time start)
    (hs' : (a, s') ∈ plan.timetable time start) : s = s' :=
  eq_of_key (plan.keys_timetable start ▸ h.nodup) hs hs'

/-- A leaf that has settled has done so with a value, and not before its time. -/
theorem settled {o : Settlement} (ha : a ∈ plan.leaves) (ho : e.world.settlement? a = some o) :
    e.world.started? a = some true ∧ since a + time a ≤ e.world.clock ∧ ∃ v, o = .ok v := by
  obtain ⟨v, hv⟩ := h.world.begun_of_settled ho
  obtain ⟨value, heffects⟩ := (h.waits a ha).effects v
  obtain ⟨rfl, hle⟩ := h.world.waits_settled hv heffects ho
  rw [Duration.timerMillis_ofMillis (h.waits a ha).2] at hle
  exact ⟨h.world.logged.started _ hv, hle, value, rfl⟩

theorem punctual :
    plan.timetable time start |> Plan.Punctual time e.world.settlement? e.world.clock := by
  intro a s hs _ hsettled
  obtain ⟨o, ho⟩ := Option.ne_none_iff_exists'.1 hsettled
  obtain ⟨hstarted, hle, -⟩ := h.settled (leaf_of_timetable hs) ho
  rwa [(h.begun a s hs hstarted).1] at hle

theorem unfailing : Plan.Unfailing e.world.settlement? plan.leaves := by
  intro a ha err herr
  obtain ⟨-, -, v, hv⟩ := h.settled ha herr
  cases hv

/-- A value is not there before the time of the plan is up. -/
theorem ends_of_value? (hu : plan.value? e.world.settlement? input = some u) :
    start + plan.duration time ≤ e.world.clock :=
  plan.duration_le_of_value? input u start h.punctual h.played hu

/-- At rest, whatever runs has a timer that has not run out. -/
theorem exists_deadline (hquiet : e.Quiescent)
    (hrunning : Plan.Running time e.world.settlement? (plan.begins e.world.settlement? input)
      (plan.timetable time start) limit) :
    ∃ d, e.world.nextDeadline = some d ∧ d ≤ limit := by
  obtain ⟨b, v, s, hb, hs, hnone, hle⟩ := hrunning
  have hbegun := h.begun_of_begins h.sound hquiet hb
  have hwaits := h.waits b (leaf_of_timetable hs)
  obtain ⟨value, heffects⟩ := hwaits.effects v
  have hmem := (h.world.mem_deadlines_iff (h.not_due hquiet)).2
    ⟨b, v, _, value, hbegun, heffects, hnone, rfl⟩
  rw [Duration.timerMillis_ofMillis hwaits.2,
    (h.begun b s hs (h.world.logged.started _ hbegun)).1] at hmem
  cases hd : e.world.nextDeadline with
  | none => exact absurd (List.min?_eq_none_iff.1 hd) (List.ne_nil_of_mem hmem)
  | some d => exact ⟨d, rfl, Nat.le_trans ((List.min?_eq_some_iff.1 hd).2 _ hmem) hle⟩

/-! ## What keeps it -/

/-- Running a task: a leaf that begins is due now. -/
theorem next (hn : e.next? = some e') : OnSchedule id input plan time start since e' := by
  obtain ⟨htended, hpasses⟩ := h.toTended.next hn
  obtain ⟨event, hevent⟩ := next?_eq_apply hn
  have hturns := (h.sound.apply event).2.toTurns
  rw [← hevent] at hturns
  have hperforming := h.toPerforming.turn hturns (next_length hn)
  have hnew (a : ActionId) (s : Nat) (hs : (a, s) ∈ plan.timetable time start)
      (ha : e.world.started? a ≠ some true) :
      since a = e'.world.clock ∧ e'.world.clock ≤ s := by
    rw [hpasses.clock]
    exact ⟨h.world.newcomers a ha, h.unbegun a s hs ha⟩
  have hpunctual : (plan.timetable time start |>
      Plan.Punctual time e'.world.settlement? e'.world.clock) := by
    intro a s hs hle hsettled
    obtain ⟨o, ho⟩ := Option.ne_none_iff_exists'.1 hsettled
    obtain ⟨v, hv⟩ := htended.world.begun_of_settled ho
    have hwaits := (h.waits a (leaf_of_timetable hs)).congr hpasses.actions
    obtain ⟨value, heffects⟩ := hwaits.effects v
    obtain ⟨-, hend⟩ := htended.world.waits_settled hv heffects ho
    rw [Duration.timerMillis_ofMillis hwaits.2] at hend
    have hsince : since a = s := by
      by_cases ha : e.world.started? a = some true
      · exact (h.begun a s hs ha).1
      · obtain ⟨hnow, hdue⟩ := hnew a s hs ha
        exact hnow.trans (Nat.le_antisymm hdue hle)
    rwa [hsince] at hend
  refine { htended, hperforming with
    waits := fun a ha => (h.waits a ha).congr hpasses.actions
    nodup := h.nodup
    played := hpasses.clock ▸ h.played
    begun := fun a s hs ha => ?_
    unbegun := fun a s hs ha => ?_ }
  · by_cases hold : e.world.started? a = some true
    · rw [hpasses.clock]
      exact h.begun a s hs hold
    · obtain ⟨v, hv⟩ := htended.world.listed a ha
      have hbegins := hperforming.planned htended.world.logged hv (leaf_of_timetable hs)
      have hplayed : start ≤ e'.world.clock := hpasses.clock ▸ h.played
      obtain ⟨s', hs', hle⟩ := plan.due_of_begins input v start hpunctual hplayed hbegins
      obtain rfl := h.time_unique hs hs'
      obtain ⟨hnow, hdue⟩ := hnew a s hs hold
      exact ⟨hnow.trans (Nat.le_antisymm hdue hle), hle⟩
  · rw [hpasses.clock]
    exact h.unbegun a s hs fun hold => ha (hturns.started a hold)

/-- The clock moves to the next deadline: a leaf that is still missing is not due before that. -/
theorem moveClock (hquiet : e.Quiescent) (hnow : e.world.nextDeadline = some now) :
    OnSchedule id input plan time start
      (fun a => if e.world.started? a = some true then since a else now)
      { e with world := e.world.moveClock now } := by
  have hlater := h.clock_lt_nextDeadline hquiet hnow
  have hq : World.Requeued { e.world with clock := now } (e.world.moveClock now) :=
    .enqueueAll _ _
  have hstarted (a : ActionId) : (e.world.moveClock now).started? a = e.world.started? a := by
    obtain ⟨_, _, _, _, hsame⟩ := hq
    rw [hsame]
    rfl
  have hclock : (e.world.moveClock now).clock = now := hq.clock
  refine { h.toTended.moveClock hquiet (Nat.le_of_lt hlater),
           h.toPerforming.turn (h.sound.apply (.moveClock now)).2.toTurns rfl with
    waits := fun a ha => (h.waits a ha).congr hq.actions
    nodup := h.nodup
    played := hclock.symm ▸ Nat.le_trans h.played (Nat.le_of_lt hlater)
    begun := fun a s hs ha => ?_
    unbegun := fun a s hs ha => ?_ }
  · have ha : e.world.started? a = some true := hstarted a ▸ ha
    obtain ⟨hsince, hle⟩ := h.begun a s hs ha
    show (if _ then _ else _) = s ∧ s ≤ (e.world.moveClock now).clock
    rw [if_pos ha, hclock]
    exact ⟨hsince, Nat.le_trans hle (Nat.le_of_lt hlater)⟩
  · show (e.world.moveClock now).clock ≤ s
    rw [hclock]
    rcases plan.begins_or_running input start h.unfailing hs with ⟨v, hv⟩ | hrunning
    · exact absurd ((hstarted a).trans (h.world.logged.started _
        (h.begun_of_begins h.sound hquiet hv))) ha
    · obtain ⟨d, hd, hle⟩ := h.exists_deadline hquiet hrunning
      rwa [hnow.symm.trans hd |> Option.some.inj]

end

end OnSchedule

/-! ## From one moment on -/

/-- The property holds from the time `t` on and not before: a task that runs when the clock shows
`t` brings it about. -/
def BecomesAt (e : Engine) (t : Nat) (P : Engine → Prop) : Prop :=
  ∃ n, (live n e).world.clock = t ∧ (live (n + 1) e).world.clock = t ∧
    (∀ m ≤ n, ¬P (live m e)) ∧ ∀ m, n < m → P (live m e)

/-- What stays once it holds comes about at the time before which it cannot hold and after which it
cannot be missing. -/
theorem becomesAt_of {P : Engine → Prop} (hfirst : ¬P e) (hlast : ∃ n, P (live n e))
    (hstays : ∀ n, P (live n e) → P (live (n + 1) e))
    (htask : ∀ n, ¬P (live n e) → P (live (n + 1) e) →
      (live (n + 1) e).world.clock = (live n e).world.clock)
    (hbefore : ∀ n, ¬P (live n e) → (live n e).world.clock ≤ t)
    (hafter : ∀ n, P (live n e) → t ≤ (live n e).world.clock) : e.BecomesAt t P := by
  classical
  obtain ⟨n, hn⟩ := Nat.exists_eq_succ_of_ne_zero (n := Nat.find hlast) fun hzero => by
    have hspec := Nat.find_spec hlast
    rw [hzero] at hspec
    exact hfirst hspec
  have hholds : P (live (n + 1) e) := by
    have hspec := Nat.find_spec hlast
    rwa [hn] at hspec
  have hnot (m : Nat) (hm : m ≤ n) : ¬P (live m e) :=
    Nat.find_min hlast (hn.symm ▸ Nat.lt_succ_of_le hm)
  have hsame := htask n (hnot n (Nat.le_refl n)) hholds
  have hclock : (live n e).world.clock = t :=
    Nat.le_antisymm (hbefore n (hnot n (Nat.le_refl n))) (hsame ▸ hafter (n + 1) hholds)
  refine ⟨n, hclock, hsame.trans hclock, hnot, fun m hm => ?_⟩
  induction m, hm using Nat.le_induction with
  | base => exact hholds
  | succ m _ ih => exact hstays m ih

namespace OnSchedule

section

variable (h : OnSchedule id input plan time start since e)

include h

theorem tick : ∃ since, OnSchedule id input plan time start since e.tick := by
  cases hn : e.next? with
  | some e' =>
    rw [tick_of_next hn]
    exact ⟨since, h.next hn⟩
  | none =>
    have hquiet := next?_eq_none_iff.1 hn
    cases hnow : e.world.nextDeadline with
    | none =>
      rw [tick_of_idle hquiet hnow]
      exact ⟨since, h⟩
    | some now =>
      rw [tick_of_deadline hquiet hnow]
      exact ⟨_, h.moveClock hquiet hnow⟩

theorem live (n : Nat) : ∃ since, OnSchedule id input plan time start since (live n e) := by
  induction n with
  | zero => exact ⟨since, h⟩
  | succ n ih =>
    obtain ⟨since, h⟩ := ih
    rw [live_succ]
    exact h.tick

theorem instant (hf : Instant e f) :
    OnSchedule id input plan time start since f ∧ f.world.clock = e.world.clock := by
  induction hf with
  | refl => exact ⟨h, rfl⟩
  | tail _ hn ih =>
    obtain ⟨h, hclock⟩ := ih
    exact ⟨h.next hn, (h.toTended.next hn).2.clock.trans hclock⟩

/-- A tick takes no time, or it is a move of the clock and nothing else. -/
theorem tick_cases :
    (e.tick.world.clock = e.world.clock ∧ e.world.begun ⊆ e.tick.world.begun) ∨
      (e.world.clock < e.tick.world.clock ∧ e.tick.playlists = e.playlists ∧
        e.tick.world.begun = e.world.begun) := by
  cases hn : e.next? with
  | some e' =>
    have hpasses := (h.toTended.next hn).2
    rw [tick_of_next hn]
    exact .inl ⟨hpasses.clock, hpasses.begun.subset⟩
  | none =>
    have hquiet := next?_eq_none_iff.1 hn
    cases hnow : e.world.nextDeadline with
    | none =>
      rw [tick_of_idle hquiet hnow]
      exact .inl ⟨rfl, List.Subset.refl _⟩
    | some now =>
      have hq : World.Requeued { e.world with clock := now } (e.world.moveClock now) :=
        .enqueueAll _ _
      rw [tick_of_deadline hquiet hnow]
      refine .inr ⟨hq.clock ▸ h.clock_lt_nextDeadline hquiet hnow, rfl, ?_⟩
      obtain ⟨_, _, _, _, hsame⟩ := hq
      show (e.world.moveClock now).begun = e.world.begun
      rw [hsame]

end

/-- The clock does not go back. -/
theorem clock_le (h : OnSchedule id input plan time start since e) {m n : Nat} (hmn : m ≤ n) :
    (Engine.live m e).world.clock ≤ (Engine.live n e).world.clock := by
  induction n, hmn using Nat.le_induction with
  | base => exact Nat.le_refl _
  | succ n _ ih =>
    obtain ⟨since, hn⟩ := h.live n
    rw [live_succ]
    rcases hn.tick_cases with ⟨hsame, -⟩ | ⟨hlater, -⟩
    · rwa [hsame]
    · exact Nat.le_trans ih (Nat.le_of_lt hlater)

/-- If the engine never comes to rest without the property but when a deadline up to `limit` is to
come, then the property holds by then. -/
theorem reaches {P : Engine → Prop}
    (hrest : ∀ since f, OnSchedule id input plan time start since f → f.Quiescent →
      P f ∨ ∃ d, f.world.nextDeadline = some d ∧ d ≤ limit)
    (h : OnSchedule id input plan time start since e) (hlimit : e.world.clock ≤ limit) :
    ∃ n, (Engine.live n e).world.clock ≤ limit ∧ P (Engine.live n e) := by
  induction hk : limit - e.world.clock using Nat.strong_induction_on generalizing e since with
  | h k ih =>
    obtain ⟨f, hf, hquiet⟩ := exists_rest e
    obtain ⟨n, rfl, -⟩ := hf.exists_live
    obtain ⟨hon, hclock⟩ := h.instant hf
    rcases hrest since _ hon hquiet with hP | ⟨d, hd, hle⟩
    · exact ⟨n, hclock ▸ hlimit, hP⟩
    · have hlater := hon.clock_lt_nextDeadline hquiet hd
      have hnext := hon.moveClock hquiet hd
      have hnow : ((Engine.live n e).world.moveClock d).clock = d :=
        World.Requeued.clock (w := { (Engine.live n e).world with clock := d }) (.enqueueAll _ _)
      obtain ⟨m, hm, hP⟩ := ih (limit - d) (by omega) hnext (hnow.symm ▸ hle) (by rw [hnow])
      rw [← tick_of_deadline hquiet hd, ← live_succ, ← live_add] at hm hP
      exact ⟨n + 1 + m, hm, hP⟩

/-- The playlist ends with a value when the time of its plan is up. -/
theorem ends (h : OnSchedule id input plan time start since e)
    (hclock : e.world.clock ≤ start + plan.duration time) (hnone : e.outcome? id = none) :
    ∃ u, (e.BecomesAt (start + plan.duration time) fun f => f.outcome? id = some (.ok u)) ∧
      ∀ n, (Engine.live n e).outcome? id = none ∨
        (Engine.live n e).outcome? id = some (.ok u) := by
  obtain ⟨k, hk, u, hu⟩ := reaches (P := fun f => ∃ u, f.outcome? id = some (.ok u))
    (fun since f hf hquiet => by
      cases hvalue : plan.value? f.world.settlement? input with
      | some u => exact .inl ⟨u, hf.outcome?_of_value? hf.sound hquiet hvalue⟩
      | none =>
        exact .inr (hf.exists_deadline hquiet
          (plan.running_of_value? input start hf.unfailing hvalue))) h hclock
  have hlater {n : Nat} (hn : k ≤ n) : (Engine.live n e).outcome? id = some (.ok u) := by
    obtain ⟨m, rfl⟩ := Nat.exists_eq_add_of_le hn
    rw [live_add]
    exact outcome?_live hu m
  -- whatever it has ended with at some time it has ended with at the time `k` too
  have honly (n : Nat) : (Engine.live n e).outcome? id = none ∨
      (Engine.live n e).outcome? id = some (.ok u) := by
    cases ho : (Engine.live n e).outcome? id with
    | none => exact .inl rfl
    | some o =>
      have hstays := outcome?_live ho k
      rw [← live_add, hlater (Nat.le_add_left k n)] at hstays
      exact .inr hstays.symm
  refine ⟨u, becomesAt_of ?_ ⟨k, hu⟩ (fun n hn => ?_) (fun n hn hn' => ?_) (fun n hn => ?_)
    (fun n hn => ?_), honly⟩
  · rw [hnone]
    exact nofun
  · rw [live_succ]
    exact outcome?_live hn 1
  · obtain ⟨since, hon⟩ := h.live n
    rw [live_succ] at hn' ⊢
    rcases hon.tick_cases with ⟨hsame, -⟩ | ⟨-, hsame, -⟩
    · exact hsame
    · rw [outcome?, hsame] at hn'
      exact absurd hn' hn
  · have hlt : n ≤ k := Nat.le_of_not_le fun hle => hn (hlater hle)
    exact Nat.le_trans (h.clock_le hlt) hk
  · obtain ⟨since, hon⟩ := h.live n
    exact hon.ends_of_value? (hon.value?_of_outcome? hn)

/-- A leaf begins when it is due. -/
theorem begins (h : OnSchedule id input plan time start since e)
    (hs : (a, s) ∈ plan.timetable time start) (ha : e.world.started? a ≠ some true) :
    e.BecomesAt s fun f => ∃ v, (a, v) ∈ f.world.begun := by
  have hstarted {since : ActionId → Nat} {f : Engine}
      (hf : OnSchedule id input plan time start since f) :
      (∃ v, (a, v) ∈ f.world.begun) ↔ f.world.started? a = some true :=
    ⟨fun ⟨v, hv⟩ => hf.world.logged.started _ hv, hf.world.listed a⟩
  obtain ⟨k, -, hk⟩ := reaches (P := fun f => ∃ v, (a, v) ∈ f.world.begun)
    (fun since f hf hquiet => by
      rcases plan.begins_or_running input start hf.unfailing hs with ⟨v, hv⟩ | hrunning
      · exact .inl ⟨v, hf.begun_of_begins hf.sound hquiet hv⟩
      · exact .inr (hf.exists_deadline hquiet hrunning)) h (h.unbegun a s hs ha)
  refine becomesAt_of (fun hb => ha ((hstarted h).1 hb)) ⟨k, hk⟩ (fun n hn => ?_)
    (fun n hn hn' => ?_) (fun n hn => ?_) (fun n hn => ?_)
  · obtain ⟨since, hon⟩ := h.live n
    obtain ⟨v, hv⟩ := hn
    rw [live_succ]
    rcases hon.tick_cases with ⟨-, hgrows⟩ | ⟨-, -, hsame⟩
    · exact ⟨v, hgrows hv⟩
    · exact ⟨v, hsame ▸ hv⟩
  · obtain ⟨since, hon⟩ := h.live n
    rw [live_succ] at hn' ⊢
    rcases hon.tick_cases with ⟨hsame, -⟩ | ⟨-, -, hsame⟩
    · exact hsame
    · rw [hsame] at hn'
      exact absurd hn' hn
  · obtain ⟨since, hon⟩ := h.live n
    exact hon.unbegun a s hs fun hb => hn ((hstarted hon).2 hb)
  · obtain ⟨since, hon⟩ := h.live n
    exact (hon.begun a s hs ((hstarted hon).1 hn)).2

end OnSchedule

end Engine

namespace Production

open Engine Step

variable {P : Production} {time : ActionId → Nat} {input : Json} {e : Engine}

/-- The leaves of a playlist that can be played have not begun. -/
theorem unbegun_of_play (hdistinct : P.Distinct)
    (hplay : P.engine.play P.id input true = (e, .ok ())) {a : ActionId} (ha : a ∈ P.plan.leaves) :
    P.engine.world.started? a = some false := by
  obtain ⟨p, hp, hstage, -⟩ := play_ok hplay
  have hstands := stands P.sound hp
  have hsole := hstands.sole hdistinct
  have hknown := hstands.known
  have hgroup := hstands.group
  rw [← hstands.leaves] at ha
  cases hr : p.root with
  | leaf slot b =>
    rw [hr] at hgroup
    cases hgroup
  | group slot g steps =>
    rw [Playlist.stage, hr] at hstage
    rw [hr] at hknown hsole ha
    obtain ⟨-, -, -, huntouched⟩ := Known.unplayed hknown (.inl hstage)
    rw [Step.leaves, leavesList_eq, List.mem_flatMap] at ha
    obtain ⟨s, hs, ha⟩ := ha
    exact ((huntouched s hs).2 a ha (hsole a (leaves_subset hs ha))).1

/-- Playing begins nothing and takes no time. -/
theorem play_begins_nothing (hdistinct : P.Distinct)
    (hplay : P.engine.play P.id input true = (e, .ok ())) :
    World.Requeued P.engine.world e.world ∧
      e.playlists.length = P.engine.playlists.length ∧ e.outcome? P.id = none ∧
        ∀ a ∈ P.plan.leaves, e.world.started? a ≠ some true := by
  have hunbegun (a : ActionId) (ha : a ∈ P.plan.leaves) := unbegun_of_play hdistinct hplay ha
  obtain ⟨p, hp, -, rfl⟩ := play_ok hplay
  have hq : World.Requeued P.engine.world (P.engine.world.schedule (.group P.id [])) :=
    .schedule _ _
  refine ⟨hq, List.length_modify .., ?_, fun a ha => ?_⟩
  · rw [outcome?, List.getElem?_modify_eq, hp]
    show (p.withStage (.triggered input)).stage.outcome? = none
    rw [Playlist.stage_withStage (P.sound.known P.id p hp).1]
    rfl
  · have hstarted : (P.engine.world.schedule (.group P.id [])).started? a =
        P.engine.world.started? a := by
      obtain ⟨_, _, _, _, hsame⟩ := hq
      rw [hsame]
      rfl
    show (P.engine.world.schedule (.group P.id [])).started? a ≠ some true
    rw [hstarted, hunbegun a ha]
    decide

/-- The actions of the plan are different ones. -/
theorem Stands.nodup {lead : ActionId → Prop} {p : Playlist} (h : P.Stands lead p.root)
    (hp : P.engine.playlists[P.id]? = some p) (hdistinct : P.Distinct) : P.plan.leaves.Nodup := by
  rw [← h.leaves, List.nodup_iff_count_eq_one]
  intro a ha
  refine Nat.le_antisymm ?_ (List.one_le_count_iff.2 ha)
  exact Nat.le_trans ((leaves_sublist (mem_roots hp)).count_le a) (h.sole hdistinct a ha)

/-- A playlist of waits that has just been played is on schedule. -/
theorem onSchedule (hundisturbed : P.engine.Undisturbed) (hdistinct : P.Distinct)
    (hwaits : ∀ a ∈ P.plan.leaves, P.engine.world.Waits a (time a))
    (hplay : P.engine.play P.id input true = (e, .ok ())) :
    ∃ plan since, (plan = P.plan ∨ plan = .sequence [P.plan]) ∧
      OnSchedule P.id input plan time P.engine.world.clock since e := by
  let P' := P.next (.play P.id input true)
  have hengine : P'.engine = e := (P.next_engine _).trans (congrArg Prod.fst hplay)
  obtain ⟨hsound, hticks, p, hp, hentered⟩ := P.sound.play_entered hplay
  obtain ⟨since, htended⟩ : ∃ since, Tended since e := by
    have happly : P.engine.apply (.play P.id input true) = e := congrArg Prod.fst hplay
    exact happly ▸ (hundisturbed.play P.id input true).tended
  obtain ⟨hq, hlength, -, hunbegun⟩ := play_begins_nothing hdistinct hplay
  have hdistinct' : P'.Distinct := fun a ha => by
    rw [hengine, leaves_of_each hlength fun id p hp =>
      (hticks.each id p hp).imp fun _ h => ⟨h.1, h.2.reset⟩]
    exact hdistinct a ha
  have hp' : P'.engine.playlists[P'.id]? = some p := hengine.symm ▸ hp
  have hstands : P'.Stands (fun _ => False) p.root := stands P'.sound hp'
  have hleaves : p.root.plan.leaves = P.plan.leaves := by
    rcases hstands.plan with heq | heq
    · rw [heq]
      rfl
    · rw [heq]
      exact List.append_nil _
  refine ⟨p.root.plan, since, hstands.plan, { htended with
    root := ⟨p, hp, hstands.group, rfl, hstands.leaves.trans hleaves.symm, hentered⟩
    sole := fun a ha => ?_
    waits := fun a ha => (hwaits a (hleaves ▸ ha)).congr hq.actions
    nodup := hleaves.symm ▸ hstands.nodup hp' hdistinct'
    played := Nat.le_of_eq hq.clock.symm
    begun := fun a s hs ha =>
      absurd ha (hunbegun a (hleaves ▸ OnSchedule.leaf_of_timetable hs))
    unbegun := fun a s hs _ => hq.clock.symm ▸ (p.root.plan.timetable_within _ hs).1 }⟩
  exact hengine ▸ hstands.sole hdistinct' a (hstands.leaves ▸ hleaves ▸ ha)

/-- A playlist whose leaves are all waits, played in an engine that nobody disturbs, ends with a
value exactly when the time of its plan is up: a sequence takes as long as all its steps together,
and a parallel group as long as its longest branch.  It never ends otherwise, and every leaf begins
exactly when the timetable says. -/
theorem duration_spec (P : Production) (hundisturbed : P.engine.Undisturbed)
    (hdistinct : P.Distinct)
    (hwaits : ∀ a ∈ P.plan.leaves, P.engine.world.Waits a (time a))
    (hplay : P.engine.play P.id input true = (e, .ok ())) :
    (∃ u, (e.BecomesAt (P.engine.world.clock + P.plan.duration time) fun f =>
        f.outcome? P.id = some (.ok u)) ∧
      ∀ n, (live n e).outcome? P.id = none ∨ (live n e).outcome? P.id = some (.ok u)) ∧
    ∀ a s, (a, s) ∈ P.plan.timetable time P.engine.world.clock →
      e.BecomesAt s fun f => ∃ v, (a, v) ∈ f.world.begun := by
  obtain ⟨plan, since, hplan, h⟩ := onSchedule hundisturbed hdistinct hwaits hplay
  have hsame : plan.duration time = P.plan.duration time ∧ plan.timetable time
      P.engine.world.clock = P.plan.timetable time P.engine.world.clock := by
    rcases hplan with rfl | rfl
    · exact ⟨rfl, rfl⟩
    · exact ⟨Plan.duration_single _, Plan.timetable_single _⟩
  obtain ⟨hq, -, hnone, hunbegun⟩ := play_begins_nothing hdistinct hplay
  rw [← hsame.1, ← hsame.2]
  refine ⟨h.ends (hq.clock ▸ Nat.le_add_right _ _) hnone, fun a s hs => h.begins hs ?_⟩
  rw [hsame.2] at hs
  exact hunbegun a (OnSchedule.leaf_of_timetable hs)

/-- A wait before and after a group, one of whose branches has two waits and one has nothing. -/
def nested : Descriptor :=
  .sequence [waitFor 5,
    .parallel [("a", waitFor 20), ("b", .sequence [waitFor 3, .instance 0]), ("c", .parallel [])],
    waitFor 0]

/-- It is played when the clock shows seven. -/
def nestedAtSeven : Production :=
  ofCompile 1 [.build (.wait (.ofMillis 4) none)] standard nested 0 [.moveClock 7]
    (by decide +kernel) (by decide +kernel)

/-- The group takes as long as its first branch, and the second wait of the other branch begins in
the middle of that. -/
theorem duration_spec_nestedAtSeven :
    nestedAtSeven.engine.Undisturbed ∧ nestedAtSeven.Distinct ∧
      (∀ a ∈ nestedAtSeven.plan.leaves,
        nestedAtSeven.engine.world.Waits a ([4, 5, 20, 3, 0].getD a 0)) ∧
      ∃ e, nestedAtSeven.engine.play 0 .null true = (e, .ok ()) ∧
        (∃ u, e.BecomesAt 32 fun f => f.outcome? 0 = some (.ok u)) ∧
        e.BecomesAt 15 fun f => ∃ v, (0, v) ∈ f.world.begun := by
  have hundisturbed : nestedAtSeven.engine.Undisturbed := by
    have hvacant : nestedAtSeven.vacant.Undisturbed :=
      .build (.start (by decide)) fun v => .wait _ _
    have hcompiled : nestedAtSeven.compiled.Undisturbed :=
      .compile hvacant (fun ref _ action hbuilds => hbuilds.plain rfl) nestedAtSeven.knows
        nestedAtSeven.compiles
    exact .rest hcompiled (by decide +kernel) (by decide +kernel)
  have hdistinct : nestedAtSeven.Distinct := by decide +kernel
  have hwaits : ∀ a ∈ nestedAtSeven.plan.leaves,
      nestedAtSeven.engine.world.Waits a ([4, 5, 20, 3, 0].getD a 0) := by
    have hleaves : nestedAtSeven.plan.leaves = [1, 2, 3, 0, 4] := by decide +kernel
    rw [hleaves]
    simp only [List.forall_mem_cons]
    refine ⟨?_, ?_, ?_, ?_, ?_, nofun⟩ <;> exact ⟨⟨none, rfl⟩, by decide⟩
  have hplay : nestedAtSeven.engine.play 0 .null true =
      ((nestedAtSeven.engine.play 0 .null true).1, .ok ()) := Prod.ext rfl rfl
  obtain ⟨⟨u, hends, -⟩, hbegins⟩ := duration_spec nestedAtSeven hundisturbed hdistinct hwaits hplay
  exact ⟨hundisturbed, hdistinct, hwaits, _, hplay, ⟨u, hends⟩, hbegins 0 15 (by decide +kernel)⟩

end Production

end Rundown
