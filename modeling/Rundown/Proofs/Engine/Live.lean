import Mathlib.Logic.Relation
import Rundown.Proofs.Engine.Turn
import Rundown.Proofs.World.Tasks

/-!
# An engine that is left to itself

`Engine.live` is what becomes of an engine when nobody interferes: tasks run one after another, and
when none is left the clock moves to the next deadline.  On the way every begin of a built-in action
stays looked after (`Engine.Tended.next`, `Engine.Tended.moveClock`), and an action settles with a
signal only if that was sent before the task that settles it ran (`World.Passes`).
-/

namespace Rundown

namespace World

/-- The earliest deadline of a timer. -/
def nextDeadline (w : World) : Option Nat := (w.timers.filterMap Timer.deadline).min?

/-- A task has run, and no time has passed. -/
structure Passes (w w' : World) : Prop where
  clock : w'.clock = w.clock
  actions : w'.actions = w.actions
  begun : w.begun <+: w'.begun
  settled : ∀ a s, w.settlement? a = some s → w'.settlement? a = some s
  heard : ∀ a v name o, (a, v) ∈ w'.begun → w'.effects (a, v) = [.listen name] →
    w.settlement? a = none → w'.settlement? a = some o →
      ∃ s, w.Sent a s ∧ s.name = name ∧ o = settlementOf s

variable {w w' : World} {since : ActionId → Nat} {due : Task → Prop} {actions : List ActionId}

theorem Passes.of_requeued {w'' : World} (h : Passes w w') (hq : Requeued w' w'') :
    Passes w w'' := by
  obtain ⟨_, _, _, _, rfl⟩ := hq
  exact ⟨h.clock, h.actions, h.begun, h.settled, h.heard⟩

theorem Passes.after_requeued {w'' : World} (hq : Requeued w w') (h : Passes w' w'') :
    Passes w w'' := by
  obtain ⟨_, _, _, _, rfl⟩ := hq
  exact ⟨h.clock, h.actions, h.begun, h.settled, h.heard⟩

/-- A task that begins nothing. -/
theorem Passes.of_finished (h : w'.Tended since due) (hclock : w'.clock = w.clock)
    (hactions : w'.actions = w.actions) (hbegun : w'.begun = w.begun)
    (hsettled : ∀ a s, w.settlement? a = some s → w'.settlement? a = some s) : Passes w w' where
  clock := hclock
  actions := hactions
  begun := hbegun ▸ List.prefix_refl _
  settled := hsettled
  heard a v name o hb he _ ho := by
    obtain ⟨s, hs, hname, hset⟩ := h.listens_settled hb he ho
    exact ⟨s, (sent_congr hactions hbegun).1 hs, hname, hset⟩

/-- What awaits a signal does not settle as it begins. -/
theorem Tended.begins_unheard {a : ActionId} {v : Json} {name : String} (h : w.Tended since due)
    (h' : w'.Tended since due) (ha : w.started? a = some false) (hw : Begins w w' a v)
    (he : w'.effects (a, v) = [.listen name]) : w'.settlement? a = none := by
  have hb : (a, v) ∈ w'.begun := by simp [hw.begun]
  cases ho : w'.settlement? a with
  | none => rfl
  | some o =>
    obtain ⟨s, hs, -⟩ := h'.listens_settled hb he ho
    exact absurd hs (hw.not_sent h.logged ha)

/-- A look at a playlist takes no time, and nobody hears a signal meanwhile. -/
theorem Tended.evolves_still (h : w.Tended since due) (he : Evolves actions w w') :
    w'.clock = w.clock ∧ w'.actions = w.actions ∧ w.begun <+: w'.begun ∧
      ∀ a v name, (a, v) ∈ w'.begun → w'.effects (a, v) = [.listen name] →
        w.settlement? a = none → w'.settlement? a = none := by
  induction he with
  | refl => exact ⟨rfl, rfl, List.prefix_refl _, fun _ _ _ _ _ hnone => hnone⟩
  | @schedule w₁ t _ ih =>
    obtain ⟨_, _, _, _, hq⟩ := Requeued.schedule w₁ t
    rw [hq]
    exact ih
  | @begins w₁ a v _ he₁ ih =>
    by_cases ha : w₁.started? a = some false
    · obtain ⟨hclock, hactions, hbegun, hunheard⟩ := ih
      have hw := beginAction_begins v ha
      have h₁ : w₁.Tended since fun _ => True :=
        h.evolves he₁ (fun _ _ => trivial) fun _ _ => trivial
      have h₂ := h₁.beginAction (a := a) (v := v) (fun _ hu => hu) fun _ _ => trivial
      refine ⟨hw.clock.trans hclock, hw.actions.trans hactions,
        hbegun.trans ⟨_, hw.begun.symm⟩, fun b u name hb he hnone => ?_⟩
      rw [hw.begun] at hb
      rcases List.mem_append.1 hb with hb | hb
      · rw [(hw.others b (hw.ne_of_begun h₁.logged ha ⟨u, hb⟩)).2]
        exact hunheard b u name hb (effects_congr hw.actions _ ▸ he) hnone
      · obtain ⟨rfl, rfl⟩ := Prod.mk.inj (List.mem_singleton.1 hb)
        exact h₁.begins_unheard h₂ ha hw he
    · rw [beginAction_refused v ha]
      exact ih

theorem Tended.evolves_passes (h : w.Tended since due) (he : Evolves actions w w') :
    Passes w w' := by
  obtain ⟨hclock, hactions, hbegun, hunheard⟩ := h.evolves_still he
  refine ⟨hclock, hactions, hbegun, he.keeps.settled, fun a v name o hb heff hnone ho => ?_⟩
  rw [hunheard a v name hb heff hnone] at ho
  cases ho

end World

/-! ## Wakes -/

namespace Step

mutual

/-- Waking groups changes queues only. -/
theorem wake_requeued (a : ActionId) (site : Site) :
    ∀ (s : Step) (w : World), World.Requeued w (s.wake a site w).2.1
  | leaf slot b, w => by
    unfold wake
    split
    · exact .scheduleAll w site.above
    · exact .refl w
  | .group slot g steps, w => by
    unfold wake
    exact wakeList_requeued a _ steps.length 0 g steps w

theorem wakeList_requeued (a : ActionId) (site : Nat → Site) (width : Nat) :
    ∀ (index : Nat) (g : Group) (steps : List Step) (w : World),
      World.Requeued w (wakeList a site width index g steps w).2.2.1
  | _, _, [], w => .refl w
  | index, g, s :: rest, w => by
    unfold wakeList
    exact (wake_requeued a (site index) s w).trans (wakeList_requeued a site width _ _ rest _)

end

end Step

namespace Engine

theorem wakeFrom_requeued (a : ActionId) (id : PlaylistId) (playlists : List Playlist) (w : World) :
    World.Requeued w (wakeFrom a id playlists w).2 := by
  induction playlists generalizing id w with
  | nil => exact .refl w
  | cons p rest ih => exact (p.root.wake_requeued a (rootSite id) w).trans (ih _ _)

theorem withSettled_requeued (e : Engine) (result : World × Option ActionId) :
    World.Requeued result.1 (e.withSettled result).world := by
  unfold withSettled
  dsimp only
  split
  · exact wakeFrom_requeued _ _ _ _
  · exact .refl _

theorem stop_requeued (w : World) (t : Task) (ended : Bool) :
    World.Requeued w (w.stop t ended) := by
  unfold World.stop
  split
  · exact World.Requeued.trans ⟨_, _, _, _, rfl⟩ (World.Requeued.push _ .ready t)
  · exact ⟨_, _, _, _, rfl⟩

/-- The invariant of an engine that is left to itself. -/
structure Tended (since : ActionId → Nat) (e : Engine) : Prop where
  sound : Sound (fun _ => False) e
  world : e.world.Tended since e.world.Due

open Step

variable {e e' : Engine} {since : ActionId → Nat} {w : World} {t : Task}

/-- The task of a timer or a listener, which counts as due while it runs, has been performed. -/
theorem withSettled_tended {result : World × Option ActionId}
    (hrun : ∀ due : Task → Prop, (∀ u, e.world.Due u ∨ u = t → u = t ∨ due u) →
      result.1.Tended since due)
    (hsettles : World.Settles result.2 e.world result.1)
    (hframe : result.1.clock = e.world.clock ∧ result.1.actions = e.world.actions) :
    (e.withSettled result).world.Tended since (e.withSettled result).world.Due ∧
      World.Passes e.world (e.withSettled result).world := by
  obtain ⟨hsettles', -⟩ := withSettled_carries (e := e)
    (x := e.scene fun _ => False) result (fun _ => rfl) hsettles
  have hq := withSettled_requeued e result
  have htended := (hrun (e.withSettled result).world.Due fun u hu =>
    hu.symm.imp_right (hsettles'.keeps.due u)).requeue hq
  exact ⟨htended, .of_finished htended (hq.clock.trans hframe.1) (hq.actions.trans hframe.2)
    hsettles'.log hsettles'.keeps.settled⟩

/-- Performing a task, which counts as due while it runs. -/
theorem perform_tended (h : e.world.Tended since fun u => e.world.Due u ∨ u = t)
    (hknown : ∀ (id : PlaylistId) (p : Playlist), e.playlists[id]? = some p →
      p.root.Known ((e.scene (fun _ => False) id).during e.world t) []) :
    ((e.perform t).1.world.Tended since fun u =>
        (e.perform t).1.world.Due u ∧ (u = t → (e.perform t).2 = false)) ∧
      World.Passes e.world (e.perform t).1.world := by
  cases t with
  | timer n =>
    obtain ⟨htended, hpasses⟩ := withSettled_tended (e := e) (t := .timer n)
      (fun _ hdue => h.runTimer n hdue) (e.world.runTimer_settles n) (e.world.runTimer_frame n)
    refine ⟨htended.weaken (fun t ht => .inr fun hd => ⟨hd, fun heq => ?_⟩)
      fun l _ hd => ⟨hd, fun heq => by cases heq⟩, hpasses⟩
    simp only [perform, Bool.not_eq_false', List.any_eq_true]
    exact ⟨t, ht, beq_iff_eq.2 (Task.timer.inj heq)⟩
  | listener r =>
    obtain ⟨htended, hpasses⟩ := withSettled_tended (e := e) (t := .listener r)
      (fun _ hdue => h.runListener r hdue) (e.world.runListener_settles r)
      (e.world.runListener_frame r)
    refine ⟨htended.weaken (fun t _ => .inr fun hd => ⟨hd, fun heq => by cases heq⟩)
      fun l hl hd => ⟨hd, fun heq => ?_⟩, hpasses⟩
    simp only [perform, Bool.not_eq_false', List.any_eq_true]
    exact ⟨l, hl, beq_iff_eq.2 (Task.listener.inj heq)⟩
  | group id place =>
    have hweaken {w : World} (h : w.Tended since fun u => w.Due u ∨ u = .group id place)
        (ended : Bool) : w.Tended since fun u =>
          w.Due u ∧ (u = .group id place → ended = false) := by
      refine h.weaken (fun t _ => .inr fun hd => ⟨?_, fun heq => by cases heq⟩)
        fun l _ hd => ⟨?_, fun heq => by cases heq⟩
      · exact hd.resolve_right fun heq => by cases heq
      · exact hd.resolve_right fun heq => by cases heq
    simp only [perform]
    cases hp : e.playlists[id]? with
    | none => exact ⟨hweaken h true, .of_finished h rfl rfl rfl fun _ _ ho => ho⟩
    | some p =>
      obtain ⟨hevolves, -⟩ := pollPlace_revised (rootSite id) (x := e.scene (fun _ => False) id)
        (t := .group id place) (w := e.world) rfl
        ((e.apart (fun _ => False) id).of_mem (mem_roots hp)) rfl (hknown id p hp) rfl
      refine ⟨hweaken (h.evolves hevolves (fun u hu => ?_) fun u hu => .inl hu) _,
        h.evolves_passes hevolves⟩
      exact hu.imp_left (hevolves.keeps.due u)

/-- Running a task that has been taken from its queue, which left the world `w`. -/
theorem Tended.runTask (h : Tended since e) (hq : World.Requeued e.world w)
    (hdue : ∀ u, e.world.Due u → u ∈ w.ready ∨ u ∈ w.arrivals ∨ u = t) :
    Tended since ({ e with world := w }.runTask t) ∧
      World.Passes e.world ({ e with world := w }.runTask t).world := by
  let e₁ : Engine := { e with world := { w with running := some t, rewoken := false } }
  have hi : w.instances = e.world.instances := by
    obtain ⟨_, _, _, _, rfl⟩ := hq
    rfl
  have hb : w.begun = e.world.begun := by
    obtain ⟨_, _, _, _, rfl⟩ := hq
    rfl
  have hq₁ : World.Requeued e.world e₁.world := hq.trans ⟨_, _, _, _, rfl⟩
  have h₁ : e₁.world.Tended since fun u => e₁.world.Due u ∨ u = t := by
    refine (h.world.requeue hq₁).mono fun u hu => ?_
    rcases hdue u hu with hu | hu | hu
    · exact .inl (.inl hu)
    · exact .inl (.inr (.inl hu))
    · exact .inr hu
  obtain ⟨-, -, hrunning, -⟩ := perform_carries (fun _ => False) e₁ t fun id p hp =>
    h.sound.known_during hi hb hdue hp
  obtain ⟨htended, hpasses⟩ := perform_tended h₁ fun id p hp =>
    h.sound.known_during hi hb hdue hp
  have hstop := stop_requeued (e₁.perform t).1.world t (e₁.perform t).2
  refine ⟨⟨(h.sound.runTask hi hb hdue).1, ?_⟩, ?_⟩
  · exact (htended.mono fun u hu => World.due_stop hrunning hu.1 hu.2).requeue hstop
  · exact (hpasses.after_requeued hq₁).of_requeued hstop

/-- The engine runs its next task. -/
theorem Tended.next (h : Tended since e) (hn : e.next? = some e') :
    Tended since e' ∧ World.Passes e.world e'.world := by
  unfold next? at hn
  split at hn
  next t rest hr =>
    obtain rfl := Option.some.inj hn
    refine h.runTask ⟨_, _, _, _, rfl⟩ fun u hu => ?_
    rcases hu with hu | hu | hu
    · rw [hr] at hu
      rcases List.mem_cons.1 hu with hu | hu
      · exact .inr (.inr hu)
      · exact .inl hu
    · exact .inr (.inl hu)
    · rw [h.sound.idle] at hu
      cases hu.1
  next t rest hr ha =>
    obtain rfl := Option.some.inj hn
    refine h.runTask ⟨_, _, _, _, rfl⟩ fun u hu => ?_
    rcases hu with hu | hu | hu
    · rw [hr] at hu
      cases hu
    · rw [ha] at hu
      rcases List.mem_cons.1 hu with hu | hu
      · exact .inr (.inr hu)
      · exact .inr (.inl hu)
    · rw [h.sound.idle] at hu
      cases hu.1
  next => cases hn

theorem next?_eq_none_iff : e.next? = none ↔ e.Quiescent := by
  unfold next? Quiescent
  split <;> simp [*]

theorem Tended.not_due (h : Tended since e) (hquiet : e.Quiescent) (u : Task) :
    ¬e.world.Due u := by
  rintro (hu | hu | hu)
  · rw [hquiet.1] at hu
    cases hu
  · rw [hquiet.2] at hu
    cases hu
  · rw [h.sound.idle] at hu
    cases hu.1

/-- The clock moves to a time that is not earlier, when no task waits. -/
theorem Tended.moveClock (h : Tended since e) (hquiet : e.Quiescent) {now : Nat}
    (hnow : e.world.clock ≤ now) :
    Tended (fun a => if e.world.started? a = some true then since a else now)
      { e with world := e.world.moveClock now } :=
  ⟨(h.sound.apply (.moveClock now)).1, h.world.moveClock (h.not_due hquiet) hnow⟩

/-- Some tasks have run, one after another. -/
def Instant (e e' : Engine) : Prop := Relation.ReflTransGen (fun e e' => e.next? = some e') e e'

/-- The next task runs; when there is none, the clock moves to the next deadline. -/
def tick (e : Engine) : Engine :=
  match e.next? with
  | some e' => e'
  | none =>
    match e.world.nextDeadline with
    | some now => { e with world := e.world.moveClock now }
    | none => e

/-- What has become of the engine after so many ticks. -/
def live : Nat → Engine → Engine
  | 0, e => e
  | n + 1, e => live n e.tick

theorem live_add (m n : Nat) (e : Engine) : live (m + n) e = live n (live m e) := by
  induction m generalizing e with
  | zero => rw [Nat.zero_add, live]
  | succ m ih => rw [Nat.succ_add, live, ih, live]

theorem live_succ (n : Nat) (e : Engine) : live (n + 1) e = (live n e).tick := by
  rw [live_add]
  rfl

theorem tick_of_next (h : e.next? = some e') : e.tick = e' := by
  rw [tick, h]

theorem tick_of_deadline (hquiet : e.Quiescent) {now : Nat} (h : e.world.nextDeadline = some now) :
    e.tick = { e with world := e.world.moveClock now } := by
  rw [tick, next?_eq_none_iff.2 hquiet, h]

theorem tick_of_idle (hquiet : e.Quiescent) (h : e.world.nextDeadline = none) : e.tick = e := by
  rw [tick, next?_eq_none_iff.2 hquiet, h]

/-- An engine with nothing left to wait for stays as it is. -/
theorem live_of_idle (hquiet : e.Quiescent) (h : e.world.nextDeadline = none) (n : Nat) :
    live n e = e := by
  induction n with
  | zero => rfl
  | succ n ih => rw [live, tick_of_idle hquiet h, ih]

/-- At rest no deadline is in the past. -/
theorem Tended.clock_lt_nextDeadline (h : Tended since e) (hquiet : e.Quiescent) {now : Nat}
    (hnow : e.world.nextDeadline = some now) : e.world.clock < now := by
  have hmem : now ∈ e.world.timers.filterMap Timer.deadline := List.min?_mem hnow
  obtain ⟨a, v, delay, value, hb, he, hnone, rfl⟩ :=
    (h.world.mem_deadlines_iff (h.not_due hquiet)).1 hmem
  exact h.world.waits_rest (h.not_due hquiet) hb he hnone

/-- Running tasks takes so many ticks. -/
theorem Instant.exists_live {f : Engine} (h : Instant e f) :
    ∃ n, live n e = f ∧ ∀ m ≤ n, Instant e (live m e) := by
  induction h with
  | refl => exact ⟨0, rfl, fun m hm => Nat.le_zero.1 hm ▸ .refl⟩
  | @tail g f hg hn ih =>
    obtain ⟨n, hlive, hall⟩ := ih
    have hsucc : live (n + 1) e = f := by rw [live_succ, hlive, tick_of_next hn]
    refine ⟨n + 1, hsucc, fun m hm => ?_⟩
    rcases Nat.le_succ_iff.1 hm with hm | rfl
    · exact hall m hm
    · exact hsucc ▸ hg.tail hn

end Engine

end Rundown
