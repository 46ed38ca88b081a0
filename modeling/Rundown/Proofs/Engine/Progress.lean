import Rundown.Proofs.Engine.Live
import Rundown.Proofs.Playlist.Progress

/-!
# Every instant ends

Running the next task leaves less to be done (`Engine.next_lessens`): an action begins, or one
settles, a timer is set or ends or a group comes to its next stage, or a noted wake is dealt with, or
else a task has run for nothing and is not queued again.  So without outside help an engine comes to
rest, whatever its playlists are (`Engine.exists_rest`).
-/

namespace Rundown.Engine

open Step

/-- The outermost steps of all playlists. -/
def roots (e : Engine) : List Step := e.playlists.map Playlist.root

/-- What is left to be done but for wakes: by the world, and stages of groups. -/
def undone (e : Engine) : Nat := e.world.unfinished + aheadList e.roots

/-- The wakes that have been noted. -/
def backlog (e : Engine) : Nat := backlogList e.roots

/-- The number of tasks that wait. -/
def queued (e : Engine) : Nat := e.world.ready.length + e.world.arrivals.length

/-- Less is left to be done than before, what comes first being more important. -/
def Lessens (e e' : Engine) : Prop :=
  e'.world.unstarted < e.world.unstarted ∨ (e'.world.unstarted = e.world.unstarted ∧
    (e'.undone < e.undone ∨ (e'.undone = e.undone ∧ e'.backlog < e.backlog)))

/-- As much is left to be done as before. -/
def Stalls (e e' : Engine) : Prop :=
  e'.world.unstarted = e.world.unstarted ∧ e'.undone = e.undone ∧ e'.backlog = e.backlog

variable {e e' : Engine} {t : Task}

theorem roots_modify {playlists : List Playlist} {id : PlaylistId} {p : Playlist} (s : Step)
    (hp : playlists[id]? = some p) :
    (playlists.modify id fun p => { p with root := s }).map Playlist.root =
      (playlists.map Playlist.root).set id s := by
  refine List.ext_getElem? fun n => ?_
  rw [List.getElem?_map, List.getElem?_modify, List.getElem?_set, List.length_map,
    List.getElem?_map]
  by_cases hn : id = n
  · subst hn
    rw [hp, if_pos rfl, if_pos (List.getElem?_eq_some_iff.1 hp).1]
    simp
  · simp only [if_neg hn]
    cases playlists[n]? <;> rfl

theorem wakeFrom_onward (a : ActionId) (id : PlaylistId) (playlists : List Playlist) (w : World) :
    OnwardList (playlists.map Playlist.root)
        ((wakeFrom a id playlists w).1.map Playlist.root) ∧
      aheadList ((wakeFrom a id playlists w).1.map Playlist.root) =
        aheadList (playlists.map Playlist.root) := by
  induction playlists generalizing id w with
  | nil => exact ⟨trivial, rfl⟩
  | cons p rest ih =>
    obtain ⟨honward, hahead⟩ := wake_onward a (rootSite id) p.root w
    obtain ⟨honward', hahead'⟩ := ih (id + 1) (p.root.wake a (rootSite id) w).2.1
    refine ⟨⟨honward, honward'⟩, ?_⟩
    show (p.root.wake a (rootSite id) w).1.ahead + _ = p.root.ahead + _
    rw [hahead, hahead']

theorem withSettled_onward (e : Engine) (result : World × Option ActionId) :
    OnwardList e.roots (e.withSettled result).roots ∧
      aheadList (e.withSettled result).roots = aheadList e.roots := by
  unfold withSettled
  dsimp only
  split
  · exact wakeFrom_onward _ 0 e.playlists result.1
  · exact ⟨onwardList_refl _, rfl⟩

/-- The task of a timer or a listener. -/
theorem withSettled_lessens {result : World × Option ActionId} (h : e.world.Wanes result) :
    Lessens e (e.withSettled result) ∨
      (Stalls e (e.withSettled result) ∧ e.world.SameTasks (e.withSettled result).world) := by
  obtain ⟨hunstarted, h⟩ := h
  have hq := withSettled_requeued e result
  have hahead := (withSettled_onward e result).2
  have hstart := hq.unstarted.trans hunstarted
  have hundone : (e.withSettled result).undone = result.1.unfinished + aheadList e.roots := by
    rw [undone, hq.unfinished, hahead]
  by_cases hless : result.1.unfinished < e.world.unfinished
  · refine .inl (.inr ⟨hstart, .inl ?_⟩)
    rw [hundone, undone]
    omega
  · obtain ⟨hle, htasks, hanswer⟩ := h.resolve_left hless
    have hwith : e.withSettled result = { e with world := result.1 } := by
      rw [withSettled, hanswer]
    refine .inr ⟨⟨hstart, ?_, ?_⟩, ?_⟩
    · rw [hundone, undone]
      omega
    · rw [hwith]
      rfl
    · rw [hwith]
      exact htasks

/-- The task of a group. -/
theorem look_lessens {id : PlaylistId} {p : Playlist} {polled : Polled}
    (hp : e.playlists[id]? = some p) (h : p.root.Labours e.world polled) :
    Lessens e ⟨polled.world, e.playlists.modify id fun p => { p with root := polled.step }⟩ ∨
      (Stalls e ⟨polled.world, e.playlists.modify id fun p => { p with root := polled.step }⟩ ∧
        e.world.SameTasks polled.world) := by
  have hroot : e.roots[id]? = some p.root := by
    rw [roots, List.getElem?_map, hp]
    rfl
  have hahead := aheadList_set hroot polled.step
  have hbacklog := backlogList_set hroot polled.step
  unfold Lessens Stalls undone backlog
  simp only [roots] at hahead hbacklog ⊢
  rw [roots_modify polled.step hp]
  rcases h.spends with (hbegins | ⟨hq, hless⟩) | ⟨hw, hm, -⟩
  · exact .inl (.inl hbegins)
  · refine .inl (.inr ⟨hq.unstarted, ?_⟩)
    rw [hq.unfinished]
    simp only [Step.work] at hless
    omega
  · obtain ⟨ha, hb⟩ := Prod.mk.inj hm
    rw [hw]
    exact .inr ⟨⟨rfl, by omega, by omega⟩, rfl, rfl, rfl⟩

/-- Running a task takes the playlists onwards. -/
theorem perform_onward (e : Engine) (t : Task) : OnwardList e.roots (e.perform t).1.roots := by
  cases t with
  | timer n => exact (withSettled_onward e _).1
  | listener r => exact (withSettled_onward e _).1
  | group id place =>
    simp only [perform]
    cases hp : e.playlists[id]? with
    | none => exact onwardList_refl _
    | some p =>
      have hroot : (e.playlists.map Playlist.root)[id]? = some p.root := by
        rw [List.getElem?_map, hp]
        rfl
      have honward := (pollPlace_labours place (rootSite id) p.root e.world).onward
      have hset := OnwardList.set hroot honward
      rw [← roots_modify _ hp] at hset
      exact hset

theorem perform_lessens (e : Engine) (t : Task) :
    Lessens e (e.perform t).1 ∨
      (Stalls e (e.perform t).1 ∧ e.world.SameTasks (e.perform t).1.world) := by
  cases t with
  | timer n => exact withSettled_lessens (e.world.runTimer_wanes n)
  | listener r => exact withSettled_lessens (e.world.runListener_wanes r)
  | group id place =>
    simp only [perform]
    cases hp : e.playlists[id]? with
    | none => exact .inr ⟨⟨rfl, rfl, rfl⟩, rfl, rfl, rfl⟩
    | some p => exact look_lessens hp (pollPlace_labours place (rootSite id) p.root e.world)

/-- A task that is taken from its queue and run leaves less to be done, or at least one task less to
be run. -/
theorem runTask_lessens {w : World} {t : Task} (hq : World.Requeued e.world w)
    (hqueued : w.ready.length + w.arrivals.length < e.queued) :
    Lessens e ({ e with world := w }.runTask t) ∨
      (Stalls e ({ e with world := w }.runTask t) ∧
        ({ e with world := w }.runTask t).queued < e.queued) := by
  let e₁ : Engine := { e with world := { w with running := some t, rewoken := false } }
  have hq₁ : World.Requeued e.world e₁.world := hq.trans ⟨_, _, _, _, rfl⟩
  have hundone : e₁.undone = e.undone := congrArg (· + aheadList e.roots) hq₁.unfinished
  have hstop := stop_requeued (e₁.perform t).1.world t (e₁.perform t).2
  have hrun : { e with world := w }.runTask t =
      { (e₁.perform t).1 with world := (e₁.perform t).1.world.stop t (e₁.perform t).2 } := rfl
  have hundone' : ({ e with world := w }.runTask t).undone = (e₁.perform t).1.undone := by
    rw [hrun]
    exact congrArg (· + aheadList (e₁.perform t).1.roots) hstop.unfinished
  have hunstarted' : ({ e with world := w }.runTask t).world.unstarted =
      (e₁.perform t).1.world.unstarted := by
    rw [hrun]
    exact hstop.unstarted
  have hbacklog' : ({ e with world := w }.runTask t).backlog = (e₁.perform t).1.backlog := rfl
  unfold Lessens Stalls
  rw [hundone', hunstarted', hbacklog', ← hundone, ← hq₁.unstarted]
  refine (perform_lessens e₁ t).imp_right fun ⟨hstalls, hready, harrivals, hrewoken⟩ =>
    ⟨hstalls, ?_⟩
  have hcalm : (e₁.perform t).1.world.rewoken = false := hrewoken
  have hqueued' :
      ({ e with world := w }.runTask t).queued = w.ready.length + w.arrivals.length := by
    rw [hrun, queued, World.stop, hcalm]
    simp only [Bool.false_and, Bool.false_eq_true, if_false, hready, harrivals]
    rfl
  rw [hqueued']
  exact hqueued

/-- The next task leaves less to be done, or at least one task less to be run. -/
theorem next_lessens (h : e.next? = some e') :
    Lessens e e' ∨ (Stalls e e' ∧ e'.queued < e.queued) := by
  unfold next? at h
  split at h
  next t rest hr =>
    obtain rfl := Option.some.inj h
    refine runTask_lessens ⟨_, _, _, _, rfl⟩ ?_
    rw [queued, hr, List.length_cons]
    dsimp only
    omega
  next t rest hr ha =>
    obtain rfl := Option.some.inj h
    refine runTask_lessens ⟨_, _, _, _, rfl⟩ ?_
    rw [queued, ha, List.length_cons]
    dsimp only
    omega
  next => cases h

theorem runTask_onward (e : Engine) (t : Task) : OnwardList e.roots (e.runTask t).roots :=
  perform_onward { e with world := { e.world with running := some t, rewoken := false } } t

theorem next_onward (h : e.next? = some e') : OnwardList e.roots e'.roots := by
  unfold next? at h
  split at h
  next t rest hr =>
    obtain rfl := Option.some.inj h
    exact runTask_onward { e with world := { e.world with ready := rest } } t
  next t rest hr ha =>
    obtain rfl := Option.some.inj h
    exact runTask_onward { e with world := { e.world with arrivals := rest } } t
  next => cases h

theorem tick_onward (e : Engine) : OnwardList e.roots e.tick.roots := by
  unfold tick
  split
  next e' h => exact next_onward h
  next =>
    split
    · exact onwardList_refl _
    · exact onwardList_refl _

/-- Left to itself, an engine takes its playlists onwards. -/
theorem live_onward (n : Nat) (e : Engine) : OnwardList e.roots (live n e).roots := by
  induction n generalizing e with
  | zero => exact onwardList_refl _
  | succ n ih => exact onwardList_trans (tick_onward e) (ih e.tick)

theorem playlist_onward (h : OnwardList e.roots e'.roots) {id : PlaylistId} {p : Playlist}
    (hp : e.playlists[id]? = some p) :
    ∃ p', e'.playlists[id]? = some p' ∧ p.root.Onward p'.root := by
  have hroot : e.roots[id]? = some p.root := by
    rw [roots, List.getElem?_map, hp]
    rfl
  obtain ⟨s, hs, honward⟩ := forall₂_getElem? (onwardList_iff.1 h) hroot
  rw [roots, List.getElem?_map, Option.map_eq_some_iff] at hs
  obtain ⟨p', hp', rfl⟩ := hs
  exact ⟨p', hp', honward⟩

/-- What a playlist has ended with stays. -/
theorem outcome?_live {id : PlaylistId} {o : Outcome} (h : e.outcome? id = some o) (n : Nat) :
    (live n e).outcome? id = some o := by
  obtain ⟨p, hp, ho⟩ := Option.bind_eq_some_iff.1 h
  obtain ⟨p', hp', honward⟩ := playlist_onward (live_onward n e) hp
  rw [outcome?, hp', Option.bind_some]
  unfold Playlist.stage at ho ⊢
  cases hr : p.root with
  | leaf slot a =>
    rw [hr] at ho
    cases ho
  | group slot g steps =>
    cases hr' : p'.root with
    | leaf slot' a' =>
      rw [hr, hr'] at honward
      exact honward.elim
    | group slot' g' steps' =>
      rw [hr] at ho
      rw [hr, hr'] at honward
      have hstage : g'.stage = g.stage := honward.2.1 o ho
      show g'.stage.outcome? = some o
      rw [hstage]
      exact ho

/-- Without help from outside, every engine comes to rest. -/
theorem exists_rest (e : Engine) : ∃ f, Instant e f ∧ f.Quiescent := by
  cases h : e.next? with
  | none => exact ⟨e, .refl, next?_eq_none_iff.1 h⟩
  | some e' =>
    have hless : Prod.Lex (· < ·) (Prod.Lex (· < ·) (Prod.Lex (· < ·) (· < ·)))
        (e'.world.unstarted, e'.undone, e'.backlog, e'.queued)
        (e.world.unstarted, e.undone, e.backlog, e.queued) := by
      have := next_lessens h
      unfold Lessens Stalls at this
      simp only [Prod.lex_def]
      omega
    obtain ⟨f, hf, hquiet⟩ := exists_rest e'
    exact ⟨f, .head h hf, hquiet⟩
termination_by (e.world.unstarted, e.undone, e.backlog, e.queued)
decreasing_by exact hless

end Rundown.Engine
