import Rundown.Proofs.Engine.Performance
import Rundown.Proofs.Playlist.Accomplished
import Rundown.Proofs.Playlist.Stage

/-!
# The life of a playlist

What events make of the stage of a playlist: it is played at most once, goes on only when it is
looked at, and stays as it is once it has ended (`Engine.apply_meets`, `Engine.after_leads`).
`Production.lifeCycle_spec` puts together what the holders of its handles and completions see.
-/

namespace Rundown

/-- The steps that callers can see a playlist's state take. -/
def PlaylistState.Moves : PlaylistState → PlaylistState → Prop
  | .created, .running | .running, .completed | .running, .failed => True
  | _, _ => False

namespace Stage

/-- What an event can make of the stage of the playlist `id`, which has so many handles. -/
inductive Meets (id : PlaylistId) (handles : Nat) : Event → Stage → Stage → Prop
  | looked (event : Event) (o : Option Outcome) (stage stage' : Stage) : stage.Looks o stage' →
      Meets id handles event stage stage'
  | played (input : Json) : Meets id handles (.play id input true) .created (.triggered input)
  | dropped : handles ≤ 1 → Meets id handles (.dropHandle id) .created .expired

/-- What a history can make of a stage. -/
inductive Leads (stage : Stage) : Stage → Prop
  | same : Leads stage stage
  | created (stage' : Stage) : stage = .created → Leads stage stage'
  | opened (stage' : Stage) : stage.isOpen = true →
      stage' = .running ∨ (∃ o, stage' = .finished o) → Leads stage stage'

variable {id : PlaylistId} {handles : Nat} {event : Event} {stage stage' stage'' : Stage}
  {o : Option Outcome}

theorem Looks.leads (h : stage.Looks o stage') : stage.Leads stage' := by
  cases h with
  | same => exact .same
  | runs hopen => exact .opened _ hopen (.inl rfl)
  | ends o hopen => exact .opened _ hopen (.inr ⟨o, rfl⟩)

theorem Meets.leads (h : Meets id handles event stage stage') : stage.Leads stage' := by
  cases h with
  | looked _ _ _ _ h => exact h.leads
  | played input => exact .created _ rfl
  | dropped => exact .created _ rfl

theorem Leads.trans (h : stage.Leads stage') (h' : stage'.Leads stage'') : stage.Leads stage'' := by
  cases h with
  | same => exact h'
  | created _ hc => exact .created _ hc
  | opened _ hopen hgoes =>
    cases h' with
    | same => exact .opened _ hopen hgoes
    | created _ hc => rcases hgoes with rfl | ⟨o, rfl⟩ <;> cases hc
    | opened _ _ hgoes' => exact .opened _ hopen hgoes'

theorem Leads.ne_created (h : stage.Leads stage') (hs : stage ≠ .created) : stage' ≠ .created := by
  cases h with
  | same => exact hs
  | created _ hc => exact absurd hc hs
  | opened _ _ hgoes => rcases hgoes with rfl | ⟨o, rfl⟩ <;> exact fun h => by cases h

/-- A stage with an outcome is left no more. -/
theorem Leads.eq_of_outcome? {o : Outcome} (h : stage.Leads stage') (ho : stage.outcome? = some o) :
    stage' = stage := by
  cases h with
  | same => rfl
  | created _ hc => rw [hc] at ho; cases ho
  | opened _ hopen _ => cases stage <;> cases hopen <;> cases ho

theorem Looks.of_created (h : Looks .created o stage') : stage' = .created := by
  cases h with
  | same => rfl
  | runs hopen | ends o hopen => cases hopen

theorem Looks.outcome (h : stage.Looks o stage') : stage'.outcome? = o := by
  cases h with
  | same | runs | ends => rfl

theorem state_of_isOpen (h : stage.isOpen = true) : stage.state = .running := by
  cases stage <;> first | rfl | cases h

theorem outcome?_eq_some {o : Outcome} (hne : stage ≠ .expired) :
    stage.outcome? = some o ↔ stage = .finished o := by
  cases stage <;> simp_all [outcome?]

/-- A playlist's state goes one step at a time. -/
theorem Meets.moves (h : Meets id handles event stage stage') :
    stage'.state = stage.state ∨ stage.state.Moves stage'.state := by
  cases h with
  | played input => exact .inr trivial
  | dropped => exact .inl rfl
  | looked _ _ _ _ h =>
    cases h with
    | same => exact .inl rfl
    | runs hopen => exact .inl (state_of_isOpen hopen).symm
    | ends o hopen =>
      rw [state_of_isOpen hopen]
      cases o <;> exact .inr trivial

end Stage

theorem Playlist.stage_eq (p : Playlist) : p.stage = p.root.stage := by
  obtain ⟨descriptor, root, handles⟩ := p
  cases root <;> rfl

theorem Playlist.stage_withStage {p : Playlist} (h : p.root.isLeaf = false) (stage : Stage) :
    (p.withStage stage).stage = stage := by
  obtain ⟨descriptor, root, handles⟩ := p
  cases root with
  | leaf => cases h
  | group => rfl

namespace Engine

open Step

variable {lead : ActionId → Prop} {e e' : Engine} {id id' : PlaylistId} {p : Playlist}
  {input : Json} {stage : Stage}

/-- The stage of a playlist. -/
def stage? (e : Engine) (id : PlaylistId) : Option Stage := e.playlists[id]?.map Playlist.stage

/-- A playlist that has just been compiled has not been played. -/
theorem stage?_of_compile {c : Compiler} {d : Descriptor}
    (h : (c.compile d e).result = .ok (e', id)) : e'.stage? id = some .created := by
  obtain ⟨root, shop, hrooted, rfl, rfl, -⟩ := compile_known h
  rw [stage?, List.getElem?_append_right (Nat.le_refl _), Nat.sub_self]
  have hfresh := hrooted.fresh
  cases root with
  | leaf => rfl
  | group => exact congrArg some hfresh.2.1

/-! ## One event -/

theorem stage?_modify_ne (h : id' ≠ id) (w : World) (f : Playlist → Playlist) :
    stage? ⟨w, e.playlists.modify id f⟩ id' = e.stage? id' := by
  simp [stage?, Ne.symm h]

theorem stage?_modify (hp : e.playlists[id]? = some p) (w : World) (f : Playlist → Playlist) :
    stage? ⟨w, e.playlists.modify id f⟩ id = some (f p).stage := by
  simp [stage?, hp]

theorem wakeFrom_stage? (a : ActionId) (first : PlaylistId) (playlists : List Playlist) (w : World)
    (i : Nat) : (wakeFrom a first playlists w).1[i]?.map Playlist.stage =
      playlists[i]?.map Playlist.stage := by
  induction playlists generalizing first w i with
  | nil => rfl
  | cons p rest ih =>
    cases i with
    | zero =>
      simp only [wakeFrom, List.getElem?_cons_zero, Option.map_some, Playlist.stage_eq, wake_stage]
    | succ i => exact ih (first + 1) _ i

theorem withSettled_stage? (e : Engine) (result : World × Option ActionId) (id : PlaylistId) :
    (e.withSettled result).stage? id = e.stage? id := by
  obtain ⟨w, _ | a⟩ := result
  · rfl
  · exact wakeFrom_stage? a 0 e.playlists w id

/-- What running a task makes of the stage of a playlist. -/
theorem perform_stage? (hgroup : ∀ p, e.playlists[id]? = some p → p.root.isLeaf = false)
    (hs : e.stage? id = some stage) (t : Task) :
    ∃ o stage', (e.perform t).1.stage? id = some stage' ∧ stage.Looks o stage' := by
  cases t with
  | timer n => exact ⟨_, stage, (withSettled_stage? e _ id).trans hs, .same⟩
  | listener r => exact ⟨_, stage, (withSettled_stage? e _ id).trans hs, .same⟩
  | group id' place =>
    simp only [perform]
    cases hp : e.playlists[id']? with
    | none => exact ⟨_, stage, hs, .same⟩
    | some p =>
      by_cases hid : id = id'
      · subst hid
        rw [stage?, hp] at hs
        cases hs
        obtain ⟨o, hlooks⟩ := pollPlace_looks (hgroup p hp) place (rootSite id) e.world
        rw [p.stage_eq]
        refine ⟨o, _, ?_, hlooks⟩
        exact (stage?_modify hp _ _).trans (congrArg some (Playlist.stage_eq _))
      · exact ⟨_, stage, (stage?_modify_ne hid _ _).trans hs, .same⟩

theorem runTask_stage? (hgroup : ∀ p, e.playlists[id]? = some p → p.root.isLeaf = false)
    (hs : e.stage? id = some stage) (w : World) (t : Task) :
    ∃ o stage', ({ e with world := w }.runTask t).stage? id = some stage' ∧ stage.Looks o stage' :=
  perform_stage? (e := { e with world := { w with running := some t, rewoken := false } })
    hgroup hs t

/-- What an event makes of the stage of a playlist. -/
theorem Sound.apply_meets (h : Sound lead e) (hp : e.playlists[id]? = some p) (event : Event) :
    ∃ stage', (e.apply event).stage? id = some stage' ∧
      Stage.Meets id p.handles event p.stage stage' := by
  have hs : e.stage? id = some p.stage := by rw [stage?, hp, Option.map_some]
  have hgroup (q : Playlist) (hq : e.playlists[id]? = some q) : q.root.isLeaf = false :=
    (h.known id q hq).1
  have same (he : (e.apply event).stage? id = e.stage? id) : ∃ stage',
      (e.apply event).stage? id = some stage' ∧ Stage.Meets id p.handles event p.stage stage' :=
    ⟨_, he.trans hs, .looked _ _ _ _ .same⟩
  cases event with
  | build | endAction | emit | useBus | releaseBus | moveClock => exact same rfl
  | settle a s => exact same (withSettled_stage? e _ id)
  | compile c d =>
    rcases e.apply_compile c d with heq | ⟨e', id', hr, -, heq⟩
    · exact same (by rw [heq])
    · obtain ⟨root, shop, -, -, rfl, -⟩ := compile_known hr
      refine same ?_
      rw [heq, stage?, List.getElem?_append_left (List.getElem?_eq_some_iff.1 hp).1]
      rfl
  | play id' input inRuntime =>
    rcases e.apply_play id' input inRuntime with heq | ⟨rfl, p', hp', hcreated, heq⟩
    · exact same (by rw [heq])
    · by_cases hid : id = id'
      · subst hid
        obtain rfl := Option.some.inj (hp.symm.trans hp')
        refine ⟨.triggered input, ?_, hcreated ▸ .played input⟩
        rw [heq]
        exact (stage?_modify hp _ _).trans
          (congrArg some (Playlist.stage_withStage (hgroup p hp) _))
      · exact same (by rw [heq]; exact stage?_modify_ne hid _ _)
  | cloneHandle id' =>
    by_cases hid : id = id'
    · subst hid
      exact ⟨_, stage?_modify hp _ _, .looked _ _ _ _ .same⟩
    · exact same (stage?_modify_ne hid _ _)
  | dropHandle id' =>
    by_cases hid : id = id'
    · subst hid
      refine ⟨_, stage?_modify hp _ _, ?_⟩
      dsimp only
      split
      next hcreated =>
        have hcreated : p.stage = .created := hcreated
        split
        next hlast =>
          rw [Playlist.stage_withStage (p := { p with handles := p.handles - 1 }) (hgroup p hp),
            hcreated]
          exact .dropped (Nat.sub_eq_zero_iff_le.1 hlast)
        next => exact .looked _ _ _ _ .same
      next => exact .looked _ _ _ _ .same
    · exact same (stage?_modify_ne hid _ _)
  | pollCompletion id' =>
    simp only [Engine.apply, Engine.pollCompletion]
    cases hp' : e.playlists[id']? with
    | none => exact ⟨_, hs, .looked _ _ _ _ .same⟩
    | some p' =>
      by_cases hid : id = id'
      · subst hid
        obtain rfl := Option.some.inj (hp.symm.trans hp')
        have hlooks := poll_looks (hgroup p hp) (rootSite id) none e.world
        refine ⟨_, stage?_modify hp _ _, ?_⟩
        rw [Playlist.stage_eq, Playlist.stage_eq]
        exact .looked _ _ _ _ hlooks
      · exact ⟨_, (stage?_modify_ne hid _ _).trans hs, .looked _ _ _ _ .same⟩
  | run queue index =>
    rcases e.apply_run queue index with heq | ⟨t, -, heq⟩
    · exact same (by rw [heq])
    · obtain ⟨o, stage', hs', hlooks⟩ := runTask_stage? hgroup hs _ t
      exact ⟨stage', heq ▸ hs', .looked _ o _ _ hlooks⟩

/-! ## Histories -/

/-- What a history makes of the stage of a playlist. -/
theorem Sound.after_leads (h : Sound lead e) (hs : e.stage? id = some stage)
    (history : List Event) :
    ∃ stage', (e.after history).stage? id = some stage' ∧ stage.Leads stage' := by
  induction history generalizing e stage with
  | nil => exact ⟨stage, hs, .same⟩
  | cons event history ih =>
    obtain ⟨p, hp, rfl⟩ := Option.map_eq_some_iff.1 hs
    obtain ⟨stage', hs', hmeets⟩ := h.apply_meets hp event
    obtain ⟨stage'', hs'', hleads⟩ := ih (h.apply event).1 hs'
    exact ⟨stage'', hs'', hmeets.leads.trans hleads⟩

/-- The event does not drop the only handle of the playlist that is left. -/
def Spares (id : PlaylistId) (e : Engine) : Event → Prop
  | .dropHandle id' => id' = id → ∃ p ∈ e.playlists[id]?, 2 ≤ p.handles
  | _ => True

/-- In the course of the history, somebody always has a handle of the playlist. -/
def Holds (id : PlaylistId) : Engine → List Event → Prop
  | _, [] => True
  | e, event :: history => Spares id e event ∧ Holds id (e.apply event) history

theorem Holds.take {earlier later : List Event} (h : Holds id e (earlier ++ later)) :
    Holds id e earlier := by
  induction earlier generalizing e with
  | nil => trivial
  | cons event earlier ih => exact ⟨h.1, ih h.2⟩

instance (e : Engine) : DecidablePred (Spares id e)
  | .dropHandle id' =>
    inferInstanceAs (Decidable (id' = id → ∃ p ∈ e.playlists[id]?, 2 ≤ p.handles))
  | .build _ | .compile _ _ | .play _ _ _ | .cloneHandle _ | .pollCompletion _ | .settle _ _
  | .endAction _ | .emit _ | .useBus _ | .releaseBus | .moveClock _ | .run _ _ =>
    inferInstanceAs (Decidable True)

instance decidableHolds (id : PlaylistId) :
    (e : Engine) → (history : List Event) → Decidable (Holds id e history)
  | _, [] => inferInstanceAs (Decidable True)
  | e, event :: history =>
    have := decidableHolds id (e.apply event) history
    inferInstanceAs (Decidable (Spares id e event ∧ Holds id (e.apply event) history))

/-- A playlist that nobody gives up is as it was created until somebody plays it. -/
theorem Sound.after_held (h : Sound lead e) (hs : e.stage? id = some stage)
    (hne : stage ≠ .expired) {history : List Event} (hheld : Holds id e history) :
    ∃ stage', (e.after history).stage? id = some stage' ∧ stage' ≠ .expired ∧
      (stage = .created → (∀ v, .play id v true ∉ history) → stage' = .created) := by
  induction history generalizing e stage with
  | nil => exact ⟨stage, hs, hne, fun hc _ => hc⟩
  | cons event history ih =>
    obtain ⟨p, hp, rfl⟩ := Option.map_eq_some_iff.1 hs
    obtain ⟨stage', hs', hmeets⟩ := h.apply_meets hp event
    have hone : stage' ≠ .expired ∧
        (p.stage = .created → (∀ v, .play id v true ≠ event) → stage' = .created) := by
      generalize p.stage = stage at hmeets hne
      cases hmeets with
      | played input =>
        refine ⟨?_, fun _ hno => absurd rfl (hno input)⟩
        exact fun hc => by cases hc
      | dropped hlast =>
        obtain ⟨q, hq, htwo⟩ := hheld.1 rfl
        obtain rfl := Option.some.inj (hp.symm.trans hq)
        omega
      | looked _ _ _ _ hlooks =>
        refine ⟨?_, fun hc _ => (hc ▸ hlooks).of_created⟩
        cases hlooks with
        | same => exact hne
        | runs | ends => exact fun hc => by cases hc
    obtain ⟨stage'', hs'', hne'', hkept⟩ := ih (h.apply event).1 hs' hone.1 hheld.2
    refine ⟨stage'', hs'', hne'', fun hc hno => hkept (hone.2 hc fun v heq => ?_) fun v hm => ?_⟩
    · exact hno v (heq ▸ List.mem_cons_self)
    · exact hno v (List.mem_cons_of_mem _ hm)

/-! ## Plays -/

theorem play_ok_iff : (e.play id input true).2 = .ok () ↔ e.stage? id = some .created := by
  unfold play
  constructor
  · intro h
    split at h
    · cases h
    · split at h
      next hs => exact hs
      next => cases h
  · intro h
    rw [stage?] at h
    simp only [Bool.not_true, Bool.false_eq_true, if_false, h]

theorem play_alreadyPlayed (h : e.stage? id ≠ some .created) :
    e.play id input true = (e, .error .alreadyPlayed) := by
  rcases hr : e.play id input true with ⟨e', error | ⟨⟩⟩
  · obtain rfl := play_error hr
    unfold play at hr
    split at hr
    next hout => cases hout
    next =>
      split at hr
      next => cases congrArg Prod.snd hr
      next => exact hr.symm
  · exact absurd (play_ok_iff.1 (by rw [hr])) h

/-- A playlist that somebody has played is not as it was created any more. -/
theorem Sound.apply_play (h : Sound lead e) (hs : e.stage? id = some stage) (input : Json) :
    ∃ stage', (e.apply (.play id input true)).stage? id = some stage' ∧ stage' ≠ .created := by
  by_cases hc : stage = .created
  · subst hc
    rcases hr : e.play id input true with ⟨e', error | ⟨⟩⟩
    · have hok : (e.play id input true).2 = .ok () := play_ok_iff.2 hs
      rw [hr] at hok
      cases hok
    · obtain ⟨p, hp, -, rfl⟩ := play_ok hr
      refine ⟨.triggered input, ?_, fun h => by cases h⟩
      simp only [Engine.apply, hr]
      exact (stage?_modify hp _ _).trans
        (congrArg some (Playlist.stage_withStage (h.known id p hp).1 _))
  · have hne : e.stage? id ≠ some .created := fun h => hc (Option.some.inj (hs.symm.trans h))
    exact ⟨stage, by rw [Engine.apply, play_alreadyPlayed hne, hs], hc⟩

/-! ## Outcomes -/

theorem outcome?_eq (e : Engine) (id : PlaylistId) :
    e.outcome? id = (e.stage? id).bind Stage.outcome? := by
  rw [outcome?, stage?, Option.bind_map]
  rfl

/-- A look at a completion that has resolved yields its outcome and changes nothing. -/
theorem Sound.pollCompletion_ended {o : Outcome} (h : Sound lead e) (ho : e.outcome? id = some o) :
    e.pollCompletion id = (e, some o) := by
  obtain ⟨p, hp, ho⟩ := Option.bind_eq_some_iff.1 ho
  have hsame : e.playlists.modify id (fun q => { q with root := p.root }) = e.playlists := by
    refine List.ext_getElem? ?_
    intro i
    by_cases hi : id = i
    · subst hi
      simp [hp]
    · simp [hi]
  have hpoll : p.root.poll (rootSite id) none e.world = ⟨p.root, e.world, some o, false⟩ := by
    obtain ⟨descriptor, root, handles⟩ := p
    cases root with
    | leaf => cases (h.known id _ hp).1
    | group slot g steps => exact poll_finished ho
  simp only [Engine.pollCompletion, hp, hpoll, modifyPlaylist, hsame]

/-- What a look at a completion yields is the outcome from then on. -/
theorem Sound.outcome?_pollCompletion {o : Outcome} (h : Sound lead e)
    (ho : (e.pollCompletion id).2 = some o) : (e.pollCompletion id).1.outcome? id = some o := by
  unfold Engine.pollCompletion at ho ⊢
  split at ho
  next => cases ho
  next p hp =>
    have hlooks := poll_looks (h.known id p hp).1 (rootSite id) none e.world
    have hstage := stage?_modify hp (p.root.poll (rootSite id) none e.world).world
      fun q => { q with root := (p.root.poll (rootSite id) none e.world).step }
    rw [outcome?_eq]
    refine (congrArg (·.bind Stage.outcome?) hstage).trans ?_
    rw [Option.bind_some, Playlist.stage_eq]
    exact hlooks.outcome.trans ho

end Engine

namespace Production

open Engine Step

variable {P : Production} {earlier later : List Event} {input : Json}

/-- The state that the handles of the playlist show. -/
def state? (P : Production) : Option PlaylistState :=
  P.engine.playlists[P.id]?.map Playlist.state

/-- No handle of the playlist is dropped that is the only one left. -/
def Held (P : Production) : Prop := Holds P.id P.compiled P.history

instance (P : Production) : Decidable P.Held :=
  inferInstanceAs (Decidable (Holds P.id P.compiled P.history))

theorem state?_eq (P : Production) : P.state? = (P.engine.stage? P.id).map Stage.state := by
  rw [state?, stage?, Option.map_map]
  rfl

theorem stage?_compiled (P : Production) : P.compiled.stage? P.id = some .created :=
  stage?_of_compile P.compiles

theorem exists_stage? (P : Production) : ∃ stage, P.engine.stage? P.id = some stage := by
  obtain ⟨stage, hs, -⟩ := P.compiled_sound.after_leads P.stage?_compiled P.history
  exact ⟨stage, hs⟩

theorem Held.take (h : P.Held) (hhistory : P.history = earlier ++ later) :
    (P.upTo earlier).Held := by
  have h : Holds P.id P.compiled P.history := h
  rw [hhistory] at h
  exact h.take

/-- The stage of a playlist that is held: as it was created exactly until it is played. -/
theorem Held.stage? (h : P.Held) : ∃ stage, P.engine.stage? P.id = some stage ∧
    stage ≠ .expired ∧ (stage = .created ↔ ∀ v, .play P.id v true ∉ P.history) := by
  obtain ⟨stage, hs, hne, hkept⟩ :=
    P.compiled_sound.after_held P.stage?_compiled (fun h => by cases h) h
  refine ⟨stage, hs, hne, ?_, hkept rfl⟩
  rintro rfl v hm
  obtain ⟨earlier, later, hhistory⟩ := List.append_of_mem hm
  obtain ⟨stage₁, hs₁⟩ := (P.upTo earlier).exists_stage?
  obtain ⟨stage₂, hs₂, hne₂⟩ := (P.upTo earlier).sound.apply_play hs₁ v
  obtain ⟨stage₃, hs₃, hleads⟩ :=
    ((P.upTo earlier).sound.apply (.play P.id v true)).1.after_leads hs₂ later
  have hend : ((P.upTo earlier).engine.apply (.play P.id v true)).after later = P.engine :=
    P.upTo_after hhistory
  rw [hend] at hs₃
  exact hleads.ne_created hne₂ (Option.some.inj (hs₃.symm.trans hs))

/-- The first play of a playlist that is held counts. -/
theorem Held.played (h : P.Held) (hhistory : P.history = earlier ++ .play P.id input true :: later)
    (hfirst : ∀ v, .play P.id v true ∉ earlier) : P.Played input := by
  obtain ⟨stage, hs, -, hcreated⟩ := (h.take hhistory).stage?
  obtain rfl := hcreated.2 hfirst
  exact ⟨earlier, later, hhistory, play_ok_iff.2 hs⟩

theorem state?_moves (P : Production) (earlier : List Event) (event : Event) :
    ∃ s s', (P.upTo earlier).state? = some s ∧ (P.upTo (earlier ++ [event])).state? = some s' ∧
      (s' = s ∨ s.Moves s') := by
  obtain ⟨stage, hs⟩ := (P.upTo earlier).exists_stage?
  obtain ⟨p, hp, rfl⟩ := Option.map_eq_some_iff.1 hs
  obtain ⟨stage', hs', hmeets⟩ := (P.upTo earlier).sound.apply_meets hp event
  have hnext : (P.upTo earlier).engine.after [event] = (P.upTo (earlier ++ [event])).engine :=
    ((P.upTo earlier).next_engine event).symm
  refine ⟨p.stage.state, stage'.state, ?_, ?_, hmeets.moves⟩
  · rw [state?_eq, hs]
    rfl
  · rw [state?_eq, ← hnext]
    exact congrArg (·.map Stage.state) hs'

/-- The outcome of a playlist stays. -/
theorem outcome?_upTo {o : Outcome} (hhistory : P.history = earlier ++ later)
    (ho : (P.upTo earlier).engine.outcome? P.id = some o) : P.engine.outcome? P.id = some o := by
  rw [outcome?_eq] at ho ⊢
  obtain ⟨stage, hs, ho⟩ := Option.bind_eq_some_iff.1 ho
  obtain ⟨stage', hs', hleads⟩ := (P.upTo earlier).sound.after_leads hs later
  rw [P.upTo_after hhistory, hleads.eq_of_outcome? ho] at hs'
  rw [hs']
  exact ho

/-- The life of a playlist, as the holders of its handles and completions see it.  Its state only
moves from created to running and on to completed or failed.  A play outside the runtime is refused
and changes nothing; of the plays inside, the first is accepted, and every later one is refused and
changes nothing.  The state is created exactly until then, and completed or failed exactly when the
completion has resolved, with a value or with a failure.  The playlist runs with the input of the
first play.  Once the completion has resolved, every look at it yields the same outcome. -/
theorem lifeCycle_spec (P : Production) (hheld : P.Held) :
    (∀ earlier event later, P.history = earlier ++ event :: later →
      ∃ s s', (P.upTo earlier).state? = some s ∧ (P.upTo (earlier ++ [event])).state? = some s' ∧
        (s' = s ∨ s.Moves s')) ∧
    (∀ earlier later s, P.history = earlier ++ later → (P.upTo earlier).state? = some s →
      s.isTerminal = true → P.state? = some s) ∧
    (∀ input, P.engine.play P.id input false = (P.engine, .error .noRuntime)) ∧
    (∀ input, (P.engine.play P.id input true).2 = .ok () ↔ ∀ v, .play P.id v true ∉ P.history) ∧
    (∀ input v, .play P.id v true ∈ P.history →
      P.engine.play P.id input true = (P.engine, .error .alreadyPlayed)) ∧
    (P.state? = some .created ↔ ∀ v, .play P.id v true ∉ P.history) ∧
    (P.state? = some .completed ↔ ∃ u, P.engine.outcome? P.id = some (.ok u)) ∧
    (P.state? = some .failed ↔ ∃ e, P.engine.outcome? P.id = some (.error e)) ∧
    (∀ earlier input later, P.history = earlier ++ .play P.id input true :: later →
      (∀ v, .play P.id v true ∉ earlier) →
        (∃ p, P.engine.playlists[P.id]? = some p ∧
          p.root.Entered (P.engine.scene (fun _ => False) P.id) [] input) ∧
        (P.Distinct → ∀ b ∈ P.engine.world.begun, b.1 ∈ P.plan.leaves →
          b ∈ P.plan.begins P.settled input)) ∧
    (∀ earlier later o, P.history = earlier ++ later →
      (P.upTo earlier).engine.outcome? P.id = some o →
        P.engine.outcome? P.id = some o ∧ P.engine.pollCompletion P.id = (P.engine, some o)) ∧
    (∀ o, (P.engine.pollCompletion P.id).2 = some o →
      (P.engine.pollCompletion P.id).1.outcome? P.id = some o) := by
  obtain ⟨stage, hs, hne, hcreated⟩ := hheld.stage?
  have hstate : P.state? = some stage.state := by rw [state?_eq, hs, Option.map_some]
  have houtcome : P.engine.outcome? P.id = stage.outcome? := by
    rw [outcome?_eq, hs, Option.bind_some]
  refine ⟨fun earlier event _ _ => P.state?_moves earlier event, ?_, fun _ => rfl, fun _ => ?_,
    fun input v hm => ?_, ?_, ?_, ?_, ?_, ?_, fun o ho => P.sound.outcome?_pollCompletion ho⟩
  · intro earlier later s hhistory hs' hterminal
    rw [state?_eq] at hs'
    obtain ⟨stage₁, hs₁, rfl⟩ := Option.map_eq_some_iff.1 hs'
    obtain ⟨o, ho⟩ : ∃ o, stage₁.outcome? = some o := by
      cases stage₁ <;> first | cases hterminal | exact ⟨_, rfl⟩
    obtain ⟨stage₂, hs₂, hleads⟩ := (P.upTo earlier).sound.after_leads hs₁ later
    rw [P.upTo_after hhistory, hleads.eq_of_outcome? ho] at hs₂
    exact (P.state?_eq).trans (congrArg (·.map Stage.state) hs₂)
  · rw [play_ok_iff, hs, Option.some_inj, hcreated]
  · refine play_alreadyPlayed ?_
    rw [hs, ne_eq, Option.some_inj, hcreated]
    exact fun h => h v hm
  · rw [hstate, Option.some_inj, Stage.state_eq_created, or_iff_left hne, hcreated]
  · rw [hstate, houtcome, Option.some_inj, Stage.state_eq_completed]
    exact exists_congr fun u => (Stage.outcome?_eq_some hne).symm
  · rw [hstate, houtcome, Option.some_inj, Stage.state_eq_failed]
    exact exists_congr fun e => (Stage.outcome?_eq_some hne).symm
  · intro earlier input later hhistory hfirst
    obtain ⟨p, hp, hent⟩ := entered (hheld.played hhistory hfirst)
    refine ⟨⟨p, hp, hent⟩, fun hdistinct b hb ha => ?_⟩
    have hstands := stands P.sound hp
    rw [← hstands.begins]
    exact hent.planned P.sound.logged (hstands.sole hdistinct) b hb (hstands.leaves ▸ ha)
  · intro earlier later o hhistory ho
    have hend := outcome?_upTo hhistory ho
    exact ⟨hend, P.sound.pollCompletion_ended hend⟩

/-- A playlist that is played twice, and once outside the runtime, fails and stays as it is. -/
def playedThrice : Production :=
  twoBranches [.play 0 .null false, .cloneHandle 0, .play 0 (.int 1) true, .play 0 (.int 2) true,
    .run .arrivals 0, .settle 0 (.error (.failed "no")), .dropHandle 0, .run .arrivals 0,
    .settle 1 (.ok .null), .run .ready 0]

theorem lifeCycle_spec_playedThrice :
    playedThrice.Held ∧ playedThrice.state? = some .failed ∧
      (∀ input, playedThrice.engine.play playedThrice.id input true =
        (playedThrice.engine, .error .alreadyPlayed)) ∧
      ∃ e, playedThrice.engine.outcome? playedThrice.id = some (.error e) := by
  have hheld : playedThrice.Held := by decide +kernel
  have hstate : playedThrice.state? = some .failed := by decide +kernel
  obtain ⟨-, -, -, -, hagain, -, -, hfailed, -⟩ := lifeCycle_spec playedThrice hheld
  refine ⟨hheld, hstate, fun input => hagain input (.int 1) ?_, hfailed.1 hstate⟩
  exact List.mem_cons_of_mem _ (List.mem_cons_of_mem _ List.mem_cons_self)

end Production

end Rundown
