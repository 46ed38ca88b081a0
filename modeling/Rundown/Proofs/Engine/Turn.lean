import Rundown.Proofs.Engine.Sound

/-!
# Every event keeps the invariant

One lemma for each kind of event, and from them `Engine.Sound.after`: what a whole history keeps.
-/

namespace Rundown

namespace World

/-- The world when the running task `t` stops. -/
def stop (w : World) (t : Task) (ended : Bool) : World :=
  let stopped : World := { w with running := none, rewoken := false }
  if w.rewoken && !ended then stopped.enqueue t else stopped

theorem stop_frame (w : World) (t : Task) (ended : Bool) :
    (w.stop t ended).instances = w.instances ∧ (w.stop t ended).begun = w.begun ∧
      (w.stop t ended).running = none := by
  unfold stop
  split
  · exact enqueue_frame _ t
  · exact ⟨rfl, rfl, rfl⟩

/-- What was due when the task stopped is queued, but for the task itself if it has ended. -/
theorem due_stop {w : World} {t u : Task} {ended : Bool} (hr : w.running = some t) (hu : w.Due u)
    (he : u = t → ended = false) : (w.stop t ended).Due u := by
  have hqueued (h : u ∈ w.ready ∨ u ∈ w.arrivals) : (w.stop t ended).Due u := by
    have hstopped : ({ w with running := none, rewoken := false } : World).Due u :=
      h.elim .inl fun h => .inr (.inl h)
    unfold stop
    split
    · exact (push_keeps _ t (fun _ => False) .ready).due u hstopped
    · exact hstopped
  rcases hu with hu | hu | ⟨hrun, hrewoken⟩
  · exact hqueued (.inl hu)
  · exact hqueued (.inr hu)
  · obtain rfl : t = u := Option.some.inj (hr.symm.trans hrun)
    simp only [stop, hrewoken, he rfl, Bool.not_false, Bool.and_self, if_true]
    exact due_push _ _ .ready

theorem mem_eraseIdx_or {ts : List Task} {index : Nat} {t u : Task} (ht : ts[index]? = some t)
    (hu : u ∈ ts) : u ∈ ts.eraseIdx index ∨ u = t := by
  obtain ⟨i, hi⟩ := List.mem_iff_getElem?.1 hu
  by_cases heq : i = index
  · subst heq
    exact .inr (Option.some.inj (hi.symm.trans ht))
  · exact .inl (List.mem_eraseIdx_iff_getElem?.2 ⟨i, heq, hi⟩)

/-- What was due before a task was taken from its queue still waits, or is that task. -/
theorem due_dequeue {w : World} {queue : Queue} {index : Nat} {t u : Task}
    (ht : (w.queue queue)[index]? = some t) (hidle : w.running = none) (hu : w.Due u) :
    u ∈ (w.dequeue queue index).ready ∨ u ∈ (w.dequeue queue index).arrivals ∨ u = t := by
  rcases hu with hu | hu | ⟨hrun, -⟩
  · cases queue with
    | ready => exact (mem_eraseIdx_or ht hu).imp_right .inr
    | arrivals => exact .inl hu
  · cases queue with
    | ready => exact .inr (.inl hu)
    | arrivals => exact .inr (mem_eraseIdx_or ht hu)
  · rw [hidle] at hrun
    cases hrun

end World

namespace Engine

open Step

variable {lead : ActionId → Prop} {e e' : Engine}

/-! ## The world alone -/

/-- A change of the world that matters to no leaf that exists. -/
theorem Sound.of_world {w : World} {touched : ActionId → Prop} (h : Sound lead e)
    (hk : World.Keeps touched e.world w) (hb : w.begun = e.world.begun)
    (htouched : ∀ a, touched a → e.world.started? a = none)
    (hs : ∀ a, w.started? a = some true → e.world.started? a = some true) :
    Sound lead { e with world := w } ∧ Ticks lead e { e with world := w } := by
  have hno (a : ActionId) (b : Bool) (ha : e.world.started? a = some b) : ¬touched a := by
    intro ht
    rw [htouched a ht] at ha
    cases ha
  have hone : e.world.SettlesOne w := ⟨none, fun a ha _ => (hk.same a (hno a true ha)).2⟩
  exact h.carried (hk.running.trans h.idle) (.of_keeps hk hb hs) hone (.of_follows rfl fun id p _ =>
    .of_keeps (x := e.scene lead id) hk (fun _ hd => hk.due _ hd) (fun a _ ha => hno a true ha)
      fun a _ _ ha => hno a false ha)

theorem Sound.of_settles {w : World} (h : Sound lead e) (hw : World.Settles none e.world w) :
    Sound lead { e with world := w } ∧ Ticks lead e { e with world := w } :=
  h.of_world hw.keeps hw.log (fun _ hn => by cases hn) fun a ha => (hw.started a).symm.trans ha

theorem Sound.build (h : Sound lead e) (action : Action) :
    Sound lead (e.apply (.build action)) ∧ Ticks lead e (e.apply (.build action)) :=
  h.of_world (.of_added rfl rfl rfl fun _ ht => ht) rfl (fun _ ha => ha) fun _ ha =>
    World.started?_of_added rfl (by simp) ha

/-! ## Settling -/

theorem wakeFrom_carries {a : ActionId} {w u : World} {x : PlaylistId → Scene}
    (hx : ∀ id, (x id).playlist = id) (first : PlaylistId) (playlists : List Playlist)
    (hw : World.Settles (some a) w u) {r : List Playlist × World}
    (hr : wakeFrom a first playlists u = r) :
    World.Settles none u r.2 ∧ r.1.length = playlists.length ∧
      ∀ i p, playlists[i]? = some p → ∃ p', r.1[i]? = some p' ∧
        Becomes ((x (first + i)).after w) ((x (first + i)).after r.2) p.root p'.root := by
  induction playlists generalizing first u r with
  | nil =>
    subst hr
    exact ⟨.refl u, rfl, fun i p hp => by cases hp⟩
  | cons p rest ih =>
    obtain ⟨hstep, hrev, -⟩ :=
      wake_revised (x := x first) p.root (rootSite first) u (hx first).symm hw
    simp only [wakeFrom] at hr
    generalize Step.wake a (rootSite first) p.root u = q at hr hstep hrev
    obtain ⟨hsettles, hlength, hrest⟩ := ih (first + 1) (hw.then_frame hstep) rfl
    generalize wakeFrom a (first + 1) rest q.2.1 = r' at hr hsettles hlength hrest
    subst hr
    refine ⟨hstep.then_frame hsettles, congrArg Nat.succ hlength, ?_⟩
    intro i p' hp'
    cases i with
    | zero =>
      cases hp'
      exact ⟨_, rfl, (hrev.then_settles hsettles).becomes⟩
    | succ i =>
      have := hrest i p' hp'
      rwa [Nat.add_right_comm, Nat.add_assoc] at this

/-- A completion may have settled, and whoever awaits it has been woken. -/
theorem withSettled_carries (result : World × Option ActionId) {x : PlaylistId → Scene}
    (hx : ∀ id, (x id).playlist = id) (h : World.Settles result.2 e.world result.1) :
    World.Settles result.2 e.world (e.withSettled result).world ∧
      Carries e (e.withSettled result) (fun id => (x id).after e.world) fun id =>
        (x id).after (e.withSettled result).world := by
  obtain ⟨w, answer⟩ := result
  cases answer with
  | none =>
    exact ⟨h, .of_follows rfl fun id p _ => .of_keeps h.keeps (fun _ hd => h.keeps.due _ hd)
      (fun _ _ _ hn => by cases hn) fun _ _ _ _ hn => by cases hn⟩
  | some a =>
    obtain ⟨hsettles, hlength, heach⟩ := wakeFrom_carries hx 0 e.playlists h rfl
    refine ⟨h.then_frame hsettles, hlength, ?_⟩
    intro id p hp
    have := heach id p hp
    rwa [Nat.zero_add] at this

theorem Sound.settle (h : Sound lead e) (a : ActionId) (s : Settlement) :
    Sound lead (e.apply (.settle a s)) ∧ Ticks lead e (e.apply (.settle a s)) := by
  obtain ⟨hsettles, hcarries⟩ := withSettled_carries
    ((e.world.settle a s).1, if (e.world.settle a s).2 then some a else none)
    (x := e.scene lead) (fun _ => rfl) (World.settle_settles e.world a s)
  exact h.carried (hsettles.keeps.running.trans h.idle) (.of_settles hsettles)
    (.of_settles hsettles) hcarries

/-! ## Handles -/

theorem Sound.refl (h : Sound lead e) : Sound lead e ∧ Ticks lead e e := ⟨h, .refl e⟩

/-- One playlist's root changes, along with the world. -/
theorem modify_carries {w : World} {f : Playlist → Playlist} {id : PlaylistId} {p : Playlist}
    (hp : e.playlists[id]? = some p) (hw : World.Evolves p.root.leaves e.world w)
    (hb : Becomes (e.scene lead id) ((e.scene lead id).after w) p.root (f p).root) :
    Carries e ⟨w, e.playlists.modify id f⟩ (e.scene lead) fun id => (e.scene lead id).after w := by
  refine .modify hp hb fun id' p' hne hp' => .of_evolves (x := e.scene lead id') hw ?_
  intro a ha hx
  have hroots {i : PlaylistId} {q : Playlist} (hi : e.playlists[i]? = some q) :
      (e.playlists.map Playlist.root)[i]? = some q.root := by
    rw [List.getElem?_map, hi]
    rfl
  exact (e.apart lead id').of_ne (hroots hp') (hroots hp) hne hx ha

theorem Sound.modify {w : World} {f : Playlist → Playlist} {id : PlaylistId} {p : Playlist}
    (h : Sound lead e) (hp : e.playlists[id]? = some p)
    (hw : World.Evolves p.root.leaves e.world w)
    (hb : Becomes (e.scene lead id) ((e.scene lead id).after w) p.root (f p).root) :
    Sound lead ⟨w, e.playlists.modify id f⟩ ∧ Ticks lead e ⟨w, e.playlists.modify id f⟩ :=
  h.carried (hw.keeps.running.trans h.idle)
    ((World.Proceeds.of_evolves hw).mono (leaves_subset (mem_roots hp))) (.of_evolves hw)
    (modify_carries hp hw hb)

/-- The number of handles does not matter. -/
theorem Sound.handles {f : Playlist → Playlist} {id : PlaylistId} (h : Sound lead e)
    (hf : ∀ p, (f p).root = p.root) :
    Sound lead (e.modifyPlaylist id f) ∧ Ticks lead e (e.modifyPlaylist id f) := by
  cases hp : e.playlists[id]? with
  | some p => exact h.modify hp (.refl e.world) (hf p ▸ ⟨rfl, fun _ h => h, fun h => h⟩)
  | none =>
    have he : e.modifyPlaylist id f = e := by
      rw [modifyPlaylist, List.modify_eq_self (List.getElem?_eq_none_iff.1 hp)]
    rw [he]
    exact h.refl

theorem Known.unplayed {x : Scene} {place : List Nat} {slot : Slot} {g : Group} {steps : List Step}
    (h : (Step.group slot g steps).Known x place) (hs : g.stage = .created ∨ g.stage = .expired) :
    slot = .idle ∧ g.firstFailure = none ∧ g.kind.Fits steps.length ∧
      ∀ s ∈ steps, s.Untouched x := by
  rcases h with ⟨v, h⟩ | h | h
  · exact (hs.elim (Group.Runs.created h) (Group.Runs.expired h)).elim
  · obtain ⟨hslot, -, hfail, hfits, -⟩ := h.1
    exact ⟨hslot, hfail, hfits, h.child⟩
  · exact ⟨h.1, h.2.2⟩

/-- A playlist that has not been played is given an input. -/
theorem Known.triggered {x : Scene} {w : World} {slot : Slot} {g : Group} {steps : List Step}
    (input : Json) (h : (Step.group slot g steps).Known (x.after w) []) (hs : g.stage = .created) :
    (Step.group slot { g with stage := .triggered input } steps).Entered
      (x.after (w.schedule (.group x.playlist []))) [] input := by
  obtain ⟨-, hfail, hfits, hu⟩ := Known.unplayed h (.inl hs)
  refine ⟨hfits, World.due_schedule w _, fun h => (by cases h), fun h => (by cases h), ?_,
    fun h => (by cases h), fun h => (by cases h), fun h => (by cases h)⟩
  rintro v hv
  cases hv
  refine ⟨rfl, hfail, ?_⟩
  intro s hm
  have hf : Scene.Follows [] s.leaves (x.after w)
      (x.after (w.scheduleAll [.group x.playlist []])) := .scheduleAll w _
  exact (hu s hm).mono hf

theorem play_ok {id : PlaylistId} {input : Json} {inRuntime : Bool}
    (h : e.play id input inRuntime = (e', .ok ())) :
    ∃ p, e.playlists[id]? = some p ∧ p.stage = .created ∧
      e' = ⟨e.world.schedule (.group id []),
        e.playlists.modify id fun p => p.withStage (.triggered input)⟩ := by
  unfold play at h
  split at h
  · cases h
  · split at h
    next hs =>
      obtain ⟨p, hp, hs⟩ := Option.map_eq_some_iff.1 hs
      cases h
      exact ⟨p, hp, hs, rfl⟩
    · cases h

theorem play_error {id : PlaylistId} {input : Json} {inRuntime : Bool} {error : PlaylistError}
    (h : e.play id input inRuntime = (e', .error error)) : e' = e := by
  unfold play at h
  split at h
  · cases h
    rfl
  · split at h
    · cases h
    · cases h
      rfl

/-- A playlist that is played is entered with its input. -/
theorem Sound.play_entered {id : PlaylistId} {input : Json} {inRuntime : Bool} (h : Sound lead e)
    (hplay : e.play id input inRuntime = (e', .ok ())) :
    Sound lead e' ∧ Ticks lead e e' ∧
      ∃ p, e'.playlists[id]? = some p ∧ p.root.Entered (e'.scene lead id) [] input := by
  obtain ⟨p, hp, hs, rfl⟩ := play_ok hplay
  obtain ⟨hgroup, hknown⟩ := h.known id p hp
  obtain ⟨descriptor, root, handles⟩ := p
  cases root with
  | leaf => cases hgroup
  | group slot g steps =>
    have hs : g.stage = .created := hs
    have hent := Known.triggered (x := e.scene lead id) (w := e.world) input hknown hs
    have hw : World.Evolves (Step.group slot g steps).leaves e.world
        (e.world.schedule (.group id [])) := .schedule _ (.refl e.world)
    have hb : Becomes (e.scene lead id) ((e.scene lead id).after (e.world.schedule (.group id [])))
        (.group slot g steps) (.group slot { g with stage := .triggered input } steps) :=
      ⟨rfl, fun v hv => absurd hs (Group.Runs.created hv), fun _ => .inl ⟨input, hent⟩⟩
    obtain ⟨hsound, hticks⟩ := h.modify (f := fun p => p.withStage (.triggered input)) hp hw hb
    have hleaves := (modify_carries (f := fun p => p.withStage (.triggered input)) hp hw hb).leaves
    refine ⟨hsound, hticks, _, (by rw [List.getElem?_modify_eq, hp]; rfl), ?_⟩
    rw [scene_eq lead hleaves]
    exact hent

theorem Sound.play (h : Sound lead e) (id : PlaylistId) (input : Json) (inRuntime : Bool) :
    Sound lead (e.apply (.play id input inRuntime)) ∧
      Ticks lead e (e.apply (.play id input inRuntime)) := by
  rcases hr : e.play id input inRuntime with ⟨e', error | ⟨⟩⟩
  · rw [apply, hr, play_error hr]
    exact h.refl
  · obtain ⟨hsound, hticks, -⟩ := h.play_entered hr
    rw [apply, hr]
    exact ⟨hsound, hticks⟩

theorem Sound.dropHandle (h : Sound lead e) (id : PlaylistId) :
    Sound lead (e.dropHandle id) ∧ Ticks lead e (e.dropHandle id) := by
  unfold Engine.dropHandle
  cases hp : e.playlists[id]? with
  | none =>
    rw [modifyPlaylist, List.modify_eq_self (List.getElem?_eq_none_iff.1 hp)]
    exact h.refl
  | some p =>
    obtain ⟨hgroup, hknown⟩ := h.known id p hp
    refine h.modify hp (.refl e.world) ?_
    obtain ⟨descriptor, root, handles⟩ := p
    cases root with
    | leaf => cases hgroup
    | group slot g steps =>
      have same : Becomes (e.scene lead id) (e.scene lead id) (.group slot g steps)
          (.group slot g steps) := ⟨rfl, fun _ h => h, fun h => h⟩
      dsimp only [Playlist.stage]
      split
      next hs =>
        split
        · obtain ⟨hslot, hfail, hfits, hu⟩ := Known.unplayed hknown (.inl hs)
          exact ⟨rfl, fun v hv => absurd hs (Group.Runs.created hv), fun _ =>
            .inr (.inr ⟨hslot, .inr rfl, hfail, hfits, hu⟩)⟩
        · exact same
      · exact same

theorem Sound.pollCompletion (h : Sound lead e) (id : PlaylistId) :
    Sound lead (e.pollCompletion id).1 ∧ Ticks lead e (e.pollCompletion id).1 := by
  unfold Engine.pollCompletion
  cases hp : e.playlists[id]? with
  | none => exact h.refl
  | some p =>
    obtain ⟨hgroup, hknown⟩ := h.known id p hp
    obtain ⟨hevolves, hbecomes⟩ := poll_becomes (rootSite id) e.world (x := e.scene lead id) rfl rfl
      ((e.apart lead id).of_mem (mem_roots hp)) hgroup hknown rfl
    exact h.modify (f := fun q => { q with root := (p.root.poll (rootSite id) none e.world).step })
      hp hevolves hbecomes

/-! ## Running a task -/

/-- Moving tasks between the queues does not concern a leaf. -/
theorem follows_of_same {x : Scene} {place : List Nat} {actions : List ActionId} {w w' : World}
    {due due' : Task → Prop} (hi : w'.instances = w.instances) (hb : w'.begun = w.begun)
    (hdue : ∀ t, due t → due' t) : Scene.Follows place actions (x.amid w due) (x.amid w' due') where
  playlist := rfl
  due _ := hdue _
  sole _ _ hs := hs
  lead _ hl := hl
  began a v hbegan := by
    show (a, v) ∈ w'.begun ∧ w'.started? a = some true
    rw [hb, World.started?, hi]
    exact hbegan
  started a hs := by
    show w'.started? a = some true
    rwa [World.started?, hi]
  settled a s hs := by
    show w'.settlement? a = some s
    rwa [World.settlement?, hi]
  quiet a _ _ := by
    show w'.settlement? a = w.settlement? a
    rw [World.settlement?, hi]
    rfl
  unbegun a _ _ hu := by
    show w'.started? a = some false
    rwa [World.started?, hi]

/-- A timer or a listener that is not the task of a group settles at most one completion. -/
theorem perform_settled (lead : ActionId → Prop) {t : Task} {result : World × Option ActionId}
    (ended : Bool) (ht : ∀ id place, t ≠ .group id place)
    (h : World.Settles result.2 e.world result.1) :
    World.Settles result.2 e.world (e.withSettled result).world ∧
      Carries e (e.withSettled result) (fun id => (e.scene lead id).during e.world t)
        fun id => (e.scene lead id).once (e.withSettled result).world t ended := by
  obtain ⟨hsettles, hcarries⟩ := withSettled_carries result (x := e.scene lead) (fun _ => rfl) h
  refine ⟨hsettles, Carries.trans (y := fun id => (e.scene lead id).after e.world)
    (.of_follows rfl fun id p _ => .of_during fun below => ht id _) (hcarries.trans
      (.of_follows rfl fun id p _ => .once fun below => ht id _))⟩

theorem perform_carries (lead : ActionId → Prop) (e : Engine) (t : Task)
    (hknown : ∀ (id : PlaylistId) (p : Playlist), e.playlists[id]? = some p →
      p.root.Known ((e.scene lead id).during e.world t) []) :
    World.Proceeds e.leaves e.world (e.perform t).1.world ∧
      e.world.SettlesOne (e.perform t).1.world ∧ (e.perform t).1.world.running = e.world.running ∧
      Carries e (e.perform t).1 (fun id => (e.scene lead id).during e.world t)
        fun id => (e.scene lead id).once (e.perform t).1.world t (e.perform t).2 := by
  cases t with
  | timer n =>
    obtain ⟨hsettles, hcarries⟩ := perform_settled lead (t := .timer n) (e.perform (.timer n)).2
      (fun _ _ h => by cases h) (e.world.runTimer_settles n)
    exact ⟨.of_settles hsettles, .of_settles hsettles, hsettles.keeps.running, hcarries⟩
  | listener r =>
    obtain ⟨hsettles, hcarries⟩ := perform_settled lead (t := .listener r)
      (e.perform (.listener r)).2 (fun _ _ h => by cases h) (e.world.runListener_settles r)
    exact ⟨.of_settles hsettles, .of_settles hsettles, hsettles.keeps.running, hcarries⟩
  | group id place =>
    have hne (id' : PlaylistId) (h : id' ≠ id) (below : List Nat) :
        Task.group id place ≠ .group id' ([] ++ below) := fun heq => h (Task.group.inj heq).1.symm
    simp only [perform]
    cases hp : e.playlists[id]? with
    | none =>
      refine ⟨.of_same rfl rfl, .of_settles (.refl e.world), rfl, .of_follows rfl ?_⟩
      intro id' p hp'
      have h : id' ≠ id := by
        rintro rfl
        rw [hp] at hp'
        cases hp'
      exact .during_once (x := e.scene lead id') (hne id' h) (.refl e.world)
        fun a _ _ => List.not_mem_nil
    | some p =>
      obtain ⟨hevolves, hrevised, -⟩ := pollPlace_revised (rootSite id)
        (x := e.scene lead id) (t := .group id place) (w := e.world) rfl
        ((e.apart lead id).of_mem (mem_roots hp)) rfl (hknown id p hp) rfl
      refine ⟨(World.Proceeds.of_evolves hevolves).mono (leaves_subset (mem_roots hp)),
        .of_evolves hevolves, hevolves.keeps.running, Carries.modify hp hrevised.becomes ?_⟩
      intro id' p' h hp'
      have hroots {i : PlaylistId} {q : Playlist} (hi : e.playlists[i]? = some q) :
          (e.playlists.map Playlist.root)[i]? = some q.root := by
        rw [List.getElem?_map, hi]
        rfl
      exact .during_once (x := e.scene lead id') (hne id' h) hevolves fun a ha hx =>
        (e.apart lead id').of_ne (hroots hp') (hroots hp) h hx ha

section Taken

variable {w : World} {t : Task} (hi : w.instances = e.world.instances)
  (hb : w.begun = e.world.begun)
  (hdue : ∀ u, e.world.Due u → u ∈ w.ready ∨ u ∈ w.arrivals ∨ u = t)

include hi hb hdue

/-- Taking a task from its queue, which leaves the world `w`, concerns no playlist while the task
runs. -/
theorem taken_carries (lead : ActionId → Prop) :
    Carries e { e with world := { w with running := some t, rewoken := false } } (e.scene lead)
      fun id => (e.scene lead id).during { w with running := some t, rewoken := false } t := by
  refine .of_follows rfl fun id p _ => follows_of_same (x := e.scene lead id) hi hb ?_
  intro u hu
  rcases hdue u hu with hu | hu | hu
  · exact .inl (.inl hu)
  · exact .inl (.inr (.inl hu))
  · exact .inr hu

theorem Sound.known_during (h : Sound lead e) {id : PlaylistId} {p : Playlist}
    (hp : e.playlists[id]? = some p) :
    p.root.Known ((e.scene lead id).during { w with running := some t, rewoken := false } t) [] := by
  obtain ⟨p', hp', hbecomes⟩ := (taken_carries hi hb hdue lead).each id p hp
  obtain rfl := Option.some.inj (hp.symm.trans hp')
  exact hbecomes.known (h.known id p hp).2

/-- Running a task that has been taken from its queue, which left the world `w`. -/
theorem Sound.runTask (h : Sound lead e) :
    Sound lead ({ e with world := w }.runTask t) ∧
      Ticks lead e ({ e with world := w }.runTask t) := by
  let w₁ : World := { w with running := some t, rewoken := false }
  let e₁ : Engine := { e with world := w₁ }
  have htaken : Carries e e₁ (e.scene lead) fun id => (e.scene lead id).during w₁ t :=
    taken_carries hi hb hdue lead
  obtain ⟨hproceeds, hone, hrunning, hcarries⟩ := perform_carries lead e₁ t fun id p hp =>
    h.known_during hi hb hdue hp
  generalize hr : e₁.perform t = r at hproceeds hone hrunning hcarries
  have hrun : ({ e with world := w }.runTask t) = { r.1 with world := r.1.world.stop t r.2 } := by
    subst hr
    rfl
  obtain ⟨hinstances, hbegun, hidle⟩ := World.stop_frame r.1.world t r.2
  rw [hrun]
  have hbefore : World.Proceeds e.leaves e.world w₁ := .of_same hi hb
  refine h.carried hidle (hbefore.trans (hproceeds.trans (.of_same hinstances hbegun)))
    (hone.congr hi hinstances) ((htaken.trans hcarries).trans (.of_follows rfl fun id p _ =>
      follows_of_same (x := e.scene lead id) hinstances hbegun fun u hu =>
        World.due_stop hrunning hu.1 hu.2))

end Taken

/-! ## Compiling -/

/-- Another scene in which fewer actions belong to one leaf only. -/
theorem follows_of_sole {x y : Scene} {place : List Nat} {actions : List ActionId}
    (hworld : y.world = x.world) (hplaylist : y.playlist = x.playlist) (hdue : y.due = x.due)
    (hlead : y.lead = x.lead) (hsole : ∀ a, y.sole a → x.sole a) :
    Scene.Follows place actions x y where
  playlist := hplaylist
  due _ h := by rwa [hdue]
  sole a _ := hsole a
  lead a h := by rwa [hlead] at h
  began _ _ h := by rwa [hworld]
  started _ h := by rwa [hworld]
  settled _ _ h := by rwa [hworld]
  quiet _ _ _ := by rw [hworld]
  unbegun _ _ _ h := by rwa [hworld]

/-- What a compiled playlist is, when it has just been added. -/
theorem compile_known {c : Compiler} {d : Descriptor} {id : PlaylistId}
    (h : (c.compile d e).result = .ok (e', id)) :
    ∃ root shop, c.Rooted d ⟨e.world.instances.length, []⟩ root shop ∧ id = e.playlists.length ∧
      e' = ⟨Compiler.addActions shop.calls e.world, e.playlists ++ [⟨d, root, 1⟩]⟩ ∧
      e'.leaves = e.leaves ++ root.leaves := by
  obtain ⟨root, shop, hyields, hid, rfl⟩ := Compiler.compile_ok h
  refine ⟨root, shop, Compiler.compileRoot_yields hyields, hid, rfl, ?_⟩
  simp only [leaves, List.map_append, leavesList_append, List.map_cons, List.map_nil, leavesList,
    List.append_nil]

/-- Adding a playlist, along with the actions that were built for it. -/
theorem Ticks.added {w : World} (p : Playlist)
    (hkeeps : World.Keeps (fun a => e.world.started? a = none) e.world w)
    (hproceeds : World.Proceeds e.leaves e.world w) : Ticks lead e ⟨w, e.playlists ++ [p]⟩ := by
  have hno (a : ActionId) (b : Bool) (ha : e.world.started? a = some b) :
      ¬e.world.started? a = none := by
    intro hn
    rw [ha] at hn
    cases hn
  refine ⟨⟨hproceeds.started, hproceeds.settled, fun id q hq => ⟨q, ?_, ?_⟩⟩,
    none, fun a ha _ => (hkeeps.same a (hno a true ha)).2⟩
  · rw [List.getElem?_append_left (List.getElem?_eq_some_iff.1 hq).1, hq]
  · refine Becomes.trans (y := (e.scene lead id).after w) (.of_follows (.of_keeps
      (x := e.scene lead id) hkeeps (fun _ hd => hkeeps.due _ hd) (fun a _ ha => hno a true ha)
      fun a _ _ ha => hno a false ha))
      (.of_follows (follows_of_sole rfl rfl rfl rfl ?_))
    intro a ha
    have ha : (leavesList ((e.playlists ++ [p]).map Playlist.root)).count a ≤ 1 := ha
    rw [List.map_append, leavesList_append, List.count_append] at ha
    exact Nat.le_trans (Nat.le_add_right _ _) ha

/-- The leaves of an added playlist that are its own have not begun. -/
theorem Sound.unbegun_of_added (h : Sound lead e) {w : World} {actions : List ActionId}
    {a : ActionId} (hproceeds : World.Proceeds e.leaves e.world w) (ha : a ∈ actions)
    (hexists : a < w.instances.length) (hsole : (e.leaves ++ actions).count a ≤ 1) :
    w.started? a = some false ∧ ¬lead a := by
  have hnew : a ∉ e.leaves := by
    intro hold
    rw [List.count_append] at hsole
    have hold := List.count_pos_iff.2 hold
    have ha := List.count_pos_iff.2 ha
    omega
  have hunbegun : w.started? a ≠ some true := fun ha =>
    hnew ((hproceeds.began a ha).elim (h.begun a) fun hm => hm)
  exact ⟨World.started?_of_lt hexists hunbegun, fun hl =>
    hunbegun (hproceeds.started a (h.leading a hl))⟩

/-- The actions of a compiled playlist exist once those that were built for it do. -/
theorem leaves_exist {c : Compiler} {d : Descriptor} {root : Step} {shop : Workshop}
    (hrooted : c.Rooted d ⟨e.world.instances.length, []⟩ root shop) (hknows : e.Knows d) :
    ∀ a ∈ root.leaves, a < (Compiler.addActions shop.calls e.world).instances.length := by
  intro a ha
  rw [Compiler.addActions_instances, List.length_append, List.length_map]
  have hbuilt : (Compiler.built shop.calls).length = d.references := by
    rw [hrooted.grown.length_built, Descriptor.length_refs, Compiler.built, List.filterMap_nil,
      List.length_nil, Nat.zero_add]
  rw [hrooted.leaves] at ha
  rcases Descriptor.plan_leaves ha with ha | ⟨-, ha⟩
  · exact Nat.lt_of_lt_of_le (hknows a ha) (Nat.le_add_right _ _)
  · rwa [hbuilt]

theorem Sound.compile {c : Compiler} {d : Descriptor} {id : PlaylistId} (h : Sound lead e)
    (hknows : e.Knows d) (hcompile : (c.compile d e).result = .ok (e', id)) :
    Sound lead e' ∧ Ticks lead e e' := by
  obtain ⟨root, shop, hrooted, -, rfl, hleaves⟩ := compile_known hcompile
  obtain ⟨hbegun, hrunning, hdue⟩ := Compiler.addActions_frame shop.calls e.world
  have hinstances := Compiler.addActions_instances shop.calls e.world
  have hexists := leaves_exist hrooted hknows
  generalize Compiler.addActions shop.calls e.world = w at *
  have hkeeps := World.Keeps.of_added hinstances hbegun hrunning hdue
  have hproceeds : World.Proceeds e.leaves e.world w := .of_keeps hkeeps hbegun fun a =>
    World.started?_of_added hinstances (by simp)
  have hticks : Ticks lead e ⟨w, e.playlists ++ [⟨d, root, 1⟩]⟩ := .added _ hkeeps hproceeds
  refine ⟨⟨hrunning.trans h.idle, hproceeds.logged h.logged, ?_,
    fun a ha => hproceeds.started a (h.leading a ha), ?_⟩, hticks⟩
  · intro a ha
    rw [hleaves]
    exact List.mem_append_left _ ((hproceeds.began a ha).elim (h.begun a) fun hm => hm)
  · intro id p hp
    rw [List.getElem?_append] at hp
    split at hp
    · obtain ⟨p', hp', hb⟩ := hticks.each id p hp
      obtain ⟨hgroup, hknown⟩ := h.known id p hp
      rw [List.getElem?_append_left ‹_›, hp] at hp'
      obtain rfl := Option.some.inj hp'
      exact ⟨hgroup, hb.known hknown⟩
    · obtain rfl : (⟨d, root, 1⟩ : Playlist) = p := by
        have := List.mem_of_getElem? hp
        rwa [List.mem_singleton, eq_comm] at this
      refine ⟨hrooted.group, .inr (.inl ⟨hrooted.fresh, ?_⟩)⟩
      intro a ha hsole
      exact h.unbegun_of_added hproceeds ha (hexists a ha) (hleaves ▸ hsole)

/-! ## Histories -/

/-- An event that compiles compiles, or nothing happens. -/
theorem apply_compile (e : Engine) (c : Compiler) (d : Descriptor) :
    e.apply (.compile c d) = e ∨ ∃ e' id, (c.compile d e).result = .ok (e', id) ∧ e.Knows d ∧
      e.apply (.compile c d) = e' := by
  rcases hr : (c.compile d e).result with error | ⟨e', id⟩
  · exact .inl (by simp only [Engine.apply, hr])
  · by_cases hknows : e.Knows d
    · exact .inr ⟨e', id, rfl, hknows, by simp only [Engine.apply, hr, if_pos hknows]⟩
    · exact .inl (by simp only [Engine.apply, hr, if_neg hknows])

/-- An event that plays triggers a playlist that was created, or nothing happens. -/
theorem apply_play (e : Engine) (id : PlaylistId) (input : Json) (inRuntime : Bool) :
    e.apply (.play id input inRuntime) = e ∨ inRuntime = true ∧
      ∃ p, e.playlists[id]? = some p ∧ p.stage = .created ∧
        e.apply (.play id input inRuntime) = ⟨e.world.schedule (.group id []),
          e.playlists.modify id fun p => p.withStage (.triggered input)⟩ := by
  rcases hr : e.play id input inRuntime with ⟨e', error | ⟨⟩⟩
  · exact .inl (by rw [Engine.apply, hr, play_error hr])
  · cases inRuntime with
    | false => cases hr
    | true =>
      obtain ⟨p, hp, hcreated, rfl⟩ := play_ok hr
      exact .inr ⟨rfl, p, hp, hcreated, by rw [Engine.apply, hr]⟩

/-- An event that runs a task takes it from its queue, or nothing happens. -/
theorem apply_run (e : Engine) (queue : Queue) (index : Nat) :
    e.apply (.run queue index) = e ∨ ∃ t, (e.world.queue queue)[index]? = some t ∧
      e.apply (.run queue index) = { e with world := e.world.dequeue queue index }.runTask t := by
  cases ht : (e.world.queue queue)[index]? with
  | none => exact .inl (by simp only [Engine.apply, ht])
  | some t => exact .inr ⟨t, rfl, by simp only [Engine.apply, ht]⟩

theorem Sound.apply (h : Sound lead e) (event : Event) :
    Sound lead (e.apply event) ∧ Ticks lead e (e.apply event) := by
  cases event with
  | build action => exact h.build action
  | compile c d =>
    rcases e.apply_compile c d with heq | ⟨e', id, hr, hknows, heq⟩ <;> rw [heq]
    · exact h.refl
    · exact h.compile hknows hr
  | play id input inRuntime => exact h.play id input inRuntime
  | cloneHandle id => exact h.handles fun _ => rfl
  | dropHandle id => exact h.dropHandle id
  | pollCompletion id => exact h.pollCompletion id
  | settle a s => exact h.settle a s
  | endAction a => exact h.of_settles (e.world.endAction_settles a)
  | emit s => exact h.of_settles (e.world.emit_settles s)
  | useBus change => exact h.of_settles (.of_unqueued rfl rfl rfl rfl rfl rfl)
  | releaseBus => exact h.of_settles e.world.releaseBus_settles
  | moveClock now => exact h.of_settles (e.world.moveClock_settles now)
  | run queue index =>
    rcases e.apply_run queue index with heq | ⟨t, ht, heq⟩ <;> rw [heq]
    · exact h.refl
    · exact h.runTask rfl rfl fun _ => World.due_dequeue ht h.idle

/-- Whatever happens to a sound engine, and in whatever order, it stays sound, and a playlist that
was entered stays entered with its input. -/
theorem Sound.after (h : Sound lead e) (history : List Event) :
    Sound lead (e.after history) ∧ Turns lead e (e.after history) := by
  induction history generalizing e with
  | nil => exact ⟨h, .refl e⟩
  | cons event history ih =>
    obtain ⟨hsound, hticks⟩ := h.apply event
    obtain ⟨hsound', hturns'⟩ := ih hsound
    exact ⟨hsound', hticks.toTurns.trans hturns'⟩

/-- An engine on which nothing has happened. -/
theorem Sound.ofCapacity (capacity : Nat) : Sound (fun _ => False) (.ofCapacity capacity) where
  idle := rfl
  logged := ⟨List.nodup_nil, fun _ hm => by cases hm⟩
  begun _ ha := by cases ha
  leading _ hl := hl.elim
  known _ _ hp := by cases hp

end Engine

end Rundown
