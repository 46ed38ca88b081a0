import Rundown.Proofs.Engine.Upkeep
import Rundown.Proofs.World.ExcerptTasks

/-!
# A playlist beside others and alone

`Excerpt.Mirrors` relates an engine with several playlists to one that holds only one of them.  What
happens to this playlist happens to it in both (`Mirrors.perform_own`), and what happens to the
others leaves the second engine as it is (`Mirrors.perform_foreign`), since looks at a playlist
compare worlds only by what its actions and its tasks show of them (`Excerpt.comparison`).
-/

namespace Rundown

namespace Step

variable {r : ActionId → ActionId → Prop} {s s' : Step}

/-- Every leaf of a twin has a counterpart. -/
theorem Twin.leaves (h : Twin r s s') : ∀ a ∈ s.leaves, ∃ a' ∈ s'.leaves, r a a' := by
  induction s using induction generalizing s' with
  | leaf slot a =>
    obtain ⟨a', rfl, hr⟩ := h.of_leaf
    intro b hb
    obtain rfl := List.mem_singleton.1 hb
    exact ⟨a', List.mem_singleton_self _, hr⟩
  | group slot g steps ih =>
    obtain ⟨steps', rfl, hsteps⟩ := h.of_group
    intro a ha
    rw [Step.leaves, leavesList_eq] at ha
    obtain ⟨s, hs, ha⟩ := List.mem_flatMap.1 ha
    obtain ⟨i, hi⟩ := List.mem_iff_getElem?.1 hs
    obtain ⟨s', hi', htwin⟩ := forall₂_getElem? hsteps hi
    obtain ⟨a', ha', hr⟩ := ih s hs htwin a ha
    exact ⟨a', leaves_subset (List.mem_of_getElem? hi') ha', hr⟩

/-- Related actions may be related in another way. -/
theorem Twin.mono {q : ActionId → ActionId → Prop} (h : Twin r s s')
    (hq : ∀ a ∈ s.leaves, ∀ a', r a a' → q a a') : Twin q s s' := by
  induction s using induction generalizing s' with
  | leaf slot a =>
    obtain ⟨a', rfl, hr⟩ := h.of_leaf
    exact ⟨rfl, hq a (List.mem_singleton_self a) a' hr⟩
  | group slot g steps ih =>
    obtain ⟨steps', rfl, hsteps⟩ := h.of_group
    refine twin_group.2 ⟨rfl, rfl, List.forall₂_iff_zip.2 ⟨hsteps.length_eq, fun hzip => ?_⟩⟩
    have hs := (List.of_mem_zip hzip).1
    exact ih _ hs ((List.forall₂_iff_zip.1 hsteps).2 hzip) fun a ha => hq a (leaves_subset hs ha)

end Step

namespace Engine

open Step

variable {a : ActionId} {w : World}

/-- Running a task is carrying it out and stopping it. -/
theorem world_runTask (e : Engine) (t : Task) :
    let performed :=
      Engine.perform ⟨{ e.world with running := some t, rewoken := false }, e.playlists⟩ t
    (e.runTask t).world = performed.1.world.stop t performed.2 := rfl

/-- Nobody awaits an action that no playlist has. -/
theorem wakeFrom_none (first : PlaylistId) {playlists : List Playlist}
    (h : ∀ p ∈ playlists, a ∉ p.root.leaves) : wakeFrom a first playlists w = (playlists, w) := by
  induction playlists generalizing first w with
  | nil => rfl
  | cons p rest ih =>
    simp only [wakeFrom, wake_of_notMem (h p List.mem_cons_self),
      ih (first + 1) fun q hq => h q (List.mem_cons_of_mem _ hq)]

/-- Only the playlist that has the action is woken. -/
theorem wakeFrom_only (first : PlaylistId) {playlists : List Playlist} {k : Nat} {p : Playlist}
    (hk : playlists[k]? = some p)
    (h : ∀ i q, playlists[i]? = some q → i ≠ k → a ∉ q.root.leaves) :
    wakeFrom a first playlists w =
      (playlists.modify k fun q => { q with root := (p.root.wake a (rootSite (first + k)) w).1 },
        (p.root.wake a (rootSite (first + k)) w).2.1) := by
  induction playlists generalizing first k w with
  | nil => cases hk
  | cons q rest ih =>
    cases k with
    | zero =>
      cases hk
      have hrest : ∀ q ∈ rest, a ∉ q.root.leaves := fun q hq => by
        obtain ⟨i, hi⟩ := List.mem_iff_getElem?.1 hq
        exact h (i + 1) q hi (Nat.succ_ne_zero i)
      simp only [wakeFrom, wakeFrom_none (first + 1) hrest]
      rfl
    | succ k =>
      have hq : a ∉ q.root.leaves := h 0 q rfl (Nat.succ_ne_zero k).symm
      have hrest := ih (w := w) (first + 1) hk fun i q hi hne =>
        h (i + 1) q hi fun heq => hne (Nat.succ.inj heq)
      rw [Nat.add_assoc, Nat.add_comm 1 k] at hrest
      simp only [wakeFrom, wake_of_notMem hq, hrest]
      rfl

end Engine

namespace Excerpt

open Engine Step

variable {x : Excerpt} {n n' : Numbers} {e e' : Engine} {w w' : World} {id : PlaylistId}
  {a a' : ActionId} {t t' : Task} {current : Option Task}

/-- A task of the excerpt stops in both worlds. -/
theorem Shows.stop_own (h : x.Shows n w w') (hrunning : w.running = some t)
    (ht : x.task? n t = some t') (ended : Bool) :
    x.Shows n (w.stop t ended) (w'.stop t' ended) := by
  have hrunning' : w'.running = some t' := by rw [h.running, hrunning, Option.bind_some, ht]
  have hrewoken : w'.rewoken = w.rewoken := by
    rw [h.rewoken, hrunning', Option.isSome_some, Bool.and_true]
  have hstopped : x.Shows n { w with running := none, rewoken := false }
      { w' with running := none, rewoken := false } := { h with
    running := rfl
    rewoken := rfl
    below := fun u hu => h.below u (hu.imp_right (Or.imp_right fun hn => by cases hn)) }
  unfold World.stop
  rw [hrewoken]
  dsimp only
  split
  · exact hstopped.push_own ht .ready
  · exact hstopped

/-- Another task stops. -/
theorem Shows.stop_foreign (h : x.Shows n w w') (hrunning : w.running = some t)
    (ht : x.task? n t = none) (ended : Bool) : x.Shows n (w.stop t ended) w' := by
  have hrunning' : w'.running = none := by rw [h.running, hrunning, Option.bind_some, ht]
  have hstopped : x.Shows n { w with running := none, rewoken := false } w' := { h with
    running := hrunning'
    rewoken := by rw [h.rewoken, hrunning', Option.isSome_none, Bool.and_false, Bool.and_false]
    below := fun u hu => h.below u (hu.imp_right (Or.imp_right fun hn => by cases hn)) }
  unfold World.stop
  dsimp only
  split
  · exact hstopped.push_foreign ht (h.below t (.inr (.inr hrunning))) .ready
  · exact hstopped

/-- A running task that belongs to the excerpt still does once more numbers are told. -/
theorem free_of_current (hext : n.Extends n')
    (hcurrent : ∀ t, current = some t → (x.task? n t).isSome = true)
    (hrunning : w.running = current) : x.Free n' w := by
  intro t ht
  obtain ⟨t', ht'⟩ := Option.isSome_iff_exists.1 (hcurrent t (hrunning ▸ ht))
  exact Option.isSome_iff_exists.2 ⟨t', task?_mono hext ht'⟩

/-- The actions are counterparts. -/
def Counterpart (x : Excerpt) (a a' : ActionId) : Prop := x.action? a = some a'

/-- Worlds compared by what they show of the excerpt, while one of its tasks runs or none. -/
def comparison (x : Excerpt) (n : Numbers) (current : Option Task) (hx : x.Discreet)
    (hcurrent : ∀ t, current = some t → (x.task? n t).isSome = true) : Comparison where
  action := x.Counterpart
  task t t' := ∃ place, t = .group x.playlist place ∧ t' = .group 0 place
  world w w' := ∃ n', n.Extends n' ∧ x.Shows n' w w' ∧ w.running = current
  settlement? := by
    rintro w w' a a' ⟨n', -, h, -⟩ ha
    exact h.settlement?_own ha
  begins := by
    rintro w w' a a' v ⟨n', hext, h, hrunning⟩ ha
    have hfree : x.Free n' w := free_of_current hext hcurrent hrunning
    obtain ⟨n'', hext', hshows, hbegun⟩ := h.beginAction_own hfree hx ha v
    have hrunning' := (w.beginAction_keeps a v).running.trans hrunning
    exact ⟨⟨n'', hext.trans hext', hshows, hrunning'⟩, hbegun⟩
  schedule := by
    rintro w w' _ _ ⟨n', hext, h, hrunning⟩ ⟨place, rfl, rfl⟩
    have hfree : x.Free n' w := free_of_current hext hcurrent hrunning
    exact ⟨n', hext, h.schedule_own hfree (by simp [task?]),
      (World.running_schedule _ _).trans hrunning⟩

/-- What the other playlists keep: the world shows of the excerpt what `u` does. -/
def upkeep (x : Excerpt) (n : Numbers) (u : World) (current : Option Task) : Upkeep where
  actions := x.Foreign
  playlists id := id ≠ x.playlist
  holds w := x.Shows n w u ∧ w.running = current
  begins v h ha := ⟨h.1.beginAction_foreign ha v, (World.beginAction_keeps _ _ v).running.trans h.2⟩
  schedule _ h hid := ⟨h.1.schedule_foreign (if_neg hid) trivial,
    (World.running_schedule _ _).trans h.2⟩

/-- The engine `e` holds the playlist of the excerpt as `e'` does, where it is alone.  The leaves of
its other playlists are foreign. -/
structure Mirrors (x : Excerpt) (n : Numbers) (e e' : Engine) : Prop where
  world : x.Shows n e.world e'.world
  own : ∃ p p', e.playlists[x.playlist]? = some p ∧ e'.playlists = [p'] ∧
    p'.handles = p.handles ∧ Twin x.Counterpart p.root p'.root
  foreign : ∀ id p, e.playlists[id]? = some p → id ≠ x.playlist → ∀ a ∈ p.root.leaves, x.Foreign a

namespace Mirrors

/-- An action outside the excerpt is at no leaf of its playlist. -/
theorem ne_of_mem (h : x.Mirrors n e e') (ha : x.action? a = none) {p : Playlist}
    (hp : e.playlists[id]? = some p) (hmem : a ∈ p.root.leaves) : id ≠ x.playlist := by
  rintro rfl
  obtain ⟨q, q', hq, -, -, htwin⟩ := h.own
  obtain rfl := Option.some.inj (hp.symm.trans hq)
  obtain ⟨a', -, hcounterpart⟩ := htwin.leaves a hmem
  cases ha.symm.trans hcounterpart

theorem sorted (h : x.Mirrors n e e') (u : World) (current : Option Task) :
    (x.upkeep n u current).Sorted e := fun id p hp a ha =>
  ⟨fun hforeign => h.ne_of_mem hforeign.1 hp ha, fun hid => h.foreign id p hp hid a ha⟩

/-- Something has happened to the other playlists. -/
theorem of_keeps (h : x.Mirrors n e e') (current : Option Task) {e₁ : Engine}
    (hk : (x.upkeep n e'.world current).Keeps e e₁) :
    x.Mirrors n e₁ e' ∧ e₁.world.running = current := by
  refine ⟨⟨hk.holds.1, ?_, fun id p hp hid a ha => (hk.sorted id p hp a ha).2 hid⟩, hk.holds.2⟩
  obtain ⟨p, p', hp, hp', hhandles, htwin⟩ := h.own
  exact ⟨p, p', (hk.others x.playlist fun hne => hne rfl).trans hp, hp', hhandles, htwin⟩

/-- The playlist of the excerpt has changed in both engines. -/
theorem modify_own (h : x.Mirrors n e e') (hw : x.Shows n' w w') {f f' : Playlist → Playlist}
    (hf : ∀ p p', e.playlists[x.playlist]? = some p → e'.playlists = [p'] →
      p'.handles = p.handles → Twin x.Counterpart p.root p'.root →
        (f' p').handles = (f p).handles ∧ Twin x.Counterpart (f p).root (f' p').root) :
    x.Mirrors n' ⟨w, e.playlists.modify x.playlist f⟩ ⟨w', e'.playlists.modify 0 f'⟩ := by
  obtain ⟨p, p', hp, hp', hhandles, htwin⟩ := h.own
  obtain ⟨hhandles', htwin'⟩ := hf p p' hp hp' hhandles htwin
  refine ⟨hw, ⟨f p, f' p', ?_, ?_, hhandles', htwin'⟩, fun id q hq hid a ha => ?_⟩
  · rw [List.getElem?_modify_eq, hp]
    rfl
  · rw [hp']
    rfl
  · rw [List.getElem?_modify_ne _ _ (Ne.symm hid)] at hq
    exact h.foreign id q hq hid a ha

/-- Another playlist has changed, but not its leaves. -/
theorem modify_foreign (h : x.Mirrors n e e') (hw : x.Shows n w e'.world) (hid : id ≠ x.playlist)
    {f : Playlist → Playlist} (hf : ∀ p, (f p).root.leaves = p.root.leaves) :
    x.Mirrors n ⟨w, e.playlists.modify id f⟩ e' := by
  obtain ⟨p, p', hp, hp', hhandles, htwin⟩ := h.own
  refine ⟨hw, ⟨p, p', ?_, hp', hhandles, htwin⟩, fun id' q hq hid' a ha => ?_⟩
  · rwa [List.getElem?_modify_ne _ _ hid]
  · by_cases heq : id = id'
    · subst heq
      rw [List.getElem?_modify_eq] at hq
      obtain ⟨q₀, hq₀, rfl⟩ := Option.map_eq_some_iff.1 hq
      exact h.foreign id q₀ hq₀ hid' a (hf q₀ ▸ ha)
    · rw [List.getElem?_modify_ne _ _ heq] at hq
      exact h.foreign id' q hq hid' a ha

/-! ### Tasks -/

theorem sites (x : Excerpt) (n : Numbers) (hx : x.Discreet)
    (hcurrent : ∀ t, current = some t → (x.task? n t).isSome = true) :
    (x.comparison n current hx hcurrent).Sites (rootSite x.playlist) (rootSite 0) :=
  ⟨rfl, .nil, fun place => ⟨place, rfl, rfl⟩⟩

/-- An action of the excerpt may have settled in both worlds. -/
theorem withSettled_own (h : x.Mirrors n e e') (hx : x.Discreet)
    (hcurrent : ∀ t, current = some t → (x.task? n t).isSome = true) (hw : x.Shows n w w')
    (hrunning : w.running = current) {answer answer' : Option ActionId}
    (hanswer : answer = none ∧ answer' = none ∨
      ∃ a a', x.action? a = some a' ∧ answer = some a ∧ answer' = some a') :
    ∃ n', n.Extends n' ∧ x.Mirrors n' (e.withSettled (w, answer)) (e'.withSettled (w', answer')) ∧
      (e.withSettled (w, answer)).world.running = current := by
  rcases hanswer with ⟨rfl, rfl⟩ | ⟨a, a', ha, rfl, rfl⟩
  · exact ⟨n, .refl n, ⟨hw, h.own, h.foreign⟩, hrunning⟩
  obtain ⟨p, p', hp, hp', -, htwin⟩ := h.own
  have hpaired : (x.comparison n current hx hcurrent).Paired a a' := by
    intro b b' hb
    have hb : x.action? b = some b' := hb
    constructor
    · rintro rfl
      exact hw.injective hb ha
    · rintro rfl
      exact Option.some.inj (hb.symm.trans ha)
  obtain ⟨hroot, ⟨n', hext, hshows, hrunning'⟩, -⟩ :=
    (x.comparison n current hx hcurrent).wake hpaired (sites x n hx hcurrent) htwin
      ⟨n, .refl n, hw, hrunning⟩
  have hwake := wakeFrom_only (a := a) (w := w) 0 hp fun id q hq hid hm => by
    cases (h.foreign id q hq hid a hm).1.symm.trans ha
  have hfirst : e'.playlists[0]? = some p' := hp' ▸ rfl
  have hwake' := wakeFrom_only (a := a') (w := w') 0 hfirst fun id q hq hid => by
      rw [hp', List.getElem?_cons, if_neg hid] at hq
      cases hq
  rw [Nat.zero_add] at hwake
  simp only [withSettled, Engine.wake, hwake, hwake']
  exact ⟨n', hext, h.modify_own hshows fun q q' _ _ hhandles _ => ⟨hhandles, hroot⟩, hrunning'⟩

/-- A task of the excerpt is carried out in both engines. -/
theorem perform_own (h : x.Mirrors n e e') (hx : x.Discreet) (ht : x.task? n t = some t')
    (hrunning : e.world.running = some t) :
    ∃ n', n.Extends n' ∧ x.Mirrors n' (e.perform t).1 (e'.perform t').1 ∧
      (e.perform t).1.world.running = some t ∧ (e'.perform t').2 = (e.perform t).2 := by
  have hcurrent : ∀ u, some t = some u → (x.task? n u).isSome = true := by
    rintro u heq
    cases heq
    rw [ht]
    rfl
  cases t with
  | timer m =>
    obtain ⟨m', hm, rfl⟩ := Option.map_eq_some_iff.1 ht
    obtain ⟨hran, hanswer⟩ := h.world.runTimer_own hm
    obtain ⟨n', hext, hmirrors, hrunning'⟩ := h.withSettled_own hx hcurrent hran
      ((e.world.runTimer_settles m).keeps.running.trans hrunning) hanswer
    refine ⟨n', hext, hmirrors, hrunning', congrArg (!·) ?_⟩
    have hshows := hmirrors.world
    rw [hshows.timers]
    refine any_filterMap_of (fun u _ u' hu => hshows.timer_id (hext.timer hm) hu) fun u hu heq => ?_
    obtain ⟨a', -, hsome⟩ := hshows.exists_timer hu (beq_iff_eq.1 heq ▸ hext.timer hm)
    rw [hsome]
    rfl
  | listener r =>
    obtain ⟨r', hr, rfl⟩ := Option.map_eq_some_iff.1 ht
    obtain ⟨hran, hanswer⟩ := h.world.runListener_own hr
    obtain ⟨n', hext, hmirrors, hrunning'⟩ := h.withSettled_own hx hcurrent hran
      ((e.world.runListener_settles r).keeps.running.trans hrunning) hanswer
    refine ⟨n', hext, hmirrors, hrunning', congrArg (!·) ?_⟩
    have hshows := hmirrors.world
    rw [hshows.listeners]
    refine any_filterMap_of (fun l _ l' hl => hshows.listener_receiver (hext.receiver hr) hl)
      fun l hl heq => ?_
    obtain ⟨a', -, hsome⟩ := hshows.exists_listener hl (beq_iff_eq.1 heq ▸ hext.receiver hr)
    rw [hsome]
    rfl
  | group id place =>
    obtain ⟨rfl, rfl⟩ : id = x.playlist ∧ t' = .group 0 place := by
      simpa [task?, eq_comm] using ht
    obtain ⟨p, p', hp, hp', -, htwin⟩ := h.own
    obtain ⟨hroot, ⟨n', hext, hshows, hrunning'⟩, houtcome, -⟩ :=
      (x.comparison n _ hx hcurrent).pollPlace place (sites x n hx hcurrent) htwin
        ⟨n, .refl n, h.world, hrunning⟩
    simp only [perform, hp, (hp' ▸ rfl : e'.playlists[0]? = some p')]
    exact ⟨n', hext, h.modify_own hshows fun q q' _ _ hhandles _ => ⟨hhandles, hroot⟩, hrunning',
      congrArg Option.isSome houtcome⟩

/-- Another task is carried out. -/
theorem perform_foreign (h : x.Mirrors n e e') (ht : x.task? n t = none) :
    x.Mirrors n (e.perform t).1 e' ∧ (e.perform t).1.world.running = e.world.running := by
  have answered {answer : Option ActionId} (hanswer : ∀ a, answer = some a → x.action? a = none) :
      ∀ a, answer = some a → ∀ id p, e.playlists[id]? = some p → a ∈ p.root.leaves →
        id ≠ x.playlist := fun a ha _ _ hp hmem => h.ne_of_mem (hanswer a ha) hp hmem
  refine h.of_keeps e.world.running
    (Upkeep.perform (h.sorted _ _) ⟨h.world, rfl⟩ ?_ ?_ ?_)
  · rintro m rfl
    obtain ⟨hran, hanswer⟩ := h.world.runTimer_foreign (Option.map_eq_none_iff.1 ht)
    exact ⟨⟨hran, (e.world.runTimer_settles m).keeps.running⟩, answered hanswer⟩
  · rintro r rfl
    obtain ⟨hran, hanswer⟩ := h.world.runListener_foreign (Option.map_eq_none_iff.1 ht)
    exact ⟨⟨hran, (e.world.runListener_settles r).keeps.running⟩, answered hanswer⟩
  · rintro id place rfl rfl
    simp [task?] at ht

/-- A task of the excerpt that has been taken from its queue runs in both engines. -/
theorem runTask_own (h : x.Mirrors n e e') (hx : x.Discreet) (ht : x.task? n t = some t') :
    ∃ n', n.Extends n' ∧ x.Mirrors n' (e.runTask t) (e'.runTask t') := by
  have hbegun : x.Mirrors n ⟨{ e.world with running := some t, rewoken := false }, e.playlists⟩
      ⟨{ e'.world with running := some t', rewoken := false }, e'.playlists⟩ :=
    ⟨h.world.begin_own ht, h.own, h.foreign⟩
  obtain ⟨n', hext, hmirrors, hrunning, hended⟩ := hbegun.perform_own hx ht rfl
  refine ⟨n', hext, ?_, hmirrors.own, hmirrors.foreign⟩
  rw [world_runTask, world_runTask, hended]
  exact hmirrors.world.stop_own hrunning (task?_mono hext ht) _

/-- Another task runs. -/
theorem runTask_foreign (h : x.Mirrors n e e') (hidle : e.world.running = none)
    (ht : x.task? n t = none) (hb : t.Below e.world) : x.Mirrors n (e.runTask t) e' := by
  have hbegun : x.Mirrors n
      ⟨{ e.world with running := some t, rewoken := false }, e.playlists⟩ e' :=
    ⟨h.world.begin_foreign hidle ht hb, h.own, h.foreign⟩
  obtain ⟨hmirrors, hrunning⟩ := hbegun.perform_foreign ht
  exact ⟨hmirrors.world.stop_foreign hrunning ht _, hmirrors.own, hmirrors.foreign⟩

end Mirrors

end Excerpt

end Rundown
