import Rundown.Proofs.Compiler
import Rundown.Proofs.Engine.History
import Rundown.Proofs.Playlist.Task
import Rundown.Proofs.Playlist.Wake

/-!
# The invariant of an engine

`Engine.Sound` holds of an engine without playlists and is preserved by every event
(`Engine.Sound.apply`), whatever order tasks run in.  A playlist that was played with an input stays
entered with that input (`Engine.Turns`).
-/

namespace Rundown

/-! ## The world -/

namespace World

/-- The world goes on: nothing is undone, and only the given actions were begun. -/
structure Proceeds (actions : List ActionId) (w w' : World) : Prop where
  started : ∀ a, w.started? a = some true → w'.started? a = some true
  settled : ∀ a s, w.settlement? a = some s → w'.settlement? a = some s
  logged : w.Logged → w'.Logged
  began : ∀ a, w'.started? a = some true → w.started? a = some true ∨ a ∈ actions

namespace Proceeds

variable {actions actions' : List ActionId} {w w' w'' : World}

theorem mono (h : Proceeds actions w w') (hsub : actions ⊆ actions') : Proceeds actions' w w' :=
  { h with began := fun a ha => (h.began a ha).imp_right fun hm => hsub hm }

theorem trans (h : Proceeds actions w w') (h' : Proceeds actions w' w'') :
    Proceeds actions w w'' where
  started a ha := h'.started a (h.started a ha)
  settled a s hs := h'.settled a s (h.settled a s hs)
  logged hl := h'.logged (h.logged hl)
  began a ha := (h'.began a ha).elim (h.began a) .inr

theorem of_keeps {touched : ActionId → Prop} (h : Keeps touched w w') (hb : w'.begun = w.begun)
    (hs : ∀ a, w'.started? a = some true → w.started? a = some true) : Proceeds actions w w' :=
  ⟨h.started, h.settled, fun hl => hl.of_keeps h hb, fun a ha => .inl (hs a ha)⟩

/-- A change of queues or of the running task. -/
theorem of_same (hi : w'.instances = w.instances) (hb : w'.begun = w.begun) :
    Proceeds actions w w' where
  started a ha := by rwa [started?, hi]
  settled a s hs := by rwa [settlement?, hi]
  logged hl := hl.of_same hi hb
  began a ha := .inl (by rwa [started?, hi] at ha)

theorem of_settles {answer : Option ActionId} (h : Settles answer w w') : Proceeds actions w w' :=
  of_keeps h.keeps h.log fun a ha => (h.started a).symm.trans ha

theorem of_evolves (h : Evolves actions w w') : Proceeds actions w w' :=
  ⟨h.keeps.started, h.keeps.settled, h.logged, fun _ ha =>
    (h.keeps.started_or ha).imp_right And.left⟩

end Proceeds

/-- Of the actions that have begun, at most one settles. -/
def SettlesOne (w w' : World) : Prop :=
  ∃ answer : Option ActionId, ∀ a, w.started? a = some true → answer ≠ some a →
    w'.settlement? a = w.settlement? a

namespace SettlesOne

variable {w w' u u' : World}

theorem of_settles {answer : Option ActionId} (h : Settles answer w w') : SettlesOne w w' :=
  ⟨answer, fun a _ ha => (h.keeps.same a ha).2⟩

theorem of_evolves {actions : List ActionId} (h : Evolves actions w w') : SettlesOne w w' :=
  ⟨none, fun _ ha _ => h.settlement?_eq ha⟩

theorem congr (h : SettlesOne w w') (hi : w.instances = u.instances)
    (hi' : u'.instances = w'.instances) : SettlesOne u u' := by
  obtain ⟨answer, h⟩ := h
  refine ⟨answer, ?_⟩
  intro a ha hne
  rw [started?, ← hi] at ha
  have := h a ha hne
  rw [settlement?, settlement?, hi] at this
  rw [settlement?, settlement?, hi', this]

end SettlesOne

end World

/-! ## Playlists side by side -/

namespace Step

/-- The step `s` has become `s'`, which is known if `s` was and was launched with the same input. -/
structure Becomes (x y : Scene) (s s' : Step) : Prop where
  reset : s'.reset = s.reset
  entered : ∀ v, s.Entered x [] v → s'.Entered y [] v
  known : s.Known x [] → s'.Known y []

variable {x y z : Scene} {s s' s'' : Step}

theorem Becomes.trans (h : Becomes x y s s') (h' : Becomes y z s' s'') : Becomes x z s s'' :=
  ⟨h'.reset.trans h.reset, fun v hv => h'.entered v (h.entered v hv),
    fun hk => h'.known (h.known hk)⟩

theorem Revised.becomes {woke : Bool} (h : Revised x y [] s s' woke) : Becomes x y s s' where
  reset := h.reset
  entered := h.entered
  known hk := by
    rcases hk with ⟨v, hv⟩ | hu | hd
    · exact .inl ⟨v, h.entered v hv⟩
    · exact .inr (.inl (h.untouched hu))
    · exact .inr (.inr (h.dormant hd))

theorem Becomes.of_follows (h : Scene.Follows [] s.leaves x y) : Becomes x y s s :=
  (Revised.of_follows h).becomes

/-- A look at a playlist on behalf of nobody. -/
theorem poll_becomes (site : Site) (w : World) {p : Polled} (hsite : site.playlist = x.playlist)
    (hplace : site.place = []) (hapart : x.Apart s.leaves) (hgroup : s.isLeaf = false)
    (hknown : s.Known (x.after w) []) (hp : s.poll site none w = p) :
    World.Evolves s.leaves w p.world ∧ Becomes (x.after w) (x.after p.world) s p.step := by
  obtain ⟨playlist, place, above⟩ := site
  obtain rfl : playlist = x.playlist := hsite
  obtain rfl : place = [] := hplace
  cases s with
  | leaf slot a => cases hgroup
  | group slot g steps =>
    by_cases hstage : g.stage = .created ∨ g.stage = .expired
    · obtain ⟨waiters, o, heq⟩ := poll_unplayed slot steps ⟨x.playlist, [], above⟩ none w hstage
      obtain rfl := heq.symm.trans hp
      have hno (v : Json) (h : (Step.group slot g steps).Entered (x.after w) [] v) : False :=
        hstage.elim (Group.Runs.created h) (Group.Runs.expired h)
      exact ⟨.refl w, rfl, fun v h => (hno v h).elim, fun hk => hk.imp_left fun ⟨v, h⟩ =>
        (hno v h).elim⟩
    · have hlooked (v : Json) (h : (Step.group slot g steps).Entered (x.after w) [] v) :
          (Step.group slot g steps).Looked x [] v above w p :=
        hp ▸ (pollWithin_looked ⟨x.playlist, [], above⟩ none rfl (Nat.le_refl _) hapart
          (h.mono .during) (.inr h)).1
      obtain ⟨v, h⟩ : ∃ v, (Step.group slot g steps).Entered (x.after w) [] v := by
        rcases hknown with h | h | h
        · exact h
        · exact absurd (.inl h.1.2.1) hstage
        · exact absurd h.2.1 hstage
      have hl := hlooked v h
      exact ⟨hl.evolves, hl.reset, fun v h => (hlooked v h).entered, fun _ => .inl ⟨v, hl.entered⟩⟩

end Step

namespace Engine

open Step

/-- The actions of all leaves of all playlists. -/
def leaves (e : Engine) : List ActionId := leavesList (e.playlists.map Playlist.root)

/-- What the invariant of a playlist is read against. -/
def scene (lead : ActionId → Prop) (e : Engine) (id : PlaylistId) : Scene where
  world := e.world
  playlist := id
  due := e.world.Due
  sole a := e.leaves.count a ≤ 1
  lead := lead

/-- Every playlist of `e` has become the one in its place in `e'`. -/
structure Carries (e e' : Engine) (x y : PlaylistId → Scene) : Prop where
  length : e'.playlists.length = e.playlists.length
  each : ∀ id p, e.playlists[id]? = some p → ∃ p', e'.playlists[id]? = some p' ∧
    Becomes (x id) (y id) p.root p'.root

variable {lead : ActionId → Prop} {e e' e'' : Engine} {x y z : PlaylistId → Scene}

theorem Carries.trans (h : Carries e e' x y) (h' : Carries e' e'' y z) : Carries e e'' x z where
  length := h'.length.trans h.length
  each id p hp := by
    obtain ⟨p', hp', hb⟩ := h.each id p hp
    obtain ⟨p'', hp'', hb'⟩ := h'.each id p' hp'
    exact ⟨p'', hp'', hb.trans hb'⟩

/-- What the change does not concern stays as it is. -/
theorem Carries.of_follows (hp : e'.playlists = e.playlists)
    (h : ∀ id p, e.playlists[id]? = some p → Scene.Follows [] p.root.leaves (x id) (y id)) :
    Carries e e' x y :=
  ⟨by rw [hp], fun id p hi => ⟨p, by rw [hp, hi], .of_follows (h id p hi)⟩⟩

/-- As long as no playlist is added and every playlist keeps its tree, the leaves stay the same. -/
theorem leaves_of_each (hlength : e'.playlists.length = e.playlists.length)
    (h : ∀ (id : PlaylistId) (p : Playlist), e.playlists[id]? = some p →
      ∃ p' : Playlist, e'.playlists[id]? = some p' ∧ p'.root.reset = p.root.reset) :
    e'.leaves = e.leaves := by
  refine leavesList_congr (List.ext_getElem? ?_)
  intro id
  simp only [List.getElem?_map]
  cases hp : e.playlists[id]? with
  | none =>
    rw [List.getElem?_eq_none_iff] at hp
    rw [List.getElem?_eq_none_iff.2 (hlength ▸ hp)]
  | some p =>
    obtain ⟨p', hp', hreset⟩ := h id p hp
    rw [hp']
    simp only [Option.map_some, leaves_congr hreset]

theorem Carries.leaves (h : Carries e e' x y) : e'.leaves = e.leaves :=
  leaves_of_each h.length fun id p hp =>
    let ⟨p', hp', hb⟩ := h.each id p hp
    ⟨p', hp', hb.reset⟩

/-- One playlist has changed, and the others were not concerned. -/
theorem Carries.modify {id : PlaylistId} {p : Playlist} {f : Playlist → Playlist} {w : World}
    (hp : e.playlists[id]? = some p) (hb : Becomes (x id) (y id) p.root (f p).root)
    (h : ∀ id' p', id' ≠ id → e.playlists[id']? = some p' →
      Scene.Follows [] p'.root.leaves (x id') (y id')) :
    Carries e ⟨w, e.playlists.modify id f⟩ x y := by
  refine ⟨List.length_modify .., ?_⟩
  intro id' p' hi
  simp only [List.getElem?_modify]
  by_cases heq : id = id'
  · subst heq
    obtain rfl := Option.some.inj (hp.symm.trans hi)
    exact ⟨f p, by simp [hp], hb⟩
  · exact ⟨p', by simp [heq, hi], .of_follows (h id' p' (Ne.symm heq) hi)⟩

/-- What every reachable engine satisfies between its events. -/
structure Sound (lead : ActionId → Prop) (e : Engine) : Prop where
  idle : e.world.running = none
  logged : e.world.Logged
  begun : ∀ a, e.world.started? a = some true → a ∈ e.leaves
  leading : ∀ a, lead a → e.world.started? a = some true
  known : ∀ (id : PlaylistId) (p : Playlist), e.playlists[id]? = some p →
    p.root.isLeaf = false ∧ p.root.Known (e.scene lead id) []

/-- `e'` follows `e`; playlists stay what they were compiled to and stay entered. -/
structure Turns (lead : ActionId → Prop) (e e' : Engine) : Prop where
  started : ∀ a, e.world.started? a = some true → e'.world.started? a = some true
  settled : ∀ a s, e.world.settlement? a = some s → e'.world.settlement? a = some s
  each : ∀ id p, e.playlists[id]? = some p → ∃ p', e'.playlists[id]? = some p' ∧
    Becomes (e.scene lead id) (e'.scene lead id) p.root p'.root

theorem Turns.refl (e : Engine) : Turns lead e e :=
  ⟨fun _ h => h, fun _ _ h => h, fun _ p hp => ⟨p, hp, rfl, fun _ h => h, fun h => h⟩⟩

theorem Turns.trans (h : Turns lead e e') (h' : Turns lead e' e'') : Turns lead e e'' where
  started a ha := h'.started a (h.started a ha)
  settled a s hs := h'.settled a s (h.settled a s hs)
  each id p hp := by
    obtain ⟨p', hp', hb⟩ := h.each id p hp
    obtain ⟨p'', hp'', hb'⟩ := h'.each id p' hp'
    exact ⟨p'', hp'', hb.trans hb'⟩

/-- The actions of an engine stay those of its leaves. -/
theorem Turns.count_le (h : Turns lead e e') (a : ActionId) :
    e.leaves.count a ≤ e'.leaves.count a := by
  have hprefix : e.playlists.map (Step.leaves ∘ Playlist.root) <+:
      e'.playlists.map (Step.leaves ∘ Playlist.root) := by
    refine List.prefix_iff_getElem?.2 ?_
    intro i hi
    rw [List.length_map] at hi
    obtain ⟨p', hp', hb⟩ := h.each i _ (List.getElem?_eq_getElem hi)
    simp only [List.getElem?_map, hp', Option.map_some, List.getElem_map, Function.comp,
      leaves_congr hb.reset]
  obtain ⟨rest, hrest⟩ := hprefix
  have heq (e : Engine) :
      e.leaves = (e.playlists.map (Step.leaves ∘ Playlist.root)).flatten := by
    rw [leaves, leavesList_eq, List.flatMap_map]
    rfl
  rw [heq, heq, ← hrest, List.flatten_append, List.count_append]
  exact Nat.le_add_right _ _

/-- A group stays the same group. -/
theorem Turns.group_at? (h : Turns lead e e') {id : PlaylistId} {p : Playlist} {place : List Nat}
    {slot : Slot} {g : Group} {steps : List Step} (hp : e.playlists[id]? = some p)
    (hat : p.root.at? place = some (.group slot g steps)) :
    ∃ p' slot' g' steps', e'.playlists[id]? = some p' ∧
      p'.root.at? place = some (.group slot' g' steps') ∧ g'.kind = g.kind ∧
      resetList steps' = resetList steps := by
  obtain ⟨p', hp', hb⟩ := h.each id p hp
  obtain ⟨t, hat', hreset⟩ := at?_congr hb.reset hat
  cases t with
  | leaf => cases hreset
  | group slot' g' steps' =>
    obtain ⟨-, hg, hsteps⟩ := Step.group.inj hreset
    have hkind : (Group.fresh g'.kind).kind = (Group.fresh g.kind).kind := congrArg _ hg
    exact ⟨p', slot', g', steps', hp', hat', hkind, hsteps⟩

/-- A single event has turned `e` into `e'`. -/
structure Ticks (lead : ActionId → Prop) (e e' : Engine) : Prop extends Turns lead e e' where
  one : e.world.SettlesOne e'.world

theorem Ticks.refl (e : Engine) : Ticks lead e e := ⟨.refl e, .of_settles (.refl e.world)⟩

theorem scene_eq (lead : ActionId → Prop) (h : e'.leaves = e.leaves) (id : PlaylistId) :
    e'.scene lead id = (e.scene lead id).after e'.world := by
  unfold scene Scene.after Scene.amid
  rw [h]

/-- Every playlist has its own leaves, as far as they are not shared. -/
theorem apart (lead : ActionId → Prop) (e : Engine) (id : PlaylistId) :
    (e.scene lead id).Apart (leavesList (e.playlists.map Playlist.root)) := fun _ h => h

theorem mem_roots {id : PlaylistId} {p : Playlist} (h : e.playlists[id]? = some p) :
    p.root ∈ e.playlists.map Playlist.root :=
  List.mem_map_of_mem (List.mem_of_getElem? h)

/-- A step of the engine in which no playlist is added. -/
theorem Sound.carried (h : Sound lead e) (hidle : e'.world.running = none)
    (hw : World.Proceeds e.leaves e.world e'.world) (hone : e.world.SettlesOne e'.world)
    (hc : Carries e e' (e.scene lead) fun id => (e.scene lead id).after e'.world) :
    Sound lead e' ∧ Ticks lead e e' := by
  have hscene (id : PlaylistId) := scene_eq lead hc.leaves id
  refine ⟨⟨hidle, hw.logged h.logged, ?_, fun a ha => hw.started a (h.leading a ha), ?_⟩,
    ⟨hw.started, hw.settled, ?_⟩, hone⟩
  · intro a ha
    rw [hc.leaves]
    exact (hw.began a ha).elim (h.begun a) fun hm => hm
  · intro id p' hp'
    have hlt : id < e.playlists.length := hc.length ▸ (List.getElem?_eq_some_iff.1 hp').1
    obtain ⟨p'', hp'', hb⟩ := hc.each id _ (List.getElem?_eq_getElem hlt)
    obtain rfl := Option.some.inj (hp'.symm.trans hp'')
    obtain ⟨hgroup, hknown⟩ := h.known id _ (List.getElem?_eq_getElem hlt)
    rw [hscene id]
    exact ⟨(isLeaf_congr hb.reset).trans hgroup, hb.known hknown⟩
  · intro id p hp
    rw [hscene id]
    exact hc.each id p hp

end Engine

end Rundown
