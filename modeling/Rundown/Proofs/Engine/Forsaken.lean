import Rundown.Proofs.Engine.FailureSource
import Rundown.Proofs.Engine.Handles

/-!
# Playlists that are given up

A playlist whose handles are all dropped before anybody has played it is given up
(`Production.Forsaken`).  Its completion says so, and nothing of it is ever launched.  Once it has
been played, what becomes of its handles makes no difference (`Production.handles_spec`).
-/

namespace Rundown

namespace Production

open Engine Step

variable {P : Production} {event : Event} {input : Json}

/-- The playlist was given up: at some time its handles were all gone, as many having been dropped
as there had been, and nobody had played it. -/
def Forsaken (P : Production) : Prop :=
  ∃ earlier later, P.history = earlier ++ later ∧ (∀ input, ¬(P.upTo earlier).Played input) ∧
    Event.drops P.id earlier = Event.clones P.id earlier + 1

theorem played_next : (P.next event).Played input ↔ P.Played input ∨
    event = .play P.id input true ∧ (P.engine.play P.id input true).2 = .ok () := by
  constructor
  · rintro ⟨earlier, later, hhistory, hok⟩
    rcases List.eq_nil_or_concat later with rfl | ⟨later, last, rfl⟩
    · obtain ⟨hinit, hlast⟩ := List.append_inj' hhistory rfl
      refine .inr ⟨(List.singleton_inj.1 hlast), ?_⟩
      rw [engine, hinit]
      exact hok
    · rw [List.concat_eq_append, ← List.cons_append, ← List.append_assoc] at hhistory
      exact .inl ⟨earlier, later, (List.append_inj' hhistory rfl).1, hok⟩
  · rintro (⟨earlier, later, hhistory, hok⟩ | ⟨rfl, hok⟩)
    · refine ⟨earlier, later ++ [event], ?_, hok⟩
      rw [next, upTo, hhistory, List.append_assoc, List.cons_append]
    · exact ⟨P.history, [], rfl, hok⟩

theorem forsaken_next : (P.next event).Forsaken ↔ P.Forsaken ∨
    (∀ input, ¬(P.next event).Played input) ∧
      Event.drops P.id (P.history ++ [event]) = Event.clones P.id (P.history ++ [event]) + 1 := by
  constructor
  · rintro ⟨earlier, later, hhistory, hgone⟩
    rcases List.eq_nil_or_concat later with rfl | ⟨later, last, rfl⟩
    · rw [List.append_nil] at hhistory
      obtain rfl : P.history ++ [event] = earlier := hhistory
      exact .inr hgone
    · rw [List.concat_eq_append, ← List.append_assoc] at hhistory
      exact .inl ⟨earlier, later, (List.append_inj' hhistory rfl).1, hgone⟩
  · rintro (⟨earlier, later, hhistory, hgone⟩ | hgone)
    · refine ⟨earlier, later ++ [event], ?_, hgone⟩
      rw [next, upTo, hhistory, List.append_assoc]
    · exact ⟨P.history ++ [event], [], (List.append_nil _).symm, hgone⟩

/-- How the playlist stands whose handles have been handed round: as it was created, and somebody
has a handle; given up; or played. -/
inductive Stand (P : Production) (p : Playlist) : Prop
  | created : p.stage = .created → (∀ input, ¬P.Played input) → ¬P.Forsaken →
      p.handles + Event.drops P.id P.history = Event.clones P.id P.history + 1 → 1 ≤ p.handles →
      P.Stand p
  | expired : p.stage = .expired → (∀ input, ¬P.Played input) → P.Forsaken → P.Stand p
  | played (input : Json) : p.stage ≠ .created → p.stage ≠ .expired → P.Played input →
      ¬P.Forsaken → P.Stand p

theorem drops_next (P : Production) (event : Event) :
    Event.drops P.id (P.history ++ [event]) = Event.drops P.id P.history +
      Event.drops P.id [event] := List.countP_append

theorem clones_next (P : Production) (event : Event) :
    Event.clones P.id (P.history ++ [event]) = Event.clones P.id P.history +
      Event.clones P.id [event] := List.countP_append

/-- The engine after one more event, as far as it concerns the playlist. -/
theorem next_playlist {p : Playlist} (hp : P.engine.playlists[P.id]? = some p) (event : Event) :
    ∃ p', (P.next event).engine.playlists[P.id]? = some p' ∧
      Stage.Meets P.id p.handles event p.stage p'.stage ∧
      (event.counts P.id = false → p'.handles = p.handles) := by
  obtain ⟨stage', hs', hmeets⟩ := P.sound.apply_meets hp event
  obtain ⟨p', hp', rfl⟩ := Option.map_eq_some_iff.1 hs'
  rw [next_engine]
  refine ⟨p', hp', hmeets, fun hcounts => ?_⟩
  have happly := apply_withHandles (n := p.handles) (List.getElem?_eq_some_iff.1 hp).1 hcounts
  rw [withHandles_self hp] at happly
  rw [happly, getElem?_withHandles] at hp'
  obtain ⟨q, -, rfl⟩ := Option.map_eq_some_iff.1 hp'
  rw [if_pos rfl]

theorem Played.next (h : P.Played input) : (P.next event).Played input := played_next.2 (.inl h)

theorem Forsaken.next (h : P.Forsaken) : (P.next event).Forsaken := forsaken_next.2 (.inl h)

theorem not_forsaken_next (h : ¬P.Forsaken) (hplayed : (P.next event).Played input) :
    ¬(P.next event).Forsaken := fun hn =>
  (forsaken_next.1 hn).elim h fun ⟨hnever, _⟩ => hnever input hplayed

theorem Stand.of_expired {p p' : Playlist} (hp : P.engine.playlists[P.id]? = some p)
    (hs : p.stage = .expired) (hs' : p'.stage = .expired) (hnever : ∀ input, ¬P.Played input)
    (hforsaken : P.Forsaken) : (P.next event).Stand p' := by
  refine .expired hs' (fun input hn => ?_) hforsaken.next
  rcases played_next.1 hn with hplayed | ⟨-, hok⟩
  · exact hnever input hplayed
  · have hcreated := play_ok_iff.1 hok
    rw [stage?, hp, Option.map_some, hs] at hcreated
    cases hcreated

/-- Nobody has played the playlist, and somebody still has a handle. -/
theorem Stand.of_created {p' : Playlist} (hs' : p'.stage = .created)
    (hnever : ∀ input, ¬P.Played input) (hforsaken : ¬P.Forsaken)
    (hplay : ∀ input, event ≠ .play P.id input true)
    (hcount : p'.handles + Event.drops P.id (P.history ++ [event]) =
      Event.clones P.id (P.history ++ [event]) + 1) (hone : 1 ≤ p'.handles) :
    (P.next event).Stand p' := by
  refine .created hs' (fun input hn => ?_) (fun hn => ?_) hcount hone
  · rcases played_next.1 hn with h | ⟨h, -⟩
    · exact hnever input h
    · exact hplay input h
  · rcases forsaken_next.1 hn with h | ⟨-, h⟩
    · exact hforsaken h
    · omega

theorem Stand.next {p : Playlist} (h : P.Stand p) (hp : P.engine.playlists[P.id]? = some p)
    (event : Event) : ∃ p', (P.next event).engine.playlists[P.id]? = some p' ∧
      (P.next event).Stand p' := by
  obtain ⟨p', hp', hmeets, hcounts⟩ := next_playlist hp event
  refine ⟨p', hp', ?_⟩
  cases h with
  | expired hs hnever hforsaken => exact .of_expired hp hs (hs ▸ hmeets).of_expired hnever hforsaken
  | played input hcreated hexpired hplayed hforsaken =>
    exact .played input (hmeets.leads.ne_created hcreated) (hmeets.ne_expired hcreated hexpired)
      hplayed.next (not_forsaken_next hforsaken hplayed.next)
  | created hs hnever hforsaken hcount hone =>
    have hdrops := P.drops_next event
    have hclones := P.clones_next event
    by_cases hplay : ∃ input, event = .play P.id input true
    · obtain ⟨input, rfl⟩ := hplay
      have hcreated : P.engine.stage? P.id = some .created := by
        rw [stage?, hp, Option.map_some, hs]
      have hplayed : (P.next (.play P.id input true)).Played input :=
        played_next.2 (.inr ⟨rfl, play_ok_iff.2 hcreated⟩)
      have htriggered : p'.stage = .triggered input := by
        obtain ⟨stage, hs', hne⟩ := P.sound.apply_play hcreated input
        rw [← next_engine, stage?, hp', Option.map_some, Option.some_inj] at hs'
        exact (hs ▸ hmeets).of_play (hs' ▸ hne)
      exact .played input (by rw [htriggered]; exact fun h => by cases h)
        (by rw [htriggered]; exact fun h => by cases h) hplayed (not_forsaken_next hforsaken hplayed)
    have hplay (input : Json) : event ≠ .play P.id input true := fun h => hplay ⟨input, h⟩
    cases hevent : event.counts P.id with
    | false =>
      obtain ⟨hd, hc⟩ := Event.drops_clones_of_counts hevent
      have hs' : p'.stage = .created := (hs ▸ hmeets).of_other hplay hevent
      have hsame := hcounts hevent
      exact .of_created hs' hnever hforsaken hplay (by omega) (by omega)
    | true =>
      cases event with
      | cloneHandle id =>
        obtain rfl : id = P.id := eq_of_beq hevent
        have hd : Event.drops P.id [.cloneHandle P.id] = 0 := rfl
        have hc : Event.clones P.id [.cloneHandle P.id] = 1 := by simp [Event.clones]
        rw [next_engine, apply, cloneHandle, modifyPlaylist, List.getElem?_modify_eq, hp] at hp'
        obtain rfl := Option.some.inj hp'
        exact .of_created hs hnever hforsaken hplay (by dsimp only; omega) (by dsimp only; omega)
      | dropHandle id =>
        obtain rfl : id = P.id := eq_of_beq hevent
        have hd : Event.drops P.id [.dropHandle P.id] = 1 := by simp [Event.drops]
        have hc : Event.clones P.id [.dropHandle P.id] = 0 := rfl
        rw [next_engine] at hp'
        obtain ⟨hhandles, hlast⟩ := dropHandle_created (P.sound.known P.id p hp).1 hp hs hp'
        by_cases hmore : 2 ≤ p.handles
        · exact .of_created (hlast.2 hmore) hnever hforsaken hplay (by omega) (by omega)
        · have hnever' (input : Json) : ¬(P.next (.dropHandle P.id)).Played input := fun hn =>
            (played_next.1 hn).elim (hnever input) fun h => hplay input h.1
          exact .expired (hlast.1 (by omega)) hnever'
            (forsaken_next.2 (.inr ⟨hnever', by omega⟩))
      | _ => cases hevent

/-- How the playlist stands in the end. -/
theorem exists_stand (P : Production) : ∃ p, P.engine.playlists[P.id]? = some p ∧ P.Stand p := by
  suffices h : ∀ history, ∃ p, (P.upTo history).engine.playlists[P.id]? = some p ∧
      (P.upTo history).Stand p from h P.history
  intro history
  induction history using List.reverseRecOn with
  | nil =>
    obtain ⟨root, shop, hrooted, hid, hcompiled, -⟩ := compile_known P.compiles
    have hp : P.compiled.playlists[P.id]? = some ⟨P.descriptor, root, 1⟩ := by
      rw [hcompiled, hid, List.getElem?_append_right (Nat.le_refl _), Nat.sub_self]
      rfl
    have hnever (input : Json) : ¬(P.upTo []).Played input := by
      rintro ⟨earlier, later, hhistory, -⟩
      cases earlier <;> cases hhistory
    refine ⟨_, hp, .created ?_ hnever ?_ rfl (Nat.le_refl 1)⟩
    · have hs := P.stage?_compiled
      rw [stage?, hp] at hs
      exact Option.some.inj hs
    · rintro ⟨earlier, later, hhistory, -, hgone⟩
      obtain ⟨rfl, -⟩ := List.append_eq_nil_iff.1 hhistory.symm
      cases hgone
  | append_singleton history event ih =>
    obtain ⟨p, hp, hstand⟩ := ih
    exact hstand.next hp event

/-! ## A playlist that was given up -/

/-- Nothing of the playlist has been launched: its state is as it was created, no step inside it was
touched, and what has begun was begun by other playlists. -/
structure Unlaunched (P : Production) : Prop where
  state : P.state? = some .created
  fresh : ∀ place s, place ≠ [] → P.at? place = some s → s.Fresh
  begun : ∀ b ∈ P.engine.world.begun, ∃ id place slot, id ≠ P.id ∧
    P.engine.at? id place = some (.leaf slot b.1) ∧ slot ≠ .idle
  distinct : P.Distinct → ∀ b ∈ P.engine.world.begun, b.1 ∉ P.plan.leaves

theorem at?_eq {p : Playlist} (hp : P.engine.playlists[P.id]? = some p) (place : List Nat) :
    P.at? place = p.root.at? place := by rw [at?, hp, Option.bind_some]

theorem unlaunched {p : Playlist} (hp : P.engine.playlists[P.id]? = some p)
    (hs : p.stage = .created ∨ p.stage = .expired) : P.Unlaunched := by
  obtain ⟨hgroup, hknown⟩ := P.sound.known P.id p hp
  have hstands := stands P.sound hp
  have hat := at?_eq hp
  have hstate : P.state? = some .created := by
    rw [state?_eq, stage?, hp]
    rcases hs with hs | hs <;> exact congrArg (fun stage => some (Stage.state stage)) hs
  rw [Playlist.stage_eq] at hs
  generalize p.root = root at hgroup hknown hstands hat hs
  cases root with
  | leaf => cases hgroup
  | group slot g steps =>
    obtain ⟨-, -, -, hu⟩ := Known.unplayed hknown hs
    have hfresh (place : List Nat) (s : Step) (hplace : place ≠ []) (hs : P.at? place = some s) :
        s.Fresh := by
      rw [hat] at hs
      cases place with
      | nil => exact absurd rfl hplace
      | cons i place =>
        obtain ⟨t, hi, ht⟩ := Option.bind_eq_some_iff.1 hs
        exact (hu t (List.mem_of_getElem? hi)).1.at? ht
    refine ⟨hstate, hfresh, fun b hb => ?_, fun hdistinct b hb hm' => ?_⟩
    · obtain ⟨first, hfirst⟩ := P.exists_firstLaunches
      obtain ⟨id, place, slot, -, hleaf, hslot⟩ := hfirst.begun b hb
      refine ⟨id, place, slot, ?_, hleaf, hslot⟩
      rintro rfl
      have hleaf : P.at? place = some (.leaf slot b.1) := hleaf
      by_cases hplace : place = []
      · subst hplace
        rw [hat] at hleaf
        cases hleaf
      · exact hslot (hfresh place _ hplace hleaf)
    · have hsole := hstands.sole hdistinct
      have hm := hm'
      rw [← hstands.leaves] at hm
      rw [Step.leaves, leavesList_eq] at hm
      obtain ⟨s, hs, ha⟩ := List.mem_flatMap.1 hm
      have hfalse := ((hu s hs).2 b.1 ha (hsole b.1 (hstands.leaves ▸ hm'))).1
      have htrue := P.sound.logged.started b hb
      cases hfalse.symm.trans htrue

/-- A group in a playlist that was played never ends as one that was given up. -/
theorem Played.outcome?_ne (h : P.Played input) {place : List Nat} {slot : Slot} {g : Group}
    {steps : List Step} (hat : P.at? place = some (.group slot g steps)) :
    g.stage.outcome? ≠ some (.error .neverStarted) := fun ho => by
  obtain ⟨_, _, _, _, herr, _⟩ := (P.failure_source h hat).1 _ ho
  cases herr

/-- Of the groups of a playlist only the outermost one can be given up. -/
theorem group_neverStarted_iff {place : List Nat} {slot : Slot} {g : Group} {steps : List Step}
    (hat : P.at? place = some (.group slot g steps)) :
    g.stage.outcome? = some (.error .neverStarted) ↔ place = [] ∧ P.Forsaken := by
  obtain ⟨p, hp, hstand⟩ := P.exists_stand
  have hunplayed (hs : p.stage = .created ∨ p.stage = .expired) (hplace : place ≠ []) :
      g.stage.outcome? ≠ some (.error .neverStarted) := by
    have hfresh : (Step.group slot g steps).Fresh := (unlaunched hp hs).fresh place _ hplace hat
    rw [hfresh.2.1]
    exact fun h => by cases h
  have hroot (hplace : place = []) : g.stage = p.stage := by
    subst hplace
    rw [at?_eq hp] at hat
    rw [Playlist.stage_eq, Option.some.inj hat]
    rfl
  cases hstand with
  | created hs hnever hforsaken hcount hone =>
    refine iff_of_false (fun ho => ?_) fun h => hforsaken h.2
    by_cases hplace : place = []
    · rw [hroot hplace, hs] at ho
      cases ho
    · exact hunplayed (.inl hs) hplace ho
  | expired hs hnever hforsaken =>
    refine ⟨fun ho => ⟨?_, hforsaken⟩, fun h => by rw [hroot h.1, hs]; rfl⟩
    by_contra hplace
    exact hunplayed (.inr hs) hplace ho
  | played input hcreated hexpired hplayed hforsaken =>
    exact iff_of_false (hplayed.outcome?_ne hat) fun h => hforsaken h.2

theorem neverStarted_iff (P : Production) :
    P.engine.outcome? P.id = some (.error .neverStarted) ↔ P.Forsaken := by
  obtain ⟨p, hp, hstand⟩ := P.exists_stand
  have hgroup := (P.sound.known P.id p hp).1
  have hat := at?_eq hp []
  rw [outcome?_eq, stage?, hp, Option.map_some, Option.bind_some, Playlist.stage_eq]
  cases hr : p.root with
  | leaf slot a =>
    rw [hr] at hgroup
    cases hgroup
  | group slot g steps =>
    rw [hr] at hat
    exact (group_neverStarted_iff hat).trans (and_iff_right rfl)

/-- Looking at a completion gives nothing up. -/
theorem forsaken_next_pollCompletion :
    (P.next (.pollCompletion P.id)).Forsaken ↔ P.Forsaken := by
  refine ⟨fun h => ?_, Forsaken.next⟩
  rcases forsaken_next.1 h with h | ⟨hnever, hgone⟩
  · exact h
  · rw [drops_next, clones_next] at hgone
    exact ⟨P.history, [], (List.append_nil _).symm, fun v hv => hnever v hv.next, hgone⟩

theorem polled_neverStarted_iff (P : Production) :
    (P.engine.pollCompletion P.id).2 = some (.error .neverStarted) ↔ P.Forsaken := by
  constructor
  · intro ho
    have hend := P.sound.outcome?_pollCompletion ho
    rw [← forsaken_next_pollCompletion, ← neverStarted_iff, next_engine]
    exact hend
  · intro h
    rw [P.sound.pollCompletion_ended (P.neverStarted_iff.2 h)]

theorem Forsaken.unlaunched (h : P.Forsaken) : P.Unlaunched := by
  obtain ⟨p, hp, hstand⟩ := P.exists_stand
  cases hstand with
  | created hs hnever hforsaken hcount hone => exact absurd h hforsaken
  | expired hs hnever hforsaken => exact Production.unlaunched hp (.inr hs)
  | played input hcreated hexpired hplayed hforsaken => exact absurd h hforsaken

theorem Forsaken.more (h : P.Forsaken) (more : List Event) :
    (P.upTo (P.history ++ more)).Forsaken := by
  obtain ⟨earlier, later, hhistory, hgone⟩ := h
  exact ⟨earlier, later ++ more, by rw [upTo, hhistory, List.append_assoc], hgone⟩

theorem play_ok_iff_open (P : Production) (input : Json) :
    (P.engine.play P.id input true).2 = .ok () ↔ (∀ v, ¬P.Played v) ∧ ¬P.Forsaken := by
  obtain ⟨p, hp, hstand⟩ := P.exists_stand
  rw [play_ok_iff, stage?, hp, Option.map_some, Option.some_inj]
  cases hstand with
  | created hs hnever hforsaken hcount hone => exact iff_of_true hs ⟨hnever, hforsaken⟩
  | expired hs hnever hforsaken => exact iff_of_false (by rw [hs]; simp) fun h => h.2 hforsaken
  | played v hcreated hexpired hplayed hforsaken =>
    exact iff_of_false hcreated fun h => h.1 v hplayed

/-! ## A playlist that was played -/

/-- The events that are not about the playlist's handles. -/
def regardless (id : PlaylistId) (history : List Event) : List Event :=
  history.filter fun event => !event.handles id

theorem Played.stage? (h : P.Played input) : ∃ stage, P.engine.stage? P.id = some stage ∧
    stage ≠ .created := by
  obtain ⟨p, hp, hstand⟩ := P.exists_stand
  refine ⟨p.stage, by rw [Engine.stage?, hp, Option.map_some], ?_⟩
  cases hstand with
  | created hs hnever hforsaken hcount hone => exact absurd h (hnever input)
  | expired hs hnever hforsaken => exact absurd h (hnever input)
  | played v hcreated hexpired hplayed hforsaken => exact hcreated

/-- After the play, two histories that differ in the playlist's handles only lead to the same. -/
theorem Played.withHandles_eq (h : P.Played input) {later later' : List Event}
    (hsame : regardless P.id later' = regardless P.id later) :
    (P.engine.after later').withHandles P.id 0 = (P.engine.after later).withHandles P.id 0 := by
  obtain ⟨stage, hs, hne⟩ := h.stage?
  rw [P.sound.after_withHandles hs hne, P.sound.after_withHandles hs hne]
  exact congrArg _ hsame

/-- What becomes of a playlist whose handles are cloned, dropped and played in any order, while its
completion is looked at and other things happen.  The completion resolves with `neverStarted`
exactly if all handles were dropped before a play succeeded; a nested group never does.  Exactly
until then, or until it succeeds, a play succeeds.  Nothing of a playlist that was given up is ever
launched, and its state stays as it was created.  After a play has succeeded, cloning, dropping and
playing handles changes nothing in the world, in the trees of the playlists, or in what the
completions see. -/
theorem handles_spec (P : Production) :
    (P.engine.outcome? P.id = some (.error .neverStarted) ↔ P.Forsaken) ∧
    ((P.engine.pollCompletion P.id).2 = some (.error .neverStarted) ↔ P.Forsaken) ∧
    (∀ place slot g steps, P.at? place = some (.group slot g steps) →
      (g.stage.outcome? = some (.error .neverStarted) ↔ place = [] ∧ P.Forsaken)) ∧
    (∀ input, P.engine.play P.id input false = (P.engine, .error .noRuntime)) ∧
    (∀ input, (P.engine.play P.id input true).2 = .ok () ↔
      (∀ v, ¬P.Played v) ∧ ¬P.Forsaken) ∧
    (P.Forsaken → ∀ later, (P.upTo (P.history ++ later)).Unlaunched) ∧
    ∀ input later later', P.Played input → regardless P.id later' = regardless P.id later →
      (P.engine.after later').world = (P.engine.after later).world ∧
      (P.engine.after later').playlists.map Playlist.root =
        (P.engine.after later).playlists.map Playlist.root ∧
      (P.engine.after later').outcome? P.id = (P.engine.after later).outcome? P.id ∧
      ((P.engine.after later').pollCompletion P.id).2 =
        ((P.engine.after later).pollCompletion P.id).2 := by
  refine ⟨P.neverStarted_iff, P.polled_neverStarted_iff, fun _ _ _ _ => group_neverStarted_iff,
    fun _ => rfl, P.play_ok_iff_open, fun h later => (h.more later).unlaunched, ?_⟩
  intro input later later' hplayed hsame
  have heq := hplayed.withHandles_eq hsame
  have hpoll (e : Engine) : (e.pollCompletion P.id).2 =
      ((e.withHandles P.id 0).pollCompletion P.id).2 := by rw [pollCompletion_withHandles]
  refine ⟨?_, ?_, ?_, by rw [hpoll, heq, ← hpoll]⟩
  · rw [← withHandles_world _ P.id 0, heq, withHandles_world]
  · rw [← roots_withHandles _ P.id 0, heq, roots_withHandles]
  · rw [← outcome?_withHandles _ P.id 0, heq, outcome?_withHandles]

/-- Two handles go, one of which was played outside the runtime only. -/
def twoDropped : Production :=
  twoBranches [.cloneHandle 0, .play 0 .null false, .dropHandle 0, .pollCompletion 0,
    .dropHandle 0, .play 0 .null true]

/-- The handle goes at once after the play, or not at all. -/
theorem handles_spec_twoDropped :
    twoDropped.Forsaken ∧ twoDropped.Unlaunched ∧
      (twoDropped.engine.pollCompletion 0).2 = some (.error .neverStarted) ∧
      (firstBranchFails.engine.after [.dropHandle 0, .settle 1 (.ok .null)]).world =
        (firstBranchFails.engine.after [.settle 1 (.ok .null)]).world := by
  have houtcome : twoDropped.engine.outcome? twoDropped.id = some (.error .neverStarted) := by
    decide +kernel
  obtain ⟨hnever, hpolled, -, -, -, hunlaunched, -⟩ := handles_spec twoDropped
  obtain ⟨-, -, -, -, -, -, hafter⟩ := handles_spec firstBranchFails
  have hforsaken := hnever.1 houtcome
  exact ⟨hforsaken, hunlaunched hforsaken [], hpolled.2 hforsaken,
    (hafter .null _ _ ⟨[], _, rfl, rfl⟩ rfl).1⟩

end Production

end Rundown
