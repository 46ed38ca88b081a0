import Rundown.Proofs.Playlist.Entered

/-!
# Launching steps

A step that nobody has touched is entered when it is launched (`Step.launch_launched`), and
launching all branches of a group enters them all (`Step.launchAll_launched`).  No leaf is refused
whose action no other leaf has.
-/

namespace Rundown

/-- None of these actions that is not shared comes twice. -/
def Scene.Apart (x : Scene) (actions : List ActionId) : Prop := ∀ a, x.sole a → actions.count a ≤ 1

namespace Scene.Apart

variable {x : Scene} {actions actions' : List ActionId}

theorem left (h : x.Apart (actions ++ actions')) : x.Apart actions := by
  intro a ha
  have := h a ha
  rw [List.count_append] at this
  omega

theorem right (h : x.Apart (actions ++ actions')) : x.Apart actions' := by
  intro a ha
  have := h a ha
  rw [List.count_append] at this
  omega

theorem notMem (h : x.Apart (actions ++ actions')) {a : ActionId} (ha : x.sole a)
    (hm : a ∈ actions) : a ∉ actions' := by
  intro hm'
  have := h a ha
  rw [List.count_append] at this
  have := List.count_pos_iff.2 hm
  have := List.count_pos_iff.2 hm'
  omega

theorem notMem' (h : x.Apart (actions ++ actions')) {a : ActionId} (ha : x.sole a)
    (hm : a ∈ actions') : a ∉ actions := fun hm' => h.notMem ha hm' hm

end Scene.Apart

namespace Scene.Follows

variable {x : Scene} {place : List Nat} {actions actions' : List ActionId} {w w' : World}

/-- A change that touches none of the actions in a way that matters to leaves. -/
theorem of_keeps {touched : ActionId → Prop} {due due' : Task → Prop}
    (h : World.Keeps touched w w')
    (hdue : ∀ below, due (.group x.playlist (place ++ below)) →
      due' (.group x.playlist (place ++ below)))
    (hquiet : ∀ a ∈ actions, w.started? a = some true → ¬touched a)
    (hunbegun : ∀ a ∈ actions, x.sole a → w.started? a = some false → ¬touched a) :
    Scene.Follows place actions (x.amid w due) (x.amid w' due') where
  playlist := rfl
  due := hdue
  sole _ _ hs := hs
  lead _ hl := hl
  began _ _ hb := h.began hb
  started := h.started
  settled := h.settled
  quiet a ha hs := (h.same a (hquiet a ha hs)).2
  unbegun a ha hs hu := (h.same a (hunbegun a ha hs hu)).1.trans hu

/-- A look at leaves of `actions'` is followed by what does not share unshared actions with them. -/
theorem of_evolves (h : World.Evolves actions' w w')
    (hsep : ∀ a ∈ actions, x.sole a → a ∉ actions') :
    Scene.Follows place actions (x.after w) (x.after w') :=
  of_keeps h.keeps (fun _ hd => h.keeps.due _ hd) (fun _ _ hs hn => hn.2 hs)
    fun a ha hx _ hn => hsep a ha hx hn.1

/-- What is due in the same world is all that changes. -/
theorem of_due {due due' : Task → Prop}
    (hdue : ∀ below, due (.group x.playlist (place ++ below)) →
      due' (.group x.playlist (place ++ below))) :
    Scene.Follows place actions (x.amid w due) (x.amid w due') :=
  have h : World.Keeps (fun _ => False) w w := .refl w
  of_keeps h hdue (fun _ _ _ hn => hn) fun _ _ _ _ hn => hn

/-- Scheduling concerns nobody. -/
theorem scheduleAll (w : World) (ts : List Task) :
    Scene.Follows place actions (x.after w) (x.after (w.scheduleAll ts)) :=
  have h := World.scheduleAll_keeps (fun _ => False) ts w
  of_keeps h (fun _ hd => h.due _ hd) (fun _ _ _ hn => hn) fun _ _ _ _ hn => hn

end Scene.Follows

namespace Step

/-- A step stays untouched while others are looked at. -/
theorem Untouched.of_evolves {x : Scene} {s : Step} {actions : List ActionId} {w w' : World}
    (h : s.Untouched (x.after w)) (hev : World.Evolves actions w w')
    (hsep : ∀ a ∈ s.leaves, x.sole a → a ∉ actions) : s.Untouched (x.after w') :=
  have hf : Scene.Follows [] s.leaves (x.after w) (x.after w') := .of_evolves hev hsep
  h.mono hf

/-- What launching the step at `place` with the input `v` leads to. -/
structure Launched (x : Scene) (place : List Nat) (v : Json) (s : Step) (w : World)
    (r : Step × World) : Prop where
  reset : r.1.reset = s.reset
  evolves : World.Evolves s.leaves w r.2
  entered : r.1.Entered (x.after r.2) place v
  tied : r.1.Tied
  awaited : r.1.isAwaited = true

variable {x : Scene} {place : List Nat} {w : World}

theorem launch_launched {site : Site} {s : Step} (v : Json)
    (hsite : site.task = .group x.playlist place) (h : s.Untouched (x.after w)) :
    Launched x place v s w (s.launch site v w) := by
  obtain ⟨hfresh, hunbegun⟩ := h
  cases s with
  | leaf slot a =>
    obtain rfl : slot = .idle := hfresh
    have hevolves : World.Evolves [a] w (w.beginAction a v).1 :=
      .begins v (List.mem_singleton.2 rfl) (.refl w)
    by_cases hs : w.started? a = some false
    · obtain ⟨htrue, hbegan, -⟩ := World.beginAction_began v hs
      have he : (Step.leaf .idle a).launch site v w =
          (.leaf .waiting a, (w.beginAction a v).1) := by
        simp only [launch, htrue, if_true]
      rw [he]
      exact ⟨rfl, hevolves, hbegan, trivial, rfl⟩
    · have hshared : ¬x.sole a := fun hx => hs (hunbegun a (List.mem_singleton.2 rfl) hx).1
      have he : (Step.leaf .idle a).launch site v w =
          (.leaf (.refused (.action .alreadyStarted)) a, w) := by
        simp only [launch, World.beginAction_refused v hs]
        rfl
      rw [he]
      exact ⟨rfl, .refl w, ⟨rfl, hshared⟩, trivial, rfl⟩
  | group slot g steps =>
    obtain ⟨-, hstage, hfail, hfits, hsteps⟩ := hfresh
    have he : (Step.group slot g steps).launch site v w =
        (.group .waiting { g with stage := .triggered v } steps, w.schedule site.task) := by
      simp only [launch, hstage]
    rw [he]
    have hev : World.Evolves (leaves (.group slot g steps)) w (w.schedule site.task) :=
      .schedule _ (.refl w)
    refine ⟨rfl, hev, ?_, .inl rfl, rfl⟩
    refine ⟨hfits, ?_, by simp, by simp, ?_, ?_, ?_, ?_⟩
    · show (w.schedule site.task).Due (.group x.playlist place)
      rw [← hsite]
      exact World.due_schedule w _
    · rintro input heq
      cases heq
      refine ⟨rfl, hfail, fun s hm => ⟨freshList_iff.1 hsteps s hm, ?_⟩⟩
      intro a ha hx
      obtain ⟨hs, hlead⟩ := hunbegun a (leaves_subset hm ha) hx
      exact ⟨((World.schedule_keeps w _ fun _ => False).same a not_false).1.trans hs, hlead⟩
    all_goals
      intro hstarted
      cases hstarted

/-- Launching steps one after another, all with the same input. -/
theorem launchAll_launched {launch : Launch} {v : Json}
    (hlaunch : ∀ (i : Nat) (s : Step) (w : World), s.Untouched (x.after w) →
      Launched x (place ++ [i]) v s w (launch i v s w)) {steps : List Step} (index : Nat)
    (hapart : x.Apart (leavesList steps)) (h : ∀ s ∈ steps, s.Untouched (x.after w)) :
    resetList (launchAll launch v index steps w).1 = resetList steps ∧
      World.Evolves (leavesList steps) w (launchAll launch v index steps w).2 ∧
      EnteredAll (x.after (launchAll launch v index steps w).2) place index v
        (launchAll launch v index steps w).1 ∧
      ∀ s ∈ (launchAll launch v index steps w).1, s.isAwaited = true := by
  induction steps generalizing index w with
  | nil => exact ⟨rfl, .refl w, trivial, by simp [launchAll]⟩
  | cons s rest ih =>
    have hs := hlaunch index s w (h s List.mem_cons_self)
    rcases hr : launch index v s w with ⟨s', w'⟩
    rw [hr] at hs
    have hrest : ∀ t ∈ rest, t.Untouched (x.after w') := fun t ht =>
      (h t (List.mem_cons_of_mem _ ht)).of_evolves hs.evolves fun a ha hx =>
        hapart.notMem' hx (leaves_subset ht ha)
    obtain ⟨hreset, hev, hall, hawait⟩ := ih (index + 1) hapart.right hrest
    rcases hrr : launchAll launch v (index + 1) rest w' with ⟨rest', w''⟩
    rw [hrr] at hreset hev hall hawait
    simp only [launchAll, hr, hrr]
    have hleaves : s'.leaves = s.leaves := leaves_congr hs.reset
    refine ⟨?_, ?_, ⟨⟨hs.entered.mono (.of_evolves hev ?_), hs.tied⟩, hall⟩, ?_⟩
    · rw [resetList, resetList, hs.reset, hreset]
    · exact (hs.evolves.mono (List.subset_append_left _ _)).trans
        (hev.mono (List.subset_append_right _ _))
    · intro a ha hx
      exact hapart.notMem hx (hleaves ▸ ha)
    · exact List.forall_mem_cons.2 ⟨hs.awaited, hawait⟩

end Step

end Rundown
