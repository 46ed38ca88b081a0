import Rundown.Proofs.Playlist.Lasting
import Rundown.Proofs.Playlist.Onset

/-!
# The look that enters a group

A look at a playlist may enter a group deep inside.  Up to then nothing below that group has begun,
and afterwards the group does not become one that has not been entered.  `Step.Nears` says how far a
look has come with a group that nobody has entered before (`Step.Expects.pollWithin`,
`Step.Expects.pollPlace`).
-/

namespace Rundown

/-- `w'` follows `w`, and none of these actions has begun on the way. -/
structure World.Avoids (actions : List ActionId) (w w' : World) : Prop where
  same : ∀ a ∈ actions, w'.started? a = w.started? a
  log : ∃ log, w'.begun = w.begun ++ log ∧ ∀ b ∈ log, b.1 ∉ actions

namespace World.Avoids

variable {actions others : List ActionId} {w w' w'' : World}

theorem refl (w : World) : Avoids actions w w :=
  ⟨fun _ _ => rfl, [], (List.append_nil _).symm, fun _ hb => by cases hb⟩

theorem trans (h : Avoids actions w w') (h' : Avoids actions w' w'') :
    Avoids actions w w'' := by
  obtain ⟨log, hlog, hout⟩ := h.log
  obtain ⟨log', hlog', hout'⟩ := h'.log
  refine ⟨fun a ha => (h'.same a ha).trans (h.same a ha), log ++ log', ?_, ?_⟩
  · rw [hlog', hlog, List.append_assoc]
  · intro b hb
    exact (List.mem_append.1 hb).elim (hout b) (hout' b)

/-- A look at leaves that are not among the actions. -/
theorem of_evolves (h : Evolves others w w') (hsep : ∀ a ∈ actions, a ∉ others) :
    Avoids actions w w' := by
  obtain ⟨log, hlog, hin⟩ := h.exists_log
  exact ⟨fun a ha => h.started?_eq (hsep a ha), log, hlog, fun b hb ha => hsep b.1 ha (hin b hb)⟩

/-- A change of anything but the instances and the log. -/
theorem of_same (hi : w'.instances = w.instances) (hb : w'.begun = w.begun) :
    Avoids actions w w' :=
  ⟨fun a _ => by rw [started?, started?, hi], [], by rw [hb, List.append_nil],
    fun _ hb => by cases hb⟩

theorem schedule (w : World) (t : Task) : Avoids actions w (w.schedule t) :=
  .of_same (schedule_instances w t) (schedule_begun w t)

end World.Avoids

namespace Step

/-- Between two worlds somebody takes the look that enters the group `t`, which is at `place` in the
playlist, and nothing below the group has begun before. -/
def EnteredBetween (id : PlaylistId) (place : List Nat) (t : Step) (w w' : World) : Prop :=
  ∃ E : Entrance, E.Sound ∧ E.site.playlist = id ∧ E.site.place = place ∧
    (Step.group E.slot E.group E.steps).reset = t.reset ∧ World.Avoids t.leaves w E.world ∧
      E.polled.world.begun <+: w'.begun

/-- What has become, since the world `w`, of the group `t`, which is at `place` in the playlist and
is reached from the step by the indices `below`: nobody has entered it, or somebody has. -/
def Nears (id : PlaylistId) (place below : List Nat) (t : Step) (w : World) (s : Step)
    (w' : World) : Prop :=
  (World.Avoids t.leaves w w' ∧ ∃ u, s.at? below = some u ∧ u.stage.isStarted = false) ∨
    EnteredBetween id place t w w'

variable {id : PlaylistId} {place below : List Nat} {s s' t u : Step} {steps : List Step}
  {w w' w'' : World} {slot : Slot} {g : Group} {height i : Nat}

theorem EnteredBetween.after (h : EnteredBetween id place t w w') (hb : w'.begun <+: w''.begun) :
    EnteredBetween id place t w w'' := by
  obtain ⟨E, hE, hid, hplace, hreset, hbefore, hafter⟩ := h
  exact ⟨E, hE, hid, hplace, hreset, hbefore, hafter.trans hb⟩

theorem EnteredBetween.before (h : EnteredBetween id place t w' w'')
    (hw : World.Avoids t.leaves w w') : EnteredBetween id place t w w'' := by
  obtain ⟨E, hE, hid, hplace, hreset, hbefore, hafter⟩ := h
  exact ⟨E, hE, hid, hplace, hreset, hw.trans hbefore, hafter⟩

theorem Nears.before (h : Nears id place below t w' s w'') (hw : World.Avoids t.leaves w w') :
    Nears id place below t w s w'' :=
  h.imp (fun ⟨havoids, hu⟩ => ⟨hw.trans havoids, hu⟩) fun h => h.before hw

/-- Nobody has looked at the group. -/
theorem Nears.still (hat : s.at? below = some u) (hu : u.stage.isStarted = false)
    (hw : World.Avoids t.leaves w w') : Nears id place below t w s w' :=
  .inl ⟨hw, u, hat, hu⟩

theorem stage_withSlot (slot : Slot) (s : Step) : (s.withSlot slot).stage = s.stage := by
  cases s <;> rfl

theorem stage_forgotten (s : Step) : s.forgotten.stage = s.stage := by
  cases s <;> rfl

theorem at?_withSlot (slot : Slot) (hat : s.at? below = some u) :
    ∃ u', (s.withSlot slot).at? below = some u' ∧ u'.stage = u.stage := by
  cases below with
  | nil =>
    cases hat
    exact ⟨_, rfl, stage_withSlot slot s⟩
  | cons i below =>
    cases s with
    | leaf => cases hat
    | group => exact ⟨u, hat, rfl⟩

theorem at?_forgotten (hat : s.at? below = some u) :
    ∃ u', s.forgotten.at? below = some u' ∧ u'.stage = u.stage := by
  cases below with
  | nil =>
    cases hat
    exact ⟨_, rfl, stage_forgotten s⟩
  | cons i below =>
    cases s with
    | leaf => cases hat
    | group => exact ⟨u, hat, rfl⟩

/-- A step that is launched is not entered. -/
theorem at?_launch (site : Site) (v : Json) (h : s.Fresh) (hat : s.at? below = some u)
    (w : World) : ∃ u', (s.launch site v w).1.at? below = some u' ∧ u'.stage.isStarted = false := by
  have hu := h.at? hat
  cases s with
  | leaf slot a =>
    cases below with
    | nil => exact ⟨_, rfl, rfl⟩
    | cons => cases hat
  | group slot g steps =>
    unfold launch
    simp only [h.2.1]
    cases below with
    | nil => exact ⟨_, rfl, rfl⟩
    | cons i below =>
      refine ⟨u, hat, ?_⟩
      cases u with
      | leaf => rfl
      | group =>
        rw [stage, hu.2.1]
        rfl

/-- Whether the step is a parallel group. -/
def isParallel : Step → Bool
  | leaf _ _ => false
  | .group _ g _ => decide (g.kind ≠ .sequence)

/-- The group `t` is reached by the indices `below`, nobody has entered it, and its actions, which
belong to no other leaf, can begin. -/
structure Expects (s : Step) (below : List Nat) (t : Step) (w : World) : Prop where
  arrayed : s.Arrayed
  once : ∀ a ∈ t.leaves, s.leaves.count a ≤ 1
  logged : w.Logged
  unbegun : ∀ a ∈ t.leaves, w.started? a = some false
  stands : ∃ u, s.at? below = some u ∧ u.reset = t.reset ∧ u.stage.isStarted = false

/-- Another world in which the same actions have begun. -/
theorem Expects.of_same (h : Expects s below t w) (hi : w'.instances = w.instances)
    (hb : w'.begun = w.begun) : Expects s below t w' where
  arrayed := h.arrayed
  once := h.once
  logged := h.logged.of_same hi hb
  unbegun a ha := by
    rw [World.started?, hi]
    exact h.unbegun a ha
  stands := h.stands

theorem isParallel_congr (h : s.reset = t.reset) : s.isParallel = t.isParallel := by
  cases s with
  | leaf =>
    cases t with
    | leaf => rfl
    | group => cases h
  | group slot g steps =>
    cases t with
    | leaf => cases h
    | group slot' g' steps' =>
      have hfresh : Group.fresh g.kind = Group.fresh g'.kind := (Step.group.inj h).2.1
      obtain ⟨hkind, -⟩ := Group.mk.inj hfresh
      rw [isParallel, isParallel, hkind]

/-! ## Looks -/

/-- The look at the group itself enters it if the group has been launched. -/
theorem Expects.pollWithin_own (h : Expects s [] t w) (hk : t.isParallel = true) (site : Site)
    (waiter : Option Waiter) (hheight : s.height ≤ height) :
    Nears site.playlist site.place [] t w (pollWithin height site waiter s w).step
      (pollWithin height site waiter s w).world := by
  obtain ⟨u, hat, hreset, hs⟩ := h.stands
  cases hat
  have hparallel := (isParallel_congr hreset).trans hk
  have hleaves := leaves_congr hreset
  cases s with
  | leaf => cases hparallel
  | group slot g steps =>
    cases height with
    | zero => exact absurd hheight (Nat.not_le.2 (height_pos _))
    | succ height =>
      have hs : g.stage.isStarted = false := hs
      cases hstage : g.stage with
      | running | finished =>
        rw [hstage] at hs
        cases hs
      | triggered v =>
        have hfresh : ∀ s ∈ steps, s.Fresh := (arrayed_group.1 h.arrayed).1.fresh hs
        have hnodup : (leavesList steps).Nodup := List.nodup_iff_count_eq_one.2 fun a ha =>
          Nat.le_antisymm (h.once a (hleaves ▸ ha)) (List.one_le_count_iff.2 ha)
        let E : Entrance :=
          ⟨site, height, waiter, slot, g, steps, v, w, of_decide_eq_true hparallel, hstage⟩
        refine .inr ⟨E, ⟨hfresh, hnodup, h.logged, fun a ha => ?_, Nat.le_of_succ_le_succ hheight⟩,
          rfl, rfl, hreset, .refl w, List.prefix_refl _⟩
        exact h.unbegun a (hleaves ▸ ha)
      | created =>
        obtain ⟨waiters, hg, -⟩ := g.awaited waiter
        simp only [pollWithin, hstage, Stage.outcome?, hg]
        exact .still rfl rfl (.refl w)
      | expired =>
        simp only [pollWithin, hstage, Stage.outcome?]
        exact .still rfl (by rw [stage, hstage]; rfl) (.refl w)

/-- How far looks have come with the group `t`, which is inside the step with the index `i` of a
group whose steps were given, in the world `w`, at first. -/
structure Coming (id : PlaylistId) (place : List Nat) (i : Nat) (below : List Nat) (t : Step)
    (steps : List Step) (w : World) (r : List Step × World) : Prop where
  reset : resetList r.1 = resetList steps
  evolves : World.Evolves (leavesList steps) w r.2
  nears : ∃ c, r.1[i]? = some c ∧ Nears id place below t w c r.2

/-- The group is still below the step with the index `i`. -/
theorem Expects.within (h : Expects (.group slot g steps) (i :: below) t w) {steps' : List Step}
    (hreset : resetList steps' = resetList steps) {c : Step} (hc : steps'[i]? = some c)
    (hat : c.at? below = some u) : u.reset = t.reset ∧ t.leaves ⊆ c.leaves := by
  obtain ⟨u₀, hat₀, hreset₀, -⟩ := h.stands
  have hsame : (Step.group slot g steps').reset = (Step.group slot g steps).reset := by
    rw [Step.reset, Step.reset, hreset]
  obtain ⟨u', hat', hu'⟩ := at?_congr hsame hat₀
  rw [at?, hc, Option.bind_some, hat] at hat'
  cases hat'
  exact ⟨hu'.trans hreset₀, leaves_congr (hu'.trans hreset₀) ▸ at?_leaves hat⟩

/-- One act of a group: it concerns the step with the index `i`, or nothing below that one
begins. -/
theorem Expects.acts (h : Expects (.group slot g steps) (i :: below) t w)
    (hk : t.isParallel = true) {site : Site} {tasks : List Task}
    (hlook : ∀ (c : Step) (w : World), Expects c below t w → c.height ≤ height →
      Nears id place below t w
        (Step.pollWithin height (site.child tasks i) (some .parent) c w).step
        (Step.pollWithin height (site.child tasks i) (some .parent) c w).world)
    {r r' : List Step × World}
    (hacts : Group.Acts (lookBelow height site tasks) (launchBelow site tasks) height r r')
    (hr : Coming id place i below t steps w r) : Coming id place i below t steps w r' := by
  obtain ⟨hreset', hev'⟩ := acts_evolves (lookBelow_confined height site tasks)
    (lookBelow_fair height site tasks) (launchBelow_confined site tasks)
    (launchBelow_fair site tasks) hacts
  rw [leavesList_of_resetList hr.reset] at hev'
  have hreset := hreset'.trans hr.reset
  have hev := hr.evolves.trans hev'
  obtain ⟨c, hc, ⟨hb, u, hat, hu⟩ | hentered⟩ := hr.nears
  case inr =>
    obtain ⟨log, hlog, -⟩ := hev'.exists_log
    have hlt : i < r'.1.length := by
      rw [length_of_resetList hreset']
      exact (List.getElem?_eq_some_iff.1 hc).1
    exact ⟨hreset, hev, _, List.getElem?_eq_getElem hlt, .inr (hentered.after ⟨log, hlog.symm⟩)⟩
  obtain ⟨hur, hsub⟩ := h.within hr.reset hc hat
  have honce (a : ActionId) (ha : a ∈ t.leaves) : (leavesList r.1).count a ≤ 1 := by
    rw [leavesList_of_resetList hr.reset]
    exact h.once a ha
  have hunbegun (a : ActionId) (ha : a ∈ t.leaves) : r.2.started? a = some false :=
    (hb.same a ha).trans (h.unbegun a ha)
  -- What happens to another step does not concern the group.
  have beside {j : Nat} {s₁ s₂ : Step} {w₂ : World} (hj : r.1[j]? = some s₁) (hne : j ≠ i)
      (hev₂ : World.Evolves s₁.leaves r.2 w₂) :
      ∃ c', (r.1.set j s₂)[i]? = some c' ∧ Nears id place below t w c' w₂ := by
    refine ⟨c, (getElem?_set_of hj).2 (.inr ⟨Ne.symm hne, hc⟩), .still hat hu (hb.trans ?_)⟩
    exact .of_evolves hev₂ fun a ha =>
      notMem_of_count_le (honce a ha) hc hj (Ne.symm hne) (hsub ha)
  refine ⟨hreset, hev, ?_⟩
  cases hacts with
  | @launches steps₁ j s₁ v w₁ hj hfresh =>
    by_cases hne : j = i
    · subst hne
      obtain rfl : s₁ = c := Option.some.inj (hj.symm.trans hc)
      obtain ⟨u', hat', hu'⟩ := at?_launch (site.child tasks j) v hfresh hat w₁
      refine ⟨_, (getElem?_set_of hj).2 (.inl ⟨rfl, rfl⟩), .still hat' hu' (hb.trans ?_)⟩
      cases s₁ with
      | leaf slot' a =>
        -- A leaf has no group inside.
        cases below with
        | cons => cases hat
        | nil =>
          cases hat
          rw [← isParallel_congr hur] at hk
          cases hk
      | group =>
        rw [launchBelow_group j v hfresh]
        exact .schedule w₁ _
    · exact beside hj hne (launchBelow_confined site tasks j v s₁ w₁)
  | @looks steps₁ j s₁ w₁ hj hheight harrayed hs ha =>
    by_cases hne : j = i
    · subst hne
      obtain rfl : s₁ = c := Option.some.inj (hj.symm.trans hc)
      refine ⟨_, (getElem?_set_of hj).2 (.inl ⟨rfl, rfl⟩), ?_⟩
      unfold lookBelow
      split
      · exact .still hat hu hb
      · refine (hlook s₁ w₁ ⟨harrayed, fun a ha => ?_, hr.evolves.logged h.logged, hunbegun, u,
          hat, hur, hu⟩ hheight).before hb
        exact Nat.le_trans ((leaves_sublist (List.mem_of_getElem? hj)).count_le a) (honce a ha)
    · exact beside hj hne (lookBelow_confined height site tasks j s₁ w₁ hheight harrayed hs ha)
  | @takes steps₁ j s₁ w₁ o hj ha ho =>
    by_cases hne : j = i
    · subst hne
      obtain rfl : s₁ = c := Option.some.inj (hj.symm.trans hc)
      obtain ⟨u', hat', hu'⟩ := at?_withSlot (.done o) hat
      exact ⟨_, (getElem?_set_of hj).2 (.inl ⟨rfl, rfl⟩), .still hat' (hu' ▸ hu) hb⟩
    · exact beside hj hne (.refl w₁)
  | forgets steps₁ w₁ =>
    obtain ⟨u', hat', hu'⟩ := at?_forgotten hat
    refine ⟨c.forgotten, ?_, .still hat' (hu' ▸ hu) hb⟩
    rw [List.getElem?_map, show steps₁[i]? = some c from hc]
    rfl
  | wakes steps₁ w₁ t₁ => exact ⟨c, hc, .still hat hu (hb.trans (.schedule w₁ t₁))⟩

theorem Expects.pollWithin (h : Expects s below t w) (hk : t.isParallel = true) (site : Site)
    (waiter : Option Waiter) (hheight : s.height ≤ height) :
    Nears site.playlist (site.place ++ below) below t w
      (Step.pollWithin height site waiter s w).step
      (Step.pollWithin height site waiter s w).world := by
  induction height generalizing below s site waiter w with
  | zero => exact absurd hheight (Nat.not_le.2 s.height_pos)
  | succ height ih =>
    cases below with
    | nil =>
      rw [List.append_nil]
      exact h.pollWithin_own hk site waiter hheight
    | cons i below =>
      obtain ⟨u, hat, -, hs⟩ := h.stands
      cases s with
      | leaf => cases hat
      | group slot g steps =>
        obtain ⟨c, hi, hat⟩ := Option.bind_eq_some_iff.1 hat
        obtain ⟨tasks, g', steps', hhandles⟩ :=
          pollWithin_acts site waiter w h.arrayed (Nat.le_of_succ_le_succ hheight)
        have hlook (c : Step) (w : World) (hc : Expects c below t w) (hheight : c.height ≤ height) :
            Nears site.playlist (site.place ++ i :: below) below t w
              (Step.pollWithin height (site.child tasks i) (some .parent) c w).step
              (Step.pollWithin height (site.child tasks i) (some .parent) c w).world := by
          have hchild := ih hc (site.child tasks i) (some .parent) hheight
          rw [Site.child, List.append_assoc, List.singleton_append] at hchild
          exact hchild
        obtain ⟨-, -, c', hc', hnears⟩ := hhandles.worked.works.induction
          (Q := Coming site.playlist (site.place ++ i :: below) i below t steps w)
          ⟨rfl, .refl w, c, hi, .still hat hs (.refl w)⟩ fun r r' => h.acts hk hlook
        rw [hhandles.step]
        refine hnears.imp_left ?_
        rintro ⟨hb, u', hu', hs'⟩
        refine ⟨hb, u', ?_, hs'⟩
        rw [at?, show steps'[i]? = some c' from hc']
        exact hu'

/-! ## The looks of tasks -/

/-- A look inside a step that nobody has launched changes nothing. -/
theorem pollPlace_fresh (rest : List Nat) (site : Site) (w : World) (h : s.Fresh) :
    (s.pollPlace rest site w).world = w := by
  induction rest generalizing s site with
  | nil =>
    cases s with
    | leaf => rfl
    | group slot g steps =>
      obtain ⟨waiters, o, heq⟩ := poll_unplayed slot steps site (some .task) w (.inl h.2.1)
      rw [pollPlace, heq]
  | cons j rest ih =>
    cases s with
    | leaf => rfl
    | group slot g steps =>
      unfold pollPlace
      split
      · rfl
      next u hj => exact ih _ (h.child u (List.mem_of_getElem? hj))

theorem pollPlace_evolves (rest : List Nat) (site : Site) (w : World) (h : s.Arrayed) :
    World.Evolves s.leaves w (s.pollPlace rest site w).world := by
  induction rest generalizing s site with
  | nil => exact pollWithin_evolves site _ w h (Nat.le_refl _)
  | cons j rest ih =>
    cases s with
    | leaf => exact .refl w
    | group slot g steps =>
      unfold pollPlace
      split
      · exact .refl w
      next u hj =>
        have hm := List.mem_of_getElem? hj
        exact (ih _ ((arrayed_group.1 h).2 u hm)).mono (leaves_subset hm)

/-- The look that the task of a group takes, wherever in the playlist. -/
theorem Expects.pollPlace (h : Expects s below t w) (hk : t.isParallel = true) (rest : List Nat)
    (site : Site) : Nears site.playlist (site.place ++ below) below t w
      (s.pollPlace rest site w).step (s.pollPlace rest site w).world := by
  induction rest generalizing below s site with
  | nil => exact h.pollWithin hk site (some .task) (Nat.le_refl _)
  | cons j rest ih =>
    obtain ⟨u, hat, hur, hu⟩ := h.stands
    cases s with
    | leaf => exact .still hat hu (.refl w)
    | group slot g steps =>
      obtain ⟨hown, hbelow⟩ := arrayed_group.1 h.arrayed
      unfold Step.pollPlace
      split
      next => exact .still hat hu (.refl w)
      next s₁ hj =>
        have hm := List.mem_of_getElem? hj
        have hev := pollPlace_evolves rest (site.child (g.wakes site.above site.task) j) w
          (hbelow s₁ hm)
        cases below with
        | nil =>
          -- Nobody has launched the steps of the group.
          cases hat
          have hu : g.stage.isStarted = false := hu
          have hfresh : s₁.Fresh := hown.fresh hu s₁ hm
          refine .still rfl ?_ ?_
          · rw [stage, Group.noteWake_stage]
            exact hu
          · rw [pollPlace_fresh rest _ w hfresh]
            exact .refl w
        | cons i below =>
          obtain ⟨c, hc, hat⟩ := Option.bind_eq_some_iff.1 hat
          obtain ⟨-, hsub⟩ := h.within rfl hc hat
          have honce (a : ActionId) (ha : a ∈ t.leaves) : (leavesList steps).count a ≤ 1 :=
            h.once a ha
          suffices hnears : ∃ c', (steps.set j (s₁.pollPlace rest
              (site.child (g.wakes site.above site.task) j) w).step)[i]? = some c' ∧
              Nears site.playlist (site.place ++ i :: below) below t w c' (s₁.pollPlace rest
                (site.child (g.wakes site.above site.task) j) w).world by
            obtain ⟨c', hc', hnears⟩ := hnears
            refine hnears.imp_left ?_
            rintro ⟨hb, u', hu', hs'⟩
            refine ⟨hb, u', ?_, hs'⟩
            rw [at?, hc']
            exact hu'
          by_cases hne : j = i
          · subst hne
            obtain rfl : s₁ = c := Option.some.inj (hj.symm.trans hc)
            have hchild := ih ⟨hbelow s₁ hm, fun a ha => Nat.le_trans
              ((leaves_sublist hm).count_le a) (honce a ha), h.logged, h.unbegun, u, hat, hur, hu⟩
              (site.child (g.wakes site.above site.task) j)
            rw [Site.child, List.append_assoc, List.singleton_append] at hchild
            exact ⟨_, (getElem?_set_of hj).2 (.inl ⟨rfl, rfl⟩), hchild⟩
          · refine ⟨c, (getElem?_set_of hj).2 (.inr ⟨Ne.symm hne, hc⟩), .still hat hu ?_⟩
            exact .of_evolves hev fun a ha =>
              notMem_of_count_le (honce a ha) hc hj (Ne.symm hne) (hsub ha)

end Step

end Rundown
