import Rundown.Proofs.World.Awaiting
import Rundown.Proofs.World.Occurrence

/-!
# Ending an action that awaits a signal

An action that awaits a signal can be told to end.  Its listener then never looks again, so the
action settles with the first signal only if the listener's task has run between that signal and the
end: a signal that has reached the mailbox when the action is told to end, but has not been looked
at, is lost (`World.endAction_spec`).

Until the end the listener `World.Attends`: a signal that has been sent has its task queued.  From
then on the action is `World.Deaf`: it has not settled, and no listener of it looks.  That giving up
the listener does not abandon the action is counted by `World.Secure`, which everything keeps.
-/

namespace Rundown

/-- The occurrence leaves the action's completion and its receiver alone.  It may tell the action to
end. -/
def Occurrence.Spares (a : ActionId) (r : ReceiverId) : Occurrence → Prop
  | .outside (.settle b _) _ => b ≠ a
  | .outside (.receive r') _ | .outside (.drop r') _ => r' ≠ r
  | _ => True

/-- Whether the occurrence tells the action to end. -/
def Occurrence.ends (a : ActionId) : Occurrence → Bool
  | .outside (.endAction b) _ => b == a
  | _ => false

/-- What happens until the action is told to end, or all if it is not. -/
def untilEnd (a : ActionId) (history : List Occurrence) : List Occurrence :=
  history.takeWhile fun o => !o.ends a

namespace World

variable {w w' : World} {c : Nat} {a b : ActionId} {r r' : ReceiverId} {i : Incident}
  {o : Occurrence} {t : Task} {name : String} {sent : List Signal} {s : Signal}
  {history later : List Occurrence}

/-! ## The task of a listener -/

theorem runListener_none (h : w.listeners.find? (fun l => l.receiver == r) = none) :
    w.runListener r = (w, none) := by
  simp only [runListener, h]

/-- What the task of a listener can do: go away because it was told to, settle its action, or look
in vain and wait behind the others. -/
theorem runListener_cases {l : Listener}
    (h : w.listeners.find? (fun l => l.receiver == r) = some l) :
    (l.ended = true ∧ (w.runListener r).1 = (w.dropListener l).release l.action) ∨
      (∃ bus s, l.ended = false ∧ (w.runListener r).1 = (((({ w with bus := bus } : World).settle
        l.action s).1.dropListener l).release l.action) ∧
        (w.settlement? l.action = none → (w.runListener r).2 = some l.action)) ∨
      ∃ bus, l.ended = false ∧ (w.runListener r).1 = { w with
        bus := bus
        listeners := w.listeners.filter (fun l' => l'.receiver != l.receiver) ++ [l] } := by
  obtain rfl : l.receiver = r := by simpa using List.find?_some h
  have answer (bus : Bus) (s : Settlement) (hnone : w.settlement? l.action = none) :
      (if (({ w with bus := bus } : World).settle l.action s).2 = true then some l.action
        else none) = some l.action := by
    rw [settle_unsettled (w := { w with bus := bus }) hnone, if_pos rfl]
  cases hended : l.ended with
  | true =>
    refine .inl ⟨rfl, ?_⟩
    simp only [runListener, h, hended, if_true]
  | false =>
    refine .inr ?_
    rcases hread : w.bus.receiveKept l.receiver with ⟨bus, received⟩
    simp only [runListener, h, hended, hread, Bool.false_eq_true, if_false]
    cases received with
    | signal s => exact .inl ⟨bus, settlementOf s, trivial, rfl, answer bus _⟩
    | closed => exact .inl ⟨bus, _, trivial, rfl, answer bus _⟩
    | lagged | empty => exact .inr ⟨bus, trivial, rfl⟩

/-! ## Holders of a completion -/

/-- The listeners of an action. -/
def listenersOf (w : World) (a : ActionId) : List Listener :=
  w.listeners.filter fun l => l.action == a

/-- An action that has begun and has no timer is held, as long as it has not settled, by all its
listeners and somebody else. -/
structure Secure (a : ActionId) (w : World) : Prop where
  started : w.started? a = some true
  untimed : ∀ t ∈ w.timers, t.action ≠ a
  held : w.settlement? a = none →
    ∃ i, w.instances[a]? = some i ∧ (w.listenersOf a).length < i.holders

/-- A change passes the action by: it leaves its completion alone, and brings it no timers and
listeners. -/
structure Bypasses (a : ActionId) (w w' : World) : Prop where
  same : w'.instances[a]? = w.instances[a]?
  untimed : (∀ t ∈ w.timers, t.action ≠ a) → ∀ t ∈ w'.timers, t.action ≠ a
  fewer : (w'.listenersOf a).length ≤ (w.listenersOf a).length
  ended : (∀ l ∈ w.listenersOf a, l.ended = true) → ∀ l ∈ w'.listenersOf a, l.ended = true

namespace Bypasses

theorem of_same (hi : w'.instances[a]? = w.instances[a]?)
    (ht : (∀ t ∈ w.timers, t.action ≠ a) → ∀ t ∈ w'.timers, t.action ≠ a)
    (hl : w'.listenersOf a = w.listenersOf a) : Bypasses a w w' :=
  ⟨hi, ht, Nat.le_of_eq (congrArg List.length hl), fun h => hl ▸ h⟩

theorem refl (a : ActionId) (w : World) : Bypasses a w w := .of_same rfl id rfl

theorem trans {w'' : World} (h : Bypasses a w w') (h' : Bypasses a w' w'') :
    Bypasses a w w'' where
  same := h'.same.trans h.same
  untimed := h'.untimed ∘ h.untimed
  fewer := Nat.le_trans h'.fewer h.fewer
  ended := h'.ended ∘ h.ended

theorem requeued {w'' : World} (h : Bypasses a w w') (hq : Requeued w' w'') :
    Bypasses a w w'' := by
  obtain ⟨_, _, _, _, rfl⟩ := hq
  exact ⟨h.same, h.untimed, h.fewer, h.ended⟩

theorem emit (s : Signal) : Bypasses a w (w.emit s).1 := by
  have hsent : Bypasses a w { w with bus := (w.bus.emit s).1 } := .of_same rfl id rfl
  exact hsent.requeued (.scheduleAll _ _)

theorem settle (hb : b ≠ a) (s : Settlement) : Bypasses a w (w.settle b s).1 := by
  have hsame := (settle_effected w b s).instance_ne hb
  obtain ⟨instances, heq⟩ := settle_eq w b s
  rw [heq] at hsame ⊢
  exact .of_same hsame id rfl

/-- An effect of beginning another action. -/
theorem perform (hb : b ≠ a) (e : Effect) : Bypasses a w (perform b w e) := by
  cases e with
  | settle s => exact .settle hb s
  | completeAfter delay value =>
    have hwaiting : Bypasses a w { w.retain b with
        timers := w.timers ++ [⟨w.nextTimer, b, delay, value, none⟩]
        nextTimer := w.nextTimer + 1 } := by
      refine .of_same (instances_modifyInstance_ne _ hb) (fun h t ht => ?_) rfl
      rcases List.mem_append.1 ht with ht | ht
      · exact h t ht
      · rw [List.mem_singleton.1 ht]
        exact hb
    exact hwaiting.requeued (.schedule _ _)
  | listen name =>
    cases hsubscribe : w.bus.subscribe name with
    | none =>
      simp only [World.perform, hsubscribe]
      exact .of_same rfl id rfl
    | some result =>
      obtain ⟨bus, r⟩ := result
      rw [perform_listen hsubscribe]
      have hlistening : Bypasses a w { w.retain b with
          bus := bus
          listeners := w.listeners ++ [⟨r, b, name, false⟩] } := by
        refine .of_same (instances_modifyInstance_ne _ hb) id ?_
        simp [listenersOf, hb]
      exact hlistening.requeued (.schedule _ _)
  | emit s => exact .emit s
  | park name => exact .of_same (instances_modifyInstance_ne _ hb) id rfl

theorem performAll (hb : b ≠ a) (es : List Effect) :
    Bypasses a w (es.foldl (World.perform b) w) := by
  induction es generalizing w with
  | nil => exact .refl a w
  | cons e es ih => exact (perform hb e).trans ih

/-- An action that has begun does not begin again. -/
theorem beginAction (ha : w.started? a = some true) (b : ActionId) (v : Json) :
    Bypasses a w (w.beginAction b v).1 := by
  by_cases hs : w.started? b = some false
  · have hb : b ≠ a := by
      rintro rfl
      rw [ha] at hs
      cases hs
    rw [beginAction_eq_effects v hs]
    have hmark : Bypasses a w (w.mark b v) :=
      .of_same (instances_modifyInstance_ne _ hb) id rfl
    exact hmark.trans (.performAll hb _)
  · rw [beginAction_refused v hs]
    exact .refl a w

/-- What is told to end listens no more, and nothing else changes. -/
theorem endAction (b : ActionId) : Bypasses a w (w.endAction b) := by
  suffices htold : Bypasses a w { w with
      listeners := w.listeners.map fun l =>
        if l.action == b then { l with ended := true } else l } from
    htold.requeued (.scheduleAll _ _)
  refine ⟨rfl, id, ?_, ?_⟩
  all_goals
    have haction : ((fun l : Listener => l.action == a) ∘ fun l =>
        if l.action == b then { l with ended := true } else l) = fun l => l.action == a := by
      funext l
      rw [Function.comp_apply]
      split <;> rfl
    simp only [listenersOf, List.filter_map, haction]
  · exact Nat.le_of_eq (List.length_map _)
  · intro h l' hl'
    obtain ⟨l, hl, rfl⟩ := List.mem_map.1 hl'
    split
    · rfl
    · exact h l hl

/-- A timer is concerned with its own action. -/
theorem runTimer (huntimed : ∀ t ∈ w.timers, t.action ≠ a) (id : TimerId) :
    Bypasses a w (w.runTimer id).1 := by
  obtain ⟨-, hlisteners, htimers⟩ := runTimer_timers w id
  refine ⟨?_, fun h t' ht' => ?_, ?_, ?_⟩
  · unfold World.runTimer
    split
    · rfl
    next t ht =>
      have ha : t.action ≠ a := huntimed t (List.mem_of_find?_eq_some ht)
      dsimp only
      split
      · exact (instances_modifyInstance_ne _ ha).trans ((settle_effected _ _ _).instance_ne ha)
      · split <;> rfl
  · obtain ⟨t, ht, ha⟩ := htimers t' ht'
    exact ha ▸ h t ht
  · rw [listenersOf, hlisteners]
    exact Nat.le_refl _
  · rw [listenersOf, listenersOf, hlisteners]
    exact fun h => h

/-- A listener is concerned with its own action. -/
theorem runListener
    (hother : ∀ l, w.listeners.find? (fun l => l.receiver == r) = some l → l.action ≠ a) :
    Bypasses a w (w.runListener r).1 := by
  cases hl : w.listeners.find? fun l => l.receiver == r with
  | none =>
    rw [runListener_none hl]
    exact .refl a w
  | some l =>
    have ha := hother l hl
    have hothers : ((w.listeners.filter fun l' => l'.receiver != l.receiver).filter
        fun l => l.action == a).Sublist (w.listenersOf a) := List.filter_sublist.filter _
    have drop (w' : World) (hsame : w'.instances[a]? = w.instances[a]?)
        (ht : w'.timers = w.timers) (hls : w'.listeners = w.listeners) :
        Bypasses a w ((w'.dropListener l).release l.action) := by
      have hlisteners : ((w'.dropListener l).release l.action).listenersOf a =
          (w.listeners.filter fun l' => l'.receiver != l.receiver).filter
            fun l => l.action == a := by
        rw [← hls]
        rfl
      refine ⟨(instances_modifyInstance_ne _ ha).trans hsame, fun h => ?_, ?_, fun h l' hl' => ?_⟩
      · rw [← ht] at h
        exact h
      · rw [hlisteners]
        exact hothers.length_le
      · rw [hlisteners] at hl'
        exact h l' (hothers.subset hl')
    rcases runListener_cases hl with ⟨-, heq⟩ | ⟨bus, s, -, heq, -⟩ | ⟨bus, -, heq⟩ <;> rw [heq]
    · exact drop w rfl rfl rfl
    · have hsame := (settle_effected { w with bus := bus } l.action s).instance_ne ha
      obtain ⟨instances, hset⟩ := settle_eq { w with bus := bus } l.action s
      rw [hset] at hsame ⊢
      exact drop _ hsame rfl rfl
    · have hlisteners : (w.listeners.filter (fun l' => l'.receiver != l.receiver) ++ [l]).filter
          (fun l => l.action == a) = (w.listeners.filter fun l' => l'.receiver != l.receiver).filter
            fun l => l.action == a := by
        simp [ha]
      refine ⟨rfl, fun h => h, ?_, fun h l' hl' => ?_⟩
      · rw [listenersOf, hlisteners]
        exact hothers.length_le
      · rw [listenersOf, hlisteners] at hl'
        exact h l' (hothers.subset hl')

end Bypasses

/-- An incident passes an action by that has begun, unless somebody settles it or its own listener
looks. -/
theorem incur_bypasses (ha : w.started? a = some true) (huntimed : ∀ t ∈ w.timers, t.action ≠ a)
    (hsettle : ∀ s, i ≠ .settle a s) (hpoll : ∀ r, i = .poll r → ∀ l,
      w.listeners.find? (fun l => l.receiver == r) = some l → l.action ≠ a) :
    Bypasses a w (w.incur i) := by
  cases i with
  | build action =>
    obtain ⟨j, hj, -⟩ := Option.map_eq_some_iff.1 ha
    refine .of_same ?_ id rfl
    change (w.instances ++ [_])[a]? = w.instances[a]?
    exact List.getElem?_append_left (List.getElem?_eq_some_iff.1 hj).1
  | begin b v => exact .beginAction ha b v
  | settle b s =>
    exact .settle (fun hb => hsettle s (by rw [hb])) s
  | endAction b => exact .endAction b
  | emit s => exact .emit s
  | subscribe name =>
    change Bypasses a w (w.subscribe name).1
    unfold World.subscribe
    split <;> exact .of_same rfl id rfl
  | receive r | drop r => exact .of_same rfl id rfl
  | poll r => exact .runListener (hpoll r rfl)
  | expire id => exact .runTimer huntimed id
  | moveClock now =>
    have hmoved : Bypasses a w { w with clock := now } := .of_same rfl (fun h => h) rfl
    exact hmoved.requeued (.enqueueAll _ _)
  | requeue ready arrivals running rewoken => exact (Bypasses.refl a w).requeued ⟨_, _, _, _, rfl⟩

/-- Without its own listener an action has fewer listeners. -/
theorem length_others_lt {l : Listener} (hl : l ∈ w.listeners) :
    ((w.listeners.filter fun l' => l'.receiver != l.receiver).filter
      fun l' => l'.action == l.action).length < (w.listenersOf l.action).length := by
  rw [List.filter_comm]
  refine List.length_filter_lt_length_iff_exists.2 ⟨l, List.mem_filter.2 ⟨hl, ?_⟩, ?_⟩ <;> simp

/-- The listener of an action that was told to end goes away, and somebody else still holds the
completion. -/
theorem dropListener_held {l : Listener} {j : Instance} (hl : l ∈ w.listeners)
    (hj : w.instances[l.action]? = some j) (hheld : (w.listenersOf l.action).length < j.holders)
    (hnone : w.settlement? l.action = none) :
    ((w.dropListener l).release l.action).settlement? l.action = none ∧
      ∃ i, ((w.dropListener l).release l.action).instances[l.action]? = some i ∧
        (((w.dropListener l).release l.action).listenersOf l.action).length < i.holders := by
  have hfewer := length_others_lt hl
  have hmany : ¬j.holders ≤ 1 := by omega
  have hunsettled : j.settlement = none := by
    rwa [settlement?, hj, Option.bind_some] at hnone
  have hdropped : ((w.dropListener l).release l.action).instances[l.action]? =
      some { j with holders := j.holders - 1 } := by
    refine (instances_modifyInstance_self _ (w := w.dropListener l) hj).trans ?_
    simp only [if_neg hmany]
  refine ⟨?_, _, hdropped, ?_⟩
  · rw [settlement?, hdropped, Option.bind_some]
    exact hunsettled
  · change ((w.listeners.filter fun l' => l'.receiver != l.receiver).filter
      fun l' => l'.action == l.action).length < j.holders - 1
    omega

namespace Secure

theorem bypassed (h : w.Secure a) (hb : Bypasses a w w') : w'.Secure a where
  started := by rw [started?, hb.same]; exact h.started
  untimed := hb.untimed h.untimed
  held hnone := by
    rw [settlement?, hb.same] at hnone
    obtain ⟨j, hj, hlt⟩ := h.held hnone
    exact ⟨j, hb.same.trans hj, Nat.lt_of_le_of_lt hb.fewer hlt⟩

/-- Whatever a listener does, a completion that has not settled is still held by somebody else. -/
theorem runListener (h : w.Secure a) (r : ReceiverId) : (w.runListener r).1.Secure a := by
  have hsettles := runListener_settles w r
  refine ⟨hsettles.keeps.started a h.started, ?_, fun hnone => ?_⟩
  · rw [(runListener_listened w r).timers]
    exact h.untimed
  have hbefore : w.settlement? a = none := by
    by_contra hs
    obtain ⟨s, hs⟩ := Option.ne_none_iff_exists'.1 hs
    rw [hsettles.keeps.settled a s hs] at hnone
    cases hnone
  by_cases hother : ∀ l, w.listeners.find? (fun l => l.receiver == r) = some l → l.action ≠ a
  · exact (h.bypassed (.runListener hother)).held hnone
  · push Not at hother
    obtain ⟨l, hl, rfl⟩ := hother
    obtain ⟨j, hj, hlt⟩ := h.held hbefore
    have hmem := List.mem_of_find?_eq_some hl
    rcases runListener_cases hl with ⟨-, heq⟩ | ⟨bus, s, -, -, hanswer⟩ | ⟨bus, -, heq⟩
    · rw [heq]
      exact (dropListener_held hmem hj hlt hbefore).2
    · exact absurd hnone (hsettles.settled _ (hanswer hbefore) h.started)
    · rw [heq]
      refine ⟨j, hj, ?_⟩
      have hfewer := length_others_lt hmem
      simp only [listenersOf, List.filter_append, List.filter_singleton, beq_self_eq_true,
        List.length_append, cond_true, List.length_singleton]
      exact Nat.lt_of_le_of_lt hfewer hlt

theorem incur (h : w.Secure a) (i : Incident) : (w.incur i).Secure a := by
  by_cases hpoll : ∃ r, i = .poll r
  · obtain ⟨r, rfl⟩ := hpoll
    exact h.runListener r
  by_cases hsettle : ∃ s, i = .settle a s
  · obtain ⟨s, rfl⟩ := hsettle
    refine ⟨(settle_keeps w a s).started a h.started, ?_, fun hnone => ?_⟩
    · obtain ⟨instances, heq⟩ := settle_eq w a s
      rw [World.incur, heq]
      exact h.untimed
    · exact absurd hnone (settlement?_settle s h.started)
  · exact h.bypassed (incur_bypasses h.started h.untimed (fun s hs => hsettle ⟨s, hs⟩)
      fun r hr => absurd ⟨r, hr⟩ hpoll)

end Secure

/-- An action none of whose listeners looks takes no notice of being told to end. -/
theorem endAction_eq_self (h : ∀ l ∈ w.listenersOf a, l.ended = true) : w.endAction a = w := by
  have hending : (w.listeners.filter fun l => l.action == a && !l.ended) = [] := by
    rw [List.filter_eq_nil_iff]
    intro l hl hconcerned
    rw [Bool.and_eq_true] at hconcerned
    rw [h l (List.mem_filter.2 ⟨hl, hconcerned.1⟩)] at hconcerned
    cases hconcerned.2
  have htold : (w.listeners.map fun l => if l.action == a then { l with ended := true } else l) =
      w.listeners := by
    refine (List.map_congr_left fun l hl => ?_).trans (List.map_id w.listeners)
    split
    next ha =>
      rw [id, ← h l (List.mem_filter.2 ⟨hl, ha⟩)]
    next => rfl
  simp only [endAction, hending, htold, List.map_nil]
  rfl

/-- No listener of the action looks any more. -/
structure Deaf (a : ActionId) (w : World) : Prop where
  secure : w.Secure a
  ended : ∀ l ∈ w.listenersOf a, l.ended = true

theorem Secure.deaf_endAction (h : w.Secure a) : (w.endAction a).Deaf a := by
  refine ⟨h.incur (.endAction a), ?_⟩
  obtain ⟨_, _, _, _, hq⟩ := Requeued.scheduleAll { w with
    listeners := w.listeners.map fun l => if l.action == a then { l with ended := true } else l }
    ((w.listeners.filter fun l => l.action == a && !l.ended).map fun l => .listener l.receiver)
  rw [endAction, hq]
  intro l' hl'
  obtain ⟨hl', ha⟩ := List.mem_filter.1 hl'
  obtain ⟨l, hl, rfl⟩ := List.mem_map.1 hl'
  by_cases hla : (l.action == a) = true
  · rw [if_pos hla]
  · rw [if_neg hla] at ha
    exact absurd ha hla

namespace Deaf

variable (h : w.Deaf a)

include h

/-- Whatever happens, a deaf action stays deaf. -/
theorem incur (i : Incident) : (w.incur i).Deaf a := by
  refine ⟨h.secure.incur i, ?_⟩
  by_cases hsettle : ∃ s, i = .settle a s
  · obtain ⟨s, rfl⟩ := hsettle
    obtain ⟨instances, heq⟩ := settle_eq w a s
    rw [World.incur, heq]
    exact h.ended
  by_cases hother : ∀ r, i = .poll r → ∀ l,
      w.listeners.find? (fun l => l.receiver == r) = some l → l.action ≠ a
  · exact (incur_bypasses h.secure.started h.secure.untimed (fun s hs => hsettle ⟨s, hs⟩)
      hother).ended h.ended
  · push Not at hother
    obtain ⟨r, rfl, l, hl, rfl⟩ := hother
    have hended := h.ended l (List.mem_filter.2 ⟨List.mem_of_find?_eq_some hl, by simp⟩)
    rcases runListener_cases hl with ⟨-, heq⟩ | ⟨-, -, hlooks, -⟩ | ⟨-, hlooks, -⟩
    · intro l' hl'
      rw [World.incur, heq] at hl'
      obtain ⟨hl', ha⟩ := List.mem_filter.1 hl'
      exact h.ended l' (List.mem_filter.2 ⟨List.mem_of_mem_filter hl', ha⟩)
    · cases hended.symm.trans hlooks
    · cases hended.symm.trans hlooks

/-- Unless somebody settles it, nothing becomes of it. -/
theorem settlement?_incur (hi : ∀ s, i ≠ .settle a s) :
    (w.incur i).settlement? a = w.settlement? a := by
  cases hsettled : w.settlement? a with
  | some s => exact World.settlement?_incur hsettled i
  | none =>
    by_cases hother : ∀ r, i = .poll r → ∀ l,
        w.listeners.find? (fun l => l.receiver == r) = some l → l.action ≠ a
    · have hbypasses := incur_bypasses h.secure.started h.secure.untimed hi hother
      rw [settlement?, hbypasses.same]
      exact hsettled
    · push Not at hother
      obtain ⟨r, rfl, l, hl, rfl⟩ := hother
      obtain ⟨j, hj, hlt⟩ := h.secure.held hsettled
      have hmem := List.mem_of_find?_eq_some hl
      have hended := h.ended l (List.mem_filter.2 ⟨hmem, by simp⟩)
      rcases runListener_cases hl with ⟨-, heq⟩ | ⟨-, -, hlooks, -⟩ | ⟨-, hlooks, -⟩
      · rw [World.incur, heq]
        exact (dropListener_held hmem hj hlt hsettled).1
      · cases hended.symm.trans hlooks
      · cases hended.symm.trans hlooks

end Deaf

/-! ## A listener whose task is queued -/

/-- The action awaits a signal of the name, and its listener's task is queued if one has been
sent. -/
structure Attends (name : String) (a : ActionId) (r : ReceiverId) (sent : List Signal)
    (w : World) : Prop where
  awaits : w.Awaits name a r sent
  due : sent ≠ [] → w.Due (.listener r)

/-- A signal makes the task of the listener ready. -/
theorem Awaits.due_emit (h : w.Awaits name a r sent) (hname : s.name = name) :
    (w.emit s).1.Due (.listener r) := by
  refine due_scheduleAll _ (List.mem_map.2 ⟨⟨r, a, name, false⟩, List.mem_filter.2 ⟨?_, ?_⟩, rfl⟩)
  · exact List.mem_of_find?_eq_some h.find?_listener
  · exact List.contains_iff_mem.2 ((Bus.mem_membersOf h.queues.tidy).2
      ((h.queues.joined s.name).2 hname))

/-- So does a signal that another action sends when it begins. -/
theorem Awaits.due_performAll (h : w.Awaits name a r sent) (hb : b ≠ a) (es : List Effect)
    (hsent : named name (es.filterMap Effect.signal?) ≠ []) :
    (es.foldl (World.perform b) w).Due (.listener r) := by
  induction es generalizing w sent with
  | nil => exact absurd rfl hsent
  | cons e es ih =>
    rw [List.filterMap_cons] at hsent
    split at hsent
    next he => exact ih (h.perform hb he) hsent
    next s he =>
      obtain rfl : e = .emit s := by
        cases e <;> cases he
        rfl
      by_cases hname : s.name = name
      · exact (performAll_keeps b es _).due _ (h.due_emit hname)
      · refine ih (h.emit s) ?_
        rwa [← List.singleton_append, named_append, named_singleton, if_neg hname,
          List.nil_append] at hsent

namespace Attends

variable (h : w.Attends name a r sent)

include h

/-- An incident from outside that does not tell the action to end. -/
theorem incur (external : i.isExternal = true) (hi : i.Spares a r) :
    (w.incur i).Attends name a r (sent ++ named name (w.emits i)) := by
  refine ⟨h.awaits.incur hi fun heq => ?_, fun hsent => ?_⟩
  · rw [heq] at external
    cases external
  by_cases hbefore : sent = []
  · rw [hbefore, List.nil_append] at hsent
    cases i with
    | emit s =>
      refine h.awaits.due_emit ?_
      by_contra hname
      rw [emits, named_singleton, if_neg hname] at hsent
      exact hsent rfl
    | begin b v =>
      rw [emits] at hsent
      split at hsent
      next hs =>
        have hb : b ≠ a := by
          rintro rfl
          rw [h.awaits.started] at hs
          cases hs
        have hmarked : (w.mark b v).Awaits name a r sent :=
          h.awaits.of_bus h.awaits.queues rfl rfl ((mark_keeps v hs).same a (Ne.symm hb))
        rw [World.incur, beginAction_eq_effects v hs]
        exact hmarked.due_performAll hb _ hsent
      · exact absurd rfl hsent
    | build | settle | endAction | subscribe | receive | drop | moveClock =>
      exact absurd rfl hsent
    | poll | expire | requeue => cases external
  · exact (incur_keeps w external).due _ (h.due hbefore)

/-- An occurrence in which neither the action is told to end nor its listener runs. -/
theorem occur (hidle : w.running = none) (ho : o.Spares a r) (hends : o.ends a = false)
    (hruns : w.runs o ≠ some (.listener r)) :
    (w.occur o).Attends name a r (sent ++ named name (w.sentBy o)) := by
  by_cases hinside : ∀ i external, o ≠ .outside i external
  · have hsilent : w.sentBy o = [] := by
      cases o with
      | outside i external => exact absurd rfl (hinside i external)
      | run => rfl
    rw [hsilent, named, List.filter_nil, List.append_nil]
    refine ⟨?_, fun hsent => due_occur hidle (h.due hsent) hruns⟩
    cases ht : w.runs o with
    | none =>
      rw [occur_eq_self hinside ht]
      exact h.awaits
    | some t =>
      obtain ⟨w₁, htaken, -, -, hstopped, -⟩ := (occur_ran hidle ht).started
      have hawaits := h.awaits.requeue htaken
      refine Awaits.requeue ?_ hstopped
      cases t with
      | timer id => exact hawaits.runTimer id
      | listener r' =>
        exact hawaits.runListener_other fun hr => hruns (by rw [ht, hr])
      | group id place => exact hawaits
  · push Not at hinside
    obtain ⟨i, external, rfl⟩ := hinside
    refine h.incur external ?_
    cases i with
    | endAction b => exact beq_eq_false_iff_ne.1 hends
    | settle | receive | drop => exact ho
    | build | begin | emit | subscribe | poll | expire | moveClock | requeue => trivial

end Attends

/-- The listener runs before anything has been sent. -/
theorem Attends.occur_vain (h : w.Attends name a r []) (hidle : w.running = none)
    (hruns : w.runs o = some (.listener r)) : (w.occur o).Attends name a r [] := by
  obtain ⟨w₁, htaken, -, -, hstopped, -⟩ := (occur_ran hidle hruns).started
  exact ⟨(h.awaits.requeue htaken).runListener_vain.requeue hstopped, fun hsent => absurd rfl hsent⟩

/-- The listener runs after something has been sent, of which nothing is lost. -/
theorem Attends.occur_settles (h : w.Attends name a r sent) (hidle : w.running = none)
    (hruns : w.runs o = some (.listener r)) (hsent : sent ≠ [])
    (hfits : sent.length ≤ w.bus.retention) :
    ∃ s, sent.head? = some s ∧ (w.occur o).settlement? a = some (settlementOf s) := by
  obtain ⟨w₁, htaken, -, -, hstopped, -⟩ := (occur_ran hidle hruns).started
  obtain ⟨s, hs, -, hset⟩ := (h.awaits.requeue htaken).runListener_settled hsent
  rw [htaken.listeners.2, Nat.sub_eq_zero_of_le hfits, ← List.head?_eq_getElem?] at hs
  exact ⟨s, hs, (hstopped.settlement? a).trans hset⟩

/-- The listener has run after a signal of the name had been sent, apart from `sent`. -/
def HearsAfter (name : String) (r : ReceiverId) (sent : List Signal) (w : World)
    (history : List Occurrence) : Prop :=
  ∃ earlier o later, history = earlier ++ o :: later ∧
    (w.occurAll earlier).runs o = some (.listener r) ∧ sent ++ w.sendsAll name earlier ≠ []

theorem hearsAfter_cons {rest : List Occurrence} : w.HearsAfter name r sent (o :: rest) ↔
    (w.runs o = some (.listener r) ∧ sent ≠ []) ∨
      (w.occur o).HearsAfter name r (sent ++ named name (w.sentBy o)) rest := by
  constructor
  · rintro ⟨earlier, o', later, heq, hruns, hsent⟩
    cases earlier with
    | nil =>
      cases heq
      rw [sendsAll, List.append_nil] at hsent
      exact .inl ⟨hruns, hsent⟩
    | cons p earlier =>
      cases heq
      rw [sendsAll, ← List.append_assoc] at hsent
      exact .inr ⟨earlier, o', later, rfl, hruns, hsent⟩
  · rintro (⟨hruns, hsent⟩ | ⟨earlier, o', later, rfl, hruns, hsent⟩)
    · refine ⟨[], o, rest, rfl, hruns, ?_⟩
      rwa [sendsAll, List.append_nil]
    · refine ⟨o :: earlier, o', later, rfl, hruns, ?_⟩
      rwa [sendsAll, ← List.append_assoc]

/-- As long as the action is not told to end: once its listener has run after the first signal it
has settled with it, and before that it attends. -/
theorem Attends.occurAll (h : w.Attends name a r sent) (hidle : w.running = none)
    (horderly : w.Orderly c) (hspares : ∀ o ∈ history, o.Spares a r)
    (hends : ∀ o ∈ history, o.ends a = false)
    (hfits : (sent ++ w.sendsAll name history).length ≤ c) :
    (w.HearsAfter name r sent history ∧ ∃ s, (sent ++ w.sendsAll name history).head? = some s ∧
        (w.occurAll history).settlement? a = some (settlementOf s)) ∨
      (¬w.HearsAfter name r sent history ∧
        (w.occurAll history).Attends name a r (sent ++ w.sendsAll name history)) := by
  induction history generalizing w sent with
  | nil =>
    refine .inr ⟨fun ⟨earlier, o, later, heq, _⟩ => ?_, ?_⟩
    · cases earlier <;> cases heq
    · rwa [sendsAll, List.append_nil]
  | cons o rest ih =>
    rw [sendsAll, ← List.append_assoc] at hfits ⊢
    rw [hearsAfter_cons]
    have hspared := hspares o List.mem_cons_self
    have hongoing := hends o List.mem_cons_self
    have hidle' := running_occur hidle o
    by_cases hnow : w.runs o = some (.listener r) ∧ sent ≠ []
    · refine .inl ⟨.inl hnow, ?_⟩
      have hkept : sent.length ≤ w.bus.retention := by
        have hle := w.bus.retention_isLeast.1.2
        rw [horderly.capacity] at hle
        rw [List.append_assoc, List.length_append] at hfits
        omega
      obtain ⟨s, hs, hset⟩ := h.occur_settles hidle hnow.1 hnow.2 hkept
      refine ⟨s, ?_, settlement?_occurAll hset hidle' rest⟩
      rw [List.append_assoc, List.head?_append, hs]
      rfl
    · have hattends : (w.occur o).Attends name a r (sent ++ named name (w.sentBy o)) := by
        by_cases hruns : w.runs o = some (.listener r)
        · obtain rfl : sent = [] := by
            by_contra hne
            exact hnow ⟨hruns, hne⟩
          rw [sentBy_of_runs hruns]
          exact h.occur_vain hidle hruns
        · exact h.occur hidle hspared hongoing hruns
      rcases ih hattends hidle' (horderly.occur hidle o)
        (fun o ho => hspares o (List.mem_cons_of_mem _ ho))
        (fun o ho => hends o (List.mem_cons_of_mem _ ho)) hfits with
        ⟨hears, hset⟩ | ⟨hears, hattends⟩
      · exact .inl ⟨.inr hears, hset⟩
      · exact .inr ⟨fun hn => hn.elim hnow hears, hattends⟩

/-! ## Before the begin -/

/-- A completion that has not settled is held by somebody. -/
def Held (a : ActionId) (w : World) : Prop :=
  ∀ j, w.instances[a]? = some j → j.settlement = none → 1 ≤ j.holders

namespace Held

theorem of_same (h : w.Held a) (hi : w'.instances = w.instances) : w'.Held a :=
  fun j hj => h j (hi ▸ hj)

theorem modifyInstance (h : w.Held a) (b : ActionId) {f : Instance → Instance}
    (hf : ∀ j, (j.settlement = none → 1 ≤ j.holders) → (f j).settlement = none →
      1 ≤ (f j).holders) : (w.modifyInstance b f).Held a := by
  intro j' hj' hnone
  by_cases hb : b = a
  · subst hb
    cases hj : w.instances[b]? with
    | none => simp [World.modifyInstance, hj] at hj'
    | some j =>
      obtain rfl := Option.some.inj ((instances_modifyInstance_self f hj).symm.trans hj')
      exact hf j (h j hj) hnone
  · exact h j' ((instances_modifyInstance_ne f hb).symm.trans hj') hnone

theorem settle (h : w.Held a) (b : ActionId) (s : Settlement) : (w.settle b s).1.Held a := by
  unfold World.settle
  split
  · exact h
  · exact h.modifyInstance b fun j _ hnone => by cases hnone

theorem retain (h : w.Held a) (b : ActionId) : (w.retain b).Held a :=
  h.modifyInstance b fun j _ _ => Nat.succ_pos j.holders

/-- When the last holder goes the completion settles. -/
theorem release (h : w.Held a) (b : ActionId) : (w.release b).Held a := by
  refine h.modifyInstance b fun j hj hnone => ?_
  dsimp only at hnone ⊢
  split at hnone
  · cases hs : j.settlement <;> rw [hs] at hnone <;> cases hnone
  · omega

theorem perform (h : w.Held a) (b : ActionId) (e : Effect) : (perform b w e).Held a := by
  cases e with
  | settle s => exact h.settle b s
  | completeAfter delay value => exact (h.retain b).of_same (schedule_instances _ _)
  | listen name =>
    simp only [World.perform]
    split
    · exact h.of_same rfl
    · exact (h.retain b).of_same (schedule_instances _ _)
  | emit s => exact h.of_same (emit_instances w s)
  | park name => exact (h.retain b).of_same rfl

theorem beginAction (h : w.Held a) (b : ActionId) (v : Json) : (w.beginAction b v).1.Held a := by
  by_cases hs : w.started? b = some false
  · have hmark : (w.mark b v).Held a := of_same
      (h.modifyInstance b (f := fun j => { j with started := true }) fun _ hj => hj) rfl
    rw [beginAction_eq_effects v hs]
    generalize w.effects (b, v) = es
    generalize w.mark b v = w at hmark
    induction es generalizing w with
    | nil => exact hmark
    | cons e es ih => exact ih _ (hmark.perform b e)
  · rw [beginAction_refused v hs]
    exact h

theorem incur (h : w.Held a) (i : Incident) : (w.incur i).Held a := by
  cases i with
  | build action =>
    intro j hj hnone
    change (w.instances ++ [⟨action, false, none, 1⟩])[a]? = some j at hj
    rw [List.getElem?_append] at hj
    split at hj
    · exact h j hj hnone
    · rw [List.mem_singleton.1 (List.mem_of_getElem? hj)]
  | begin b v => exact h.beginAction b v
  | settle b s => exact h.settle b s
  | endAction b => exact h.of_same (scheduleAll_instances _ _)
  | emit s => exact h.of_same (emit_instances w s)
  | subscribe name =>
    change (w.subscribe name).1.Held a
    unfold World.subscribe
    split <;> exact h.of_same rfl
  | receive r | drop r => exact h.of_same rfl
  | poll r =>
    change (w.runListener r).1.Held a
    cases hl : w.listeners.find? fun l => l.receiver == r with
    | none =>
      rw [runListener_none hl]
      exact h
    | some l =>
      rcases runListener_cases hl with ⟨-, heq⟩ | ⟨bus, s, -, heq, -⟩ | ⟨bus, -, heq⟩ <;> rw [heq]
      · exact release (h.of_same rfl) _
      · have hsettled := settle (w := { w with bus := bus }) (h.of_same rfl) l.action s
        exact release (of_same hsettled rfl) _
      · exact h.of_same rfl
  | expire id =>
    change (w.runTimer id).1.Held a
    unfold World.runTimer
    split
    · exact h
    next t _ =>
      dsimp only
      split
      · exact release (settle (w := { w with timers := w.timers.filter fun t => t.id != id })
          (h.of_same rfl) t.action (.ok t.value)) t.action
      · split <;> exact h.of_same rfl
  | moveClock now => exact h.of_same (Requeued.enqueueAll _ { w with clock := now }).instances
  | requeue ready arrivals running rewoken => exact h

end Held

theorem Held.occur (h : w.Held a) (hidle : w.running = none) (o : Occurrence) :
    (w.occur o).Held a :=
  occur_induction hidle h (fun _ i _ h => h.incur i) fun i _ _ => h.incur i

theorem held_ofCapacity (c : Nat) (a : ActionId) (before : List Occurrence) :
    ((ofCapacity c).occurAll before).Held a :=
  occurAll_induction (Q := Held a) rfl (fun _ hj => by cases hj) fun _ o _ hidle h =>
    h.occur hidle o

theorem Secure.occur (h : w.Secure a) (hidle : w.running = none) (o : Occurrence) :
    (w.occur o).Secure a :=
  occur_induction hidle h (fun _ i _ h => h.incur i) fun i _ _ => h.incur i

theorem Deaf.occur (h : w.Deaf a) (hidle : w.running = none) (o : Occurrence) :
    (w.occur o).Deaf a :=
  occur_induction hidle h (fun _ i _ h => h.incur i) fun i _ _ => h.incur i

theorem Deaf.settlement?_occur (h : w.Deaf a) (hidle : w.running = none) (ho : o.Spares a r) :
    (w.occur o).settlement? a = w.settlement? a := by
  have hkept : (w.occur o).Deaf a ∧ (w.occur o).settlement? a = w.settlement? a := occur_induction
    (Q := fun w' => w'.Deaf a ∧ w'.settlement? a = w.settlement? a) hidle ⟨h, rfl⟩
    (fun w' i hi ⟨hdeaf, hsame⟩ => ⟨hdeaf.incur i, (hdeaf.settlement?_incur ?_).trans hsame⟩)
    fun i external heq => ⟨h.incur i, h.settlement?_incur ?_⟩
  · exact hkept.2
  · rintro s rfl
    cases hi
  · rintro s rfl
    rw [heq] at ho
    exact ho rfl

/-- After the end nothing becomes of the action. -/
theorem Deaf.settlement?_occurAll (h : w.Deaf a) (hidle : w.running = none)
    (hspares : ∀ o ∈ later, o.Spares a r) :
    (w.occurAll later).Deaf a ∧ (w.occurAll later).settlement? a = w.settlement? a :=
  occurAll_induction (Q := fun w' => w'.Deaf a ∧ w'.settlement? a = w.settlement? a) hidle
    ⟨h, rfl⟩ fun _ o ho hidle ⟨hdeaf, hsame⟩ =>
      ⟨hdeaf.occur hidle o, (hdeaf.settlement?_occur hidle (hspares o ho)).trans hsame⟩

/-! ## Until the end -/

/-- A history in which the action is told to end. -/
theorem exists_end (h : ∃ o ∈ history, o.ends a = true) :
    ∃ external rest, history = untilEnd a history ++ .outside (.endAction a) external :: rest := by
  have hsplit : untilEnd a history ++ history.dropWhile (fun o => !o.ends a) = history :=
    List.takeWhile_append_dropWhile
  cases hdrop : history.dropWhile fun o => !o.ends a with
  | nil =>
    obtain ⟨o, ho, hends⟩ := h
    have hall := List.dropWhile_eq_nil_iff.1 hdrop o ho
    rw [hends] at hall
    cases hall
  | cons o rest =>
    have hends : o.ends a = true := by
      have hhead := List.head?_dropWhile_not (fun o : Occurrence => !o.ends a) history
      rw [hdrop] at hhead
      simpa using hhead
    rw [hdrop] at hsplit
    cases o with
    | outside i external =>
      cases i with
      | endAction b =>
        obtain rfl : b = a := beq_iff_eq.1 hends
        exact ⟨external, rest, hsplit.symm⟩
      | build | begin | settle | emit | subscribe | receive | drop | poll | expire | moveClock
        | requeue => cases hends
    | run => cases hends

theorem untilEnd_eq_self (h : ¬∃ o ∈ history, o.ends a = true) : untilEnd a history = history := by
  refine List.takeWhile_eq_self_iff.2 fun o ho => ?_
  cases hends : o.ends a with
  | false => rfl
  | true => exact absurd ⟨o, ho, hends⟩ h

theorem ends_of_mem_untilEnd (ho : o ∈ untilEnd a history) : o.ends a = false := by
  simpa using List.mem_takeWhile_imp ho

/-- The listener has run after a signal of the name had been sent. -/
def Hears (name : String) (r : ReceiverId) (w : World) (history : List Occurrence) : Prop :=
  ∃ earlier o later, history = earlier ++ o :: later ∧
    (w.occurAll earlier).runs o = some (.listener r) ∧ w.sendsAll name earlier ≠ []

/-- What becomes of an action that awaits a signal of the name and can be told to end, if no more
than `c` signals are sent. -/
structure StopsAtEnd (c : Nat) (name : String) (a : ActionId) (r : ReceiverId) (w : World) :
    Prop where
  /-- If the listener has run after a signal and before the end, the first signal counts. -/
  settles : ∀ history : List Occurrence, (∀ o ∈ history, o.Spares a r) →
    (w.sendsAll name history).length ≤ c → w.Hears name r (untilEnd a history) →
    ∃ s, (w.sendsAll name (untilEnd a history)).head? = some s ∧
      (w.occurAll history).settlement? a = some (settlementOf s)
  /-- If it has not, the action does not settle once it has been told to end. -/
  loses : ∀ history : List Occurrence, (∀ o ∈ history, o.Spares a r) →
    (w.sendsAll name history).length ≤ c → (∃ o ∈ history, o.ends a = true) →
    ¬w.Hears name r (untilEnd a history) → (w.occurAll history).settlement? a = none
  /-- An action that is not told to end has settled with the first signal, if any, when no task
  waits. -/
  waits : ∀ history : List Occurrence, (∀ o ∈ history, o.Spares a r) →
    (w.sendsAll name history).length ≤ c → (¬∃ o ∈ history, o.ends a = true) →
    (w.occurAll history).Idle →
    (w.occurAll history).settlement? a = (w.sendsAll name history).head?.map settlementOf
  /-- So the first signal before the end decides exactly if there is none, or the listener has run
  between it and the end, or there is no end. -/
  decides_iff : ∀ history : List Occurrence, (∀ o ∈ history, o.Spares a r) →
    (w.sendsAll name history).length ≤ c → (w.occurAll history).Idle →
    ((w.occurAll history).settlement? a =
        (w.sendsAll name (untilEnd a history)).head?.map settlementOf ↔
      ((∃ o ∈ history, o.ends a = true) → w.sendsAll name (untilEnd a history) ≠ [] →
        w.Hears name r (untilEnd a history)))
  /-- Nothing becomes of the action after the end, and nothing changes when it is told again. -/
  final : ∀ history : List Occurrence, (∀ o ∈ history, o.Spares a r) →
    (∃ o ∈ history, o.ends a = true) →
    (w.occurAll history).endAction a = w.occurAll history ∧
      ∀ later : List Occurrence, (∀ o ∈ later, o.Spares a r) →
        (w.occurAll (history ++ later)).settlement? a = (w.occurAll history).settlement? a

theorem hearsAfter_nil : w.HearsAfter name r [] history ↔ w.Hears name r history := by
  simp only [HearsAfter, Hears, List.nil_append]

/-- When no task waits, none is due. -/
theorem Idle.not_due (h : w.Idle) (hidle : w.running = none) (t : Task) : ¬w.Due t := by
  rintro (ht | ht | ⟨ht, -⟩)
  · rw [h.1] at ht
    cases ht
  · rw [h.2] at ht
    cases ht
  · rw [hidle] at ht
    cases ht

theorem sends_untilEnd_le (a : ActionId) (history : List Occurrence) :
    (w.sendsAll name (untilEnd a history)).length ≤ (w.sendsAll name history).length := by
  have hsplit : untilEnd a history ++ history.dropWhile (fun o => !o.ends a) = history :=
    List.takeWhile_append_dropWhile
  have hsends := congrArg (fun h => (w.sendsAll name h).length) hsplit
  simp only [sendsAll_append, List.length_append] at hsends
  exact Nat.le.intro hsends

/-- After the end the action is deaf, and stands as it stood when it was told to end. -/
theorem Secure.after_end (h : w.Secure a) (hidle : w.running = none)
    (hspares : ∀ o ∈ history, o.Spares a r) (hends : ∃ o ∈ history, o.ends a = true) :
    (w.occurAll history).Deaf a ∧
      (w.occurAll history).settlement? a = (w.occurAll (untilEnd a history)).settlement? a := by
  obtain ⟨external, rest, hsplit⟩ := exists_end hends
  have hsecure : (w.occurAll (untilEnd a history)).Secure a :=
    occurAll_induction (Q := Secure a) hidle h fun _ o _ hidle h => h.occur hidle o
  have hrest : ∀ o ∈ rest, o.Spares a r := fun o ho =>
    hspares o (by rw [hsplit]; exact List.mem_append_right _ (List.mem_cons_of_mem _ ho))
  have htold := endAction_settles (w.occurAll (untilEnd a history)) a
  obtain ⟨hdeaf, hsame⟩ := hsecure.deaf_endAction.settlement?_occurAll
    (htold.keeps.running.trans (running_occurAll hidle _)) hrest
  have hafter : w.occurAll history =
      ((w.occurAll (untilEnd a history)).endAction a).occurAll rest := by
    conv_lhs => rw [hsplit, occurAll_append]
    rfl
  rw [hafter]
  exact ⟨hdeaf, hsame.trans (htold.keeps.same a fun hn => by cases hn).2⟩

/-- When the action is told to end, or at the latest when nothing more happens, it has settled with
the first signal or its listener has not run since that was sent. -/
theorem Attends.untilEnd_cases (h : w.Attends name a r []) (hidle : w.running = none)
    (horderly : w.Orderly c) (hspares : ∀ o ∈ history, o.Spares a r)
    (hfits : (w.sendsAll name history).length ≤ c) :
    (w.Hears name r (untilEnd a history) ∧ ∃ s,
        (w.sendsAll name (untilEnd a history)).head? = some s ∧
        (w.occurAll (untilEnd a history)).settlement? a = some (settlementOf s)) ∨
      (¬w.Hears name r (untilEnd a history) ∧
        (w.occurAll (untilEnd a history)).Attends name a r
          (w.sendsAll name (untilEnd a history))) := by
  have hcases := h.occurAll hidle horderly
    (fun o (ho : o ∈ untilEnd a history) => hspares o ((List.takeWhile_sublist _).subset ho))
    (fun o ho => ends_of_mem_untilEnd ho) (Nat.le_trans (sends_untilEnd_le a history) hfits)
  simpa only [hearsAfter_nil, List.nil_append] using hcases

theorem Attends.stopsAtEnd (h : w.Attends name a r []) (hsecure : w.Secure a)
    (hidle : w.running = none) (horderly : w.Orderly c) : w.StopsAtEnd c name a r := by
  have settled (history : List Occurrence) (hspares : ∀ o ∈ history, o.Spares a r)
      (hfits : (w.sendsAll name history).length ≤ c) (hhears : w.Hears name r (untilEnd a history)) :
      ∃ s, (w.sendsAll name (untilEnd a history)).head? = some s ∧
        (w.occurAll history).settlement? a = some (settlementOf s) := by
    rcases h.untilEnd_cases hidle horderly hspares hfits with ⟨-, s, hs, hset⟩ | ⟨hdeaf, -⟩
    · refine ⟨s, hs, ?_⟩
      by_cases hends : ∃ o ∈ history, o.ends a = true
      · exact (hsecure.after_end hidle hspares hends).2.trans hset
      · rwa [untilEnd_eq_self hends] at hset
    · exact absurd hhears hdeaf
  have lost (history : List Occurrence) (hspares : ∀ o ∈ history, o.Spares a r)
      (hfits : (w.sendsAll name history).length ≤ c) (hends : ∃ o ∈ history, o.ends a = true)
      (hdeaf : ¬w.Hears name r (untilEnd a history)) :
      (w.occurAll history).settlement? a = none := by
    rcases h.untilEnd_cases hidle horderly hspares hfits with ⟨hhears, -⟩ | ⟨-, hattends⟩
    · exact absurd hhears hdeaf
    · exact (hsecure.after_end hidle hspares hends).2.trans hattends.awaits.unsettled
  have waited (history : List Occurrence) (hspares : ∀ o ∈ history, o.Spares a r)
      (hfits : (w.sendsAll name history).length ≤ c) (hends : ¬∃ o ∈ history, o.ends a = true)
      (hrest : (w.occurAll history).Idle) :
      (w.occurAll history).settlement? a = (w.sendsAll name history).head?.map settlementOf := by
    rcases h.untilEnd_cases hidle horderly hspares hfits with ⟨-, s, hs, hset⟩ | ⟨-, hattends⟩
    · rw [untilEnd_eq_self hends] at hs hset
      rw [hset, hs]
      rfl
    · rw [untilEnd_eq_self hends] at hattends
      have hnone : w.sendsAll name history = [] := by
        by_contra hsent
        exact hrest.not_due (running_occurAll hidle history) _ (hattends.due hsent)
      rw [hnone]
      exact hattends.awaits.unsettled
  refine ⟨settled, lost, waited, fun history hspares hfits hrest => ?_,
    fun history hspares hends => ?_⟩
  · by_cases hends : ∃ o ∈ history, o.ends a = true
    · by_cases hhears : w.Hears name r (untilEnd a history)
      · obtain ⟨s, hs, hset⟩ := settled history hspares hfits hhears
        rw [hset, hs]
        exact iff_of_true rfl fun _ _ => hhears
      · rw [lost history hspares hfits hends hhears, eq_comm, Option.map_eq_none_iff,
          List.head?_eq_none_iff]
        exact ⟨fun hnone _ hsent => absurd hnone hsent,
          fun hn => by_contra fun hsent => hhears (hn hends hsent)⟩
    · refine iff_of_true ?_ fun hn => absurd hn hends
      rw [untilEnd_eq_self hends]
      exact waited history hspares hfits hends hrest
  · obtain ⟨hdeaf, -⟩ := hsecure.after_end hidle hspares hends
    refine ⟨endAction_eq_self hdeaf.ended, fun later hlater => ?_⟩
    rw [occurAll_append]
    exact (hdeaf.settlement?_occurAll (running_occurAll hidle history) hlater).2

/-- An action that begins to await a signal is held by its listener too. -/
theorem Orderly.begin_attends (h : w.Orderly c) (hc : 1 ≤ c) (hheld : w.Held a) {holders : Nat}
    (hnew : w.instances[a]? = some ⟨.awaitSignal name, false, none, holders⟩) (v : Json) :
    (w.beginAction a v).2 = true ∧
      (w.beginAction a v).1.Attends name a w.bus.nextReceiver [] ∧
      (w.beginAction a v).1.Secure a := by
  obtain ⟨hbegun, hawaits⟩ := h.begin_awaits hc hnew v
  refine ⟨hbegun, ⟨hawaits, fun hsent => absurd rfl hsent⟩, hawaits.started, hawaits.untimed,
    fun _ => ?_⟩
  obtain ⟨bus, hbus, -⟩ := h.tidy.subscribe (h.capacity ▸ Nat.ne_of_gt hc) name
  have hbus' : (w.mark a v).bus.subscribe name = some (bus, w.bus.nextReceiver) := hbus
  have hmarked : (w.mark a v).instances[a]? = some ⟨.awaitSignal name, true, none, holders⟩ :=
    instances_modifyInstance_self _ hnew
  have heq : (w.beginAction a v).1.instances[a]? =
      some ⟨.awaitSignal name, true, none, holders + 1⟩ := by
    rw [beginAction_unstarted hnew rfl v]
    change (World.perform a (w.mark a v) (.listen name)).instances[a]? = _
    rw [perform_listen hbus', schedule_instances]
    exact instances_modifyInstance_self _ hmarked
  refine ⟨_, heq, ?_⟩
  rw [listenersOf, hawaits.listener_own]
  exact Nat.lt_succ_of_le (hheld _ hnew rfl)

/-- Whatever has happened to a world whose bus has a capacity of at least one: telling an action to
end that is still to begin to await a signal changes nothing, and once it has begun it has a
listener and stops at its end. -/
theorem endAction_spec (c : Nat) (hc : 1 ≤ c) (before : List Occurrence) (a : ActionId)
    (name : String) (holders : Nat)
    (hnew : ((ofCapacity c).occurAll before).instances[a]? =
      some ⟨.awaitSignal name, false, none, holders⟩) (input : Json) :
    ((ofCapacity c).occurAll before).endAction a = (ofCapacity c).occurAll before ∧
    ∃ w r, ((ofCapacity c).occurAll before).beginAction a input = (w, true) ∧
      (w.listeners.filter fun l => l.action == a) = [⟨r, a, name, false⟩] ∧
      w.StopsAtEnd c name a r := by
  have horderly := orderly_occurAll c before
  have hidle := idle_ofCapacity c before
  obtain ⟨hbegun, hattends, hsecure⟩ :=
    horderly.begin_attends hc (held_ofCapacity c a before) hnew input
  refine ⟨endAction_eq_self fun l hl => ?_, _, _, Prod.ext rfl hbegun,
    hattends.awaits.listener_own, hattends.stopsAtEnd hsecure ?_
      (horderly.incur (.begin a input))⟩
  · obtain ⟨hl, ha⟩ := List.mem_filter.1 hl
    have hstarted := horderly.listening l hl
    rw [beq_iff_eq.1 ha, started?, hnew] at hstarted
    cases hstarted
  · exact (beginAction_keeps _ a input).running.trans hidle

/-- An action that awaits the beat, and one that sends it. -/
def ensemble : List Occurrence :=
  [.outside (.build (.awaitSignal "beat")) rfl, .outside (.build (.emitSignal (beat 1))) rfl]

/-- The listener looks before the beat and after it; then the action is told to end, twice, and the
beat is heard again. -/
def heardInTime : List Occurrence :=
  [.run .arrivals 0, .outside (.begin 1 .null) rfl, .run .arrivals 0, .outside (.endAction 0) rfl,
    .outside (.emit (beat 2)) rfl, .outside (.endAction 0) rfl]

/-- The beat is sent, and the action is told to end before its listener runs. -/
def heardTooLate : List Occurrence :=
  [.outside (.emit (beat 1)) rfl, .outside (.endAction 0) rfl, .run .arrivals 0,
    .outside (.emit (beat 2)) rfl]

/-- The listener makes the difference. -/
theorem endAction_spec_inTime : ∃ w,
    ((ofCapacity 2).occurAll ensemble).beginAction 0 .null = (w, true) ∧
    (w.occurAll heardInTime).settlement? 0 = some (.ok (.int 1)) ∧
    (w.occurAll heardTooLate).settlement? 0 = none := by
  obtain ⟨-, w, r, hbegin, hlistener, hstops⟩ :=
    endAction_spec 2 (by decide) ensemble 0 "beat" 1 rfl .null
  obtain rfl : (((ofCapacity 2).occurAll ensemble).beginAction 0 .null).1 = w :=
    congrArg Prod.fst hbegin
  obtain rfl : 0 = r := congrArg Listener.receiver (List.singleton_inj.1 hlistener)
  refine ⟨_, hbegin, ?_, ?_⟩
  · obtain ⟨s, hs, hset⟩ := hstops.settles heardInTime
      (by simp [heardInTime, Occurrence.Spares]) (by decide)
      ⟨[.run .arrivals 0, .outside (.begin 1 .null) rfl], .run .arrivals 0, [], rfl, rfl, nofun⟩
    cases hs
    exact hset
  · refine hstops.loses heardTooLate (by simp [heardTooLate, Occurrence.Spares]) (by decide)
      ⟨.outside (.endAction 0) rfl, by simp [heardTooLate], rfl⟩ ?_
    rintro ⟨earlier, o, later, heq, hruns, -⟩
    cases earlier with
    | nil =>
      cases heq
      cases hruns
    | cons p earlier =>
      rcases List.append_eq_nil_iff.1 (List.cons.inj heq).2.symm with ⟨-, h⟩
      cases h

/-- A signal that has reached its only listener does not settle the action that awaits it. -/
theorem signal_lost_to_end :
    (((((ofCapacity 2).occurAll ensemble).beginAction 0 .null).1.emit (beat 1)).2 = 1) ∧
    ((((ofCapacity 2).occurAll ensemble).beginAction 0 .null).1.occurAll heardTooLate).Idle ∧
    ((((ofCapacity 2).occurAll ensemble).beginAction 0 .null).1.occurAll
        heardTooLate).settlement? 0 ≠
      ((((ofCapacity 2).occurAll ensemble).beginAction 0 .null).1.sendsAll "beat"
        (untilEnd 0 heardTooLate)).head?.map settlementOf :=
  ⟨rfl, by decide, nofun⟩

end World

end Rundown
