import Rundown.Proofs.World.Incident

/-!
# Awaiting a signal

An action that has begun to await a signal has a listener of its own.  Whatever else happens, the
listener looks in vain until a signal of its name has been sent, and the first time that it looks
afterwards it settles the action with the oldest signal that the bus has kept
(`World.awaitSignal_spec`).

`World.Awaits` is what every incident before keeps: the receiver of the listener has read nothing,
and nobody else is concerned with the action.
-/

namespace Rundown

/-- The incident does not settle the action or tell it to end, and leaves its receiver alone. -/
def Incident.Spares (a : ActionId) (r : ReceiverId) : Incident → Prop
  | .settle b _ | .endAction b => b ≠ a
  | .receive r' | .drop r' => r' ≠ r
  | _ => True

namespace World

variable {w w' : World} {c : Nat} {a b : ActionId} {r r' : ReceiverId} {i : Incident}
  {name : String} {sent sent' : List Signal}

/-- The action has begun to await a signal of the name with this receiver and has not settled.
Since then the given signals of the name have been sent. -/
structure Awaits (name : String) (a : ActionId) (r : ReceiverId) (sent : List Signal)
    (w : World) : Prop where
  queues : w.bus.Queues name r sent
  started : w.started? a = some true
  unsettled : w.settlement? a = none
  listener : (w.listeners.filter fun l => l.receiver == r || l.action == a) =
    [⟨r, a, name, false⟩]
  untimed : ∀ t ∈ w.timers, t.action ≠ a

theorem named_append (signals signals' : List Signal) :
    named name (signals ++ signals') = named name signals ++ named name signals' :=
  List.filter_append _ _

theorem named_singleton (name : String) (s : Signal) :
    named name [s] = if s.name = name then [s] else [] := by
  simp [named, List.filter_cons]

namespace Awaits

section

variable (h : w.Awaits name a r sent)

include h

/-- The listener of the action is the one with its receiver. -/
theorem eq_of_mem {l : Listener} (hl : l ∈ w.listeners)
    (hconcerned : l.receiver = r ∨ l.action = a) : l = ⟨r, a, name, false⟩ := by
  have hmem : l ∈ w.listeners.filter fun l => l.receiver == r || l.action == a :=
    List.mem_filter.2 ⟨hl, by simpa using hconcerned⟩
  rw [h.listener] at hmem
  exact List.mem_singleton.1 hmem

theorem find?_listener :
    (w.listeners.find? fun l => l.receiver == r) = some ⟨r, a, name, false⟩ := by
  cases hfind : w.listeners.find? fun l => l.receiver == r with
  | none =>
    have hmem : ⟨r, a, name, false⟩ ∈ w.listeners := by
      refine List.mem_of_mem_filter (p := fun l => l.receiver == r || l.action == a) ?_
      rw [h.listener]
      exact List.mem_singleton_self _
    exact absurd (beq_self_eq_true r) (List.find?_eq_none.1 hfind _ hmem)
  | some l =>
    have hr : l.receiver = r := by simpa using List.find?_some hfind
    rw [h.eq_of_mem (List.mem_of_find?_eq_some hfind) (.inl hr)]

/-- The action has no other listener. -/
theorem listener_own : (w.listeners.filter fun l => l.action == a) = [⟨r, a, name, false⟩] := by
  have hown := congrArg (List.filter fun l => l.action == a) h.listener
  rw [List.filter_filter, List.filter_singleton, beq_self_eq_true] at hown
  refine (List.filter_congr fun l _ => ?_).trans hown
  cases l.action == a <;> simp

/-- The bus has changed, and nothing else that concerns the action. -/
theorem of_bus (hbus : w'.bus.Queues name r sent') (hlisteners : w'.listeners = w.listeners)
    (htimers : w'.timers = w.timers)
    (hsame : w'.started? a = w.started? a ∧ w'.settlement? a = w.settlement? a) :
    w'.Awaits name a r sent' where
  queues := hbus
  started := hsame.1.trans h.started
  unsettled := hsame.2.trans h.unsettled
  listener := hlisteners ▸ h.listener
  untimed := htimers ▸ h.untimed

theorem requeue (hq : Requeued w w') : w'.Awaits name a r sent := by
  obtain ⟨_, _, _, _, rfl⟩ := hq
  exact ⟨h.queues, h.started, h.unsettled, h.listener, h.untimed⟩

theorem emit (s : Signal) : (w.emit s).1.Awaits name a r (sent ++ named name [s]) := by
  rw [named_singleton]
  have hsent : Awaits name a r (sent ++ if s.name = name then [s] else [])
      { w with bus := (w.bus.emit s).1 } := h.of_bus (h.queues.emit s) rfl rfl ⟨rfl, rfl⟩
  exact hsent.requeue (.scheduleAll _ _)

/-- Another action settles. -/
theorem settle (hb : b ≠ a) (s : Settlement) : (w.settle b s).1.Awaits name a r sent := by
  have hsame := (settle_keeps w b s).same a (Ne.symm hb)
  obtain ⟨instances, heq⟩ := settle_eq w b s
  rw [heq] at hsame ⊢
  exact h.of_bus h.queues rfl rfl hsame

/-- An effect of beginning another action that emits nothing. -/
theorem perform (hb : b ≠ a) {e : Effect} (he : e.signal? = none) :
    (perform b w e).Awaits name a r sent := by
  have hretain := (retain_keeps w b fun _ => False).same a id
  cases e with
  | settle s => exact h.settle hb s
  | completeAfter delay value =>
    refine requeue (w := { w.retain b with
      timers := w.timers ++ [⟨w.nextTimer, b, delay, value, none⟩]
      nextTimer := w.nextTimer + 1 }) ⟨h.queues, hretain.1.trans h.started,
        hretain.2.trans h.unsettled, h.listener, fun t ht => ?_⟩ (.schedule _ _)
    rcases List.mem_append.1 ht with ht | ht
    · exact h.untimed t ht
    · rw [List.mem_singleton.1 ht]
      exact hb
  | listen name' =>
    cases hsubscribe : w.bus.subscribe name' with
    | none =>
      have heq : World.perform b w (.listen name') = { w with fault := true } := by
        simp only [World.perform, hsubscribe]
      rw [heq]
      exact h.of_bus h.queues rfl rfl ⟨rfl, rfl⟩
    | some result =>
      obtain ⟨bus, r'⟩ := result
      have hr : r' ≠ r :=
        Nat.ne_of_gt (Nat.lt_of_lt_of_le h.queues.lt_next (Bus.next_of_subscribe hsubscribe).2)
      have hheld : Awaits name a r sent { w.retain b with
          bus := bus
          listeners := w.listeners ++ [⟨r', b, name', false⟩] } := by
        refine ⟨h.queues.subscribe hsubscribe, hretain.1.trans h.started,
          hretain.2.trans h.unsettled, ?_, h.untimed⟩
        rw [List.filter_append, h.listener]
        simp [hr, hb]
      rw [perform_listen hsubscribe]
      exact hheld.requeue (.schedule _ _)
  | emit s => cases he
  | park name' =>
    exact ⟨h.queues, hretain.1.trans h.started, hretain.2.trans h.unsettled, h.listener, h.untimed⟩

theorem performAll (hb : b ≠ a) (es : List Effect) : (es.foldl (World.perform b) w).Awaits name a r
    (sent ++ named name (es.filterMap Effect.signal?)) := by
  induction es generalizing w sent with
  | nil => rwa [List.filterMap_nil, named, List.filter_nil, List.append_nil]
  | cons e es ih =>
    rw [List.filterMap_cons]
    split
    next he => exact ih (h.perform hb he)
    next s he =>
      obtain rfl : e = .emit s := by
        cases e <;> cases he
        rfl
      rw [← List.singleton_append, named_append, ← List.append_assoc]
      exact ih (h.emit s)

/-- Another action begins. -/
theorem beginAction (v : Json) : (w.beginAction b v).1.Awaits name a r
    (sent ++ named name (w.emits (.begin b v))) := by
  by_cases hs : w.started? b = some false
  · have hb : b ≠ a := by
      rintro rfl
      rw [h.started] at hs
      cases hs
    have hsame := (mark_keeps v hs).same a (Ne.symm hb)
    have hmarked : (w.mark b v).Awaits name a r sent := h.of_bus h.queues rfl rfl hsame
    rw [emits, if_pos hs, beginAction_eq_effects v hs]
    exact hmarked.performAll hb _
  · rw [emits, if_neg hs, beginAction_refused v hs, named, List.filter_nil, List.append_nil]
    exact h

/-- Another action is told to end. -/
theorem endAction (hb : b ≠ a) : (w.endAction b).Awaits name a r sent := by
  refine requeue (w := { w with
    listeners := w.listeners.map fun l => if l.action == b then { l with ended := true } else l })
    ⟨h.queues, h.started, h.unsettled, ?_, h.untimed⟩ (.scheduleAll _ _)
  have hconcerned : ((fun l : Listener => l.receiver == r || l.action == a) ∘ fun l =>
      if l.action == b then { l with ended := true } else l) =
        fun l => l.receiver == r || l.action == a := by
    funext l
    rw [Function.comp_apply]
    split <;> rfl
  rw [List.filter_map, hconcerned, h.listener]
  simp [Ne.symm hb]

/-- A timer settles its own action. -/
theorem runTimer (id : TimerId) : (w.runTimer id).1.Awaits name a r sent := by
  obtain ⟨hbus, hlisteners, htimers⟩ := runTimer_timers w id
  have hsettles := runTimer_settles w id
  have huntimed : ∀ t ∈ (w.runTimer id).1.timers, t.action ≠ a := fun t' ht' => by
    obtain ⟨t, ht, ha⟩ := htimers t' ht'
    exact ha ▸ h.untimed t ht
  have hsame := hsettles.keeps.same a fun hanswer => by
    obtain ⟨t, ht, rfl⟩ := runTimer_answer hanswer
    exact h.untimed t ht rfl
  exact ⟨hbus ▸ h.queues, hsame.1.trans h.started, hsame.2.trans h.unsettled,
    hlisteners ▸ h.listener, huntimed⟩

/-- Another listener looks. -/
theorem runListener_other (hr : r' ≠ r) : (w.runListener r').1.Awaits name a r sent := by
  obtain ⟨⟨bus, hread, hbus⟩, htimers, hlisteners⟩ := runListener_listened w r'
  have hsame := (runListener_settles w r').keeps.same a fun hanswer => by
    obtain ⟨l, hl, hlr, hla⟩ := runListener_answer hanswer
    rw [h.eq_of_mem hl (.inr hla)] at hlr
    exact hr hlr.symm
  have hqueues : (w.runListener r').1.bus.Queues name r sent := by
    rcases hbus with hbus | hbus
    · exact hbus ▸ h.queues.read hread hr.symm
    · exact hbus ▸ (h.queues.read hread hr.symm).dropReceiver hr.symm
  refine ⟨hqueues, hsame.1.trans h.started, hsame.2.trans h.unsettled, ?_, htimers ▸ h.untimed⟩
  have hothers : (w.listeners.filter fun l => l.receiver != r').filter
      (fun l => l.receiver == r || l.action == a) = [⟨r, a, name, false⟩] := by
    rw [List.filter_comm, h.listener]
    simp [Ne.symm hr]
  rcases hlisteners with heq | heq | ⟨l, hl, hlr, heq⟩
  · rw [heq, h.listener]
  · rw [heq, hothers]
  · have hunconcerned : ¬(l.receiver = r ∨ l.action = a) := fun hconcerned => by
      rw [h.eq_of_mem hl hconcerned] at hlr
      exact hr hlr.symm
    rw [heq, List.filter_append, hothers]
    simpa using hunconcerned

end

/-- As long as nothing has been sent the listener looks in vain. -/
theorem runListener_vain (h : w.Awaits name a r []) : (w.runListener r).1.Awaits name a r [] := by
  have hvain : (w.runListener r).1 = { w with
      listeners := w.listeners.filter (fun l => l.receiver != r) ++ [⟨r, a, name, false⟩] } := by
    unfold World.runListener
    simp only [h.find?_listener, h.queues.receiveKept_empty, Bool.false_eq_true, if_false]
  rw [hvain]
  refine ⟨h.queues, h.started, h.unsettled, ?_, h.untimed⟩
  rw [List.filter_append, List.filter_comm, h.listener]
  simp

/-- The listener settles the action with the oldest signal that has been kept. -/
theorem runListener_settled (h : w.Awaits name a r sent) (hsent : sent ≠ []) :
    ∃ s, sent[sent.length - w.bus.retention]? = some s ∧ (w.runListener r).2 = some a ∧
      (w.runListener r).1.settlement? a = some (settlementOf s) := by
  obtain ⟨s, hs, hreceived⟩ := h.queues.receiveKept_signal hsent
  have hunsettled : ({ w with bus := (w.bus.receiveKept r).1 } : World).settlement? a = none :=
    h.unsettled
  have hsettled : (({ w with bus := (w.bus.receiveKept r).1 } : World).settle a
      (settlementOf s)).1.settlement? a = some (settlementOf s) :=
    settlement?_settle_self hunsettled (by
      change w.started? a ≠ none
      rw [h.started]
      exact Option.some_ne_none true)
  have hrun : w.runListener r = ((((({ w with bus := (w.bus.receiveKept r).1 } : World).settle a
      (settlementOf s)).1.dropListener ⟨r, a, name, false⟩).release a), some a) := by
    unfold World.runListener
    simp only [h.find?_listener, hreceived, settle_unsettled hunsettled, Bool.false_eq_true,
      if_false, if_true]
  rw [hrun]
  exact ⟨s, hs, rfl, (release_keeps _ a).settled a _ hsettled⟩

/-! ## Incidents -/

/-- What an incident means to an action that awaits a signal.  Its listener may look as long as
nothing has been sent. -/
theorem incur (h : w.Awaits name a r sent) (hi : i.Spares a r) (hpoll : i = .poll r → sent = []) :
    (w.incur i).Awaits name a r (sent ++ named name (w.emits i)) := by
  -- an incident that emits nothing
  have silent (hemits : w.emits i = []) (hawaits : (w.incur i).Awaits name a r sent) :
      (w.incur i).Awaits name a r (sent ++ named name (w.emits i)) := by
    rwa [hemits, named, List.filter_nil, List.append_nil]
  cases i with
  | build action =>
    have hkeeps : Keeps _ w (w.addAction action).1 := .of_added rfl rfl rfl fun _ ht => ht
    have hexists : w.started? a ≠ none := by
      rw [h.started]
      exact Option.some_ne_none true
    exact silent rfl (h.of_bus h.queues rfl rfl (hkeeps.same a hexists))
  | begin b v => exact h.beginAction v
  | settle b s => exact silent rfl (h.settle hi s)
  | endAction b => exact silent rfl (h.endAction hi)
  | emit s => exact h.emit s
  | subscribe name' =>
    refine silent rfl ?_
    change (w.subscribe name').1.Awaits name a r sent
    unfold World.subscribe
    split
    next bus r' hsubscribe => exact h.of_bus (h.queues.subscribe hsubscribe) rfl rfl ⟨rfl, rfl⟩
    next => exact h.of_bus h.queues rfl rfl ⟨rfl, rfl⟩
  | receive r' =>
    exact silent rfl (h.of_bus (h.queues.read (Bus.receive_read w.bus r') (Ne.symm hi)) rfl rfl
      ⟨rfl, rfl⟩)
  | drop r' => exact silent rfl (h.of_bus (h.queues.dropReceiver (Ne.symm hi)) rfl rfl ⟨rfl, rfl⟩)
  | poll r' =>
    refine silent rfl ?_
    by_cases hr : r' = r
    · subst hr
      obtain rfl := hpoll rfl
      exact h.runListener_vain
    · exact h.runListener_other hr
  | expire id => exact silent rfl (h.runTimer id)
  | moveClock now =>
    have hmoved : Awaits name a r sent { w with clock := now } :=
      h.of_bus h.queues rfl rfl ⟨rfl, rfl⟩
    exact silent rfl (hmoved.requeue (.enqueueAll _ _))
  | requeue ready arrivals running rewoken => exact silent rfl (h.requeue ⟨_, _, _, _, rfl⟩)

end Awaits

/-- Whenever the listener looks during these incidents, no signal of the name has been sent. -/
def LooksInVain (name : String) (r : ReceiverId) (w : World) (incidents : List Incident) : Prop :=
  ∀ earlier later, incidents = earlier ++ .poll r :: later → w.emitsAll name earlier = []

theorem Awaits.incurAll {incidents : List Incident} (h : w.Awaits name a r sent)
    (hspares : ∀ i ∈ incidents, i.Spares a r)
    (hvain : ∀ earlier later, incidents = earlier ++ .poll r :: later →
      sent ++ w.emitsAll name earlier = []) :
    (w.incurAll incidents).Awaits name a r (sent ++ w.emitsAll name incidents) := by
  induction incidents generalizing w sent with
  | nil => rwa [emitsAll, List.append_nil]
  | cons i rest ih =>
    rw [emitsAll, ← List.append_assoc]
    refine ih (h.incur (hspares i List.mem_cons_self) ?_)
      (fun j hj => hspares j (List.mem_cons_of_mem i hj)) fun earlier later heq => ?_
    · rintro rfl
      exact (List.append_eq_nil_iff.1 (hvain [] rest rfl)).1
    · rw [List.append_assoc]
      exact hvain (i :: earlier) later (by rw [heq, List.cons_append])

/-! ## The whole life of a listener -/

/-- Incidents during which nothing is sent are looked at in vain, and then others during which the
listener does not look. -/
theorem looksInVain_append {quiet busy : List Incident} (hquiet : w.emitsAll name quiet = [])
    (hbusy : .poll r ∉ busy) : w.LooksInVain name r (quiet ++ busy) := by
  intro earlier later heq
  rcases List.append_eq_append_iff.1 heq with ⟨more, rfl, hmore⟩ | ⟨more, rfl, hmore⟩
  · exact absurd (hmore ▸ List.mem_append_right more List.mem_cons_self) hbusy
  · rw [emitsAll_append] at hquiet
    exact (List.append_eq_nil_iff.1 hquiet).1

/-- An action that begins to await a signal gets the next receiver of the bus. -/
theorem Orderly.begin_awaits (h : w.Orderly c) (hc : 1 ≤ c) {holders : Nat}
    (hnew : w.instances[a]? = some ⟨.awaitSignal name, false, none, holders⟩) (v : Json) :
    (w.beginAction a v).2 = true ∧
      (w.beginAction a v).1.Awaits name a w.bus.nextReceiver [] := by
  have hs : w.started? a = some false := by
    rw [started?, hnew]
    rfl
  have hnone : w.settlement? a = none := by
    rw [settlement?, hnew]
    rfl
  have he : w.effects (a, v) = [.listen name] := by
    simp only [effects, actions, List.getElem?_map, hnew]
    rfl
  obtain ⟨bus, hbus, hsubscribed⟩ :=
    h.tidy.subscribe (h.capacity ▸ Nat.ne_of_gt hc) name
  have heq : w.beginAction a v = (World.schedule { (w.mark a v).retain a with
      bus := bus
      listeners := w.listeners ++ [⟨w.bus.nextReceiver, a, name, false⟩] }
        (.listener w.bus.nextReceiver), true) := by
    have hbus' : (w.mark a v).bus.subscribe name = some (bus, w.bus.nextReceiver) := hbus
    rw [beginAction_eq_effects v hs, he, List.foldl_cons, List.foldl_nil, perform_listen hbus']
    rfl
  have hretain := (retain_keeps (w.mark a v) a fun _ => False).same a id
  rw [heq]
  refine ⟨rfl, Awaits.requeue ⟨?_, ?_, ?_, ?_, fun t ht => ?_⟩ (.schedule _ _)⟩
  · exact hsubscribed.queues
  · exact hretain.1.trans (by rw [started?_mark, if_pos rfl, hs]; rfl)
  · exact hretain.2.trans ((settlement?_mark w a a v).trans hnone)
  · have hold : (w.listeners.filter fun l => l.receiver == w.bus.nextReceiver || l.action == a) =
        [] := by
      rw [List.filter_eq_nil_iff]
      intro l hl hconcerned
      rw [Bool.or_eq_true, beq_iff_eq, beq_iff_eq] at hconcerned
      rcases hconcerned with hr | rfl
      · exact Nat.ne_of_lt (h.receivers l hl) hr
      · rw [h.listening l hl] at hs
        cases hs
    rw [List.filter_append, hold]
    simp
  · rintro rfl
    rw [h.waiting t ht] at hs
    cases hs

/-- What becomes of an action that awaits a signal of the name, with a listener for which `C`
signals are kept. -/
structure TakesOldest (C : Nat) (name : String) (a : ActionId) (r : ReceiverId) (w : World) :
    Prop where
  /-- It does not settle as long as no signal of the name has been sent, -/
  waits : ∀ incidents : List Incident, (∀ i ∈ incidents, i.Spares a r) →
    w.emitsAll name incidents = [] → (w.incurAll incidents).settlement? a = none
  /-- nor afterwards until its listener looks. -/
  unsettled : ∀ incidents : List Incident, (∀ i ∈ incidents, i.Spares a r) →
    w.LooksInVain name r incidents → (w.incurAll incidents).settlement? a = none
  /-- The first time that it looks it settles the action with the oldest of the signals that are
  kept: with the first, or with the first after those that are too many.  Nothing changes that
  later. -/
  settles : ∀ incidents : List Incident, (∀ i ∈ incidents, i.Spares a r) →
    w.LooksInVain name r incidents → w.emitsAll name incidents ≠ [] →
    ∃ s, (w.emitsAll name incidents)[(w.emitsAll name incidents).length - C]? = some s ∧
      ((w.incurAll incidents).runListener r).2 = some a ∧
      ∀ later, (w.incurAll (incidents ++ .poll r :: later)).settlement? a = some (settlementOf s)
  /-- If no more than `C` signals have been sent, it is the first. -/
  first : ∀ incidents : List Incident, (∀ i ∈ incidents, i.Spares a r) →
    w.LooksInVain name r incidents → ∀ s rest, w.emitsAll name incidents = s :: rest →
    (s :: rest).length ≤ C →
    ∀ later, (w.incurAll (incidents ++ .poll r :: later)).settlement? a = some (settlementOf s)

theorem Awaits.takesOldest (h : w.Awaits name a r []) (horderly : w.Orderly c) {C : Nat}
    (hC : IsLeast {n | n.isPowerOfTwo ∧ c ≤ n} C) : w.TakesOldest C name a r := by
  have hawaits (incidents : List Incident) (hspares : ∀ i ∈ incidents, i.Spares a r)
      (hvain : w.LooksInVain name r incidents) :
      (w.incurAll incidents).Awaits name a r (w.emitsAll name incidents) :=
    h.incurAll hspares hvain
  have hsettles (incidents : List Incident) (hspares : ∀ i ∈ incidents, i.Spares a r)
      (hvain : w.LooksInVain name r incidents) (hsent : w.emitsAll name incidents ≠ []) :
      ∃ s, (w.emitsAll name incidents)[(w.emitsAll name incidents).length - C]? = some s ∧
        ((w.incurAll incidents).runListener r).2 = some a ∧
        ∀ later, (w.incurAll (incidents ++ .poll r :: later)).settlement? a =
          some (settlementOf s) := by
    have hretention : (w.incurAll incidents).bus.retention = C := by
      have hleast := (w.incurAll incidents).bus.retention_isLeast
      rw [(horderly.incurAll incidents).capacity] at hleast
      exact hleast.unique hC
    obtain ⟨s, hs, hanswer, hset⟩ := (hawaits incidents hspares hvain).runListener_settled hsent
    rw [hretention] at hs
    refine ⟨s, hs, hanswer, fun later => ?_⟩
    rw [incurAll_append]
    exact settlement?_incurAll hset later
  refine ⟨fun incidents hspares hnone => ?_, fun incidents hspares hvain => ?_, hsettles,
    fun incidents hspares hvain s rest hsent hfits later => ?_⟩
  · have hvain : w.LooksInVain name r (incidents ++ []) :=
      looksInVain_append hnone List.not_mem_nil
    rw [List.append_nil] at hvain
    exact (hawaits incidents hspares hvain).unsettled
  · exact (hawaits incidents hspares hvain).unsettled
  · obtain ⟨s', hs', -, hset⟩ := hsettles incidents hspares hvain (by simp [hsent])
    rw [hsent, Nat.sub_eq_zero_of_le hfits] at hs'
    cases hs'
    exact hset later

/-- Whatever has happened to a world whose bus has a capacity of at least one: an action that begins
to await a signal has a listener when its begin returns, and takes the oldest signal that the bus
keeps for it, the least power of two that is not below the capacity being how many it keeps. -/
theorem awaitSignal_spec (c C : Nat) (hc : 1 ≤ c) (hC : IsLeast {n | n.isPowerOfTwo ∧ c ≤ n} C)
    (before : List Incident) (a : ActionId) (name : String) (holders : Nat)
    (hnew : ((ofCapacity c).incurAll before).instances[a]? =
      some ⟨.awaitSignal name, false, none, holders⟩) (input : Json) :
    ∃ w r, ((ofCapacity c).incurAll before).beginAction a input = (w, true) ∧
      (w.listeners.filter fun l => l.action == a) = [⟨r, a, name, false⟩] ∧
      w.TakesOldest C name a r := by
  have horderly := orderly c before
  obtain ⟨hbegun, hawaits⟩ := horderly.begin_awaits hc hnew input
  exact ⟨_, _, Prod.ext rfl hbegun, hawaits.listener_own,
    hawaits.takesOldest (horderly.incur (.begin a input)) hC⟩

/-- The beat of this number; the third one is a failure. -/
def beat (n : Int) : Signal :=
  ⟨"beat", if n = 2 then .fail "missed" else .complete (.int n)⟩

/-- Before the listener: somebody else hears the beat, and another action awaits a pause. -/
def rehearsal : List Incident :=
  [.build (.awaitSignal "beat"), .build (.emitSignal (beat 0)), .subscribe "beat",
    .build (.awaitSignal "pause"), .begin 2 .null]

/-- The listener looks twice; nobody has sent a beat. -/
def pause : List Incident :=
  [.poll 2, .emit ⟨"pause", .complete .null⟩, .subscribe "beat", .poll 2]

/-- Six beats, the first one from an action, while others come and go. -/
def beats : List Incident :=
  [.begin 1 .null, .emit (beat 1), .poll 1, .receive 0, .emit (beat 2), .drop 0, .emit (beat 3),
    .subscribe "pause", .emit (beat 4), .emit (beat 5)]

/-- Of six signals a bus of capacity three keeps four, and the third one counts. -/
theorem awaitSignal_spec_overrun : ∃ w,
    ((ofCapacity 3).incurAll rehearsal).beginAction 0 .null = (w, true) ∧
    (w.incurAll (pause ++ beats)).settlement? 0 = none ∧
    ((w.incurAll (pause ++ beats)).runListener 2).2 = some 0 ∧
    (w.incurAll (pause ++ beats ++ [.poll 2, .emit (beat 6)])).settlement? 0 =
      some (.error (.failed "missed")) := by
  have hfour : IsLeast {n : Nat | n.isPowerOfTwo ∧ 3 ≤ n} 4 :=
    Bus.isLeast_powerOfTwo ⟨1, rfl⟩ (by decide) (by decide)
  obtain ⟨w, r, hbegin, hlistener, htakes⟩ :=
    awaitSignal_spec 3 4 (by decide) hfour rehearsal 0 "beat" 1 rfl .null
  obtain rfl : (((ofCapacity 3).incurAll rehearsal).beginAction 0 .null).1 = w :=
    congrArg Prod.fst hbegin
  obtain rfl : 2 = r := congrArg Listener.receiver (List.singleton_inj.1 hlistener)
  have hspares : ∀ i ∈ pause ++ beats, i.Spares 0 2 := by
    simp [pause, beats, Incident.Spares]
  have hvain : (((ofCapacity 3).incurAll rehearsal).beginAction 0 .null).1.LooksInVain "beat" 2
      (pause ++ beats) := looksInVain_append rfl (by simp [beats])
  have hsent : (((ofCapacity 3).incurAll rehearsal).beginAction 0 .null).1.emitsAll "beat"
      (pause ++ beats) = [beat 0, beat 1, beat 2, beat 3, beat 4, beat 5] := rfl
  obtain ⟨s, hs, hanswer, hset⟩ := htakes.settles _ hspares hvain (by rw [hsent]; nofun)
  rw [hsent] at hs
  cases hs
  exact ⟨_, hbegin, htakes.unsettled _ hspares hvain, hanswer, hset [.emit (beat 6)]⟩

end World

end Rundown
