import Rundown.Proofs.Engine.Rounds

/-!
# The order of branches

The branches of a parallel group start in the same instant, but one after another.  So their order
matters to an action that begins to await a signal in the instant in which a branch sends it
(the last theorem below).  It does not matter otherwise: when nothing of the kind happens,
descriptors that differ in the order of branches end with the same values at the same times, and
fail at the same times.  They fail with the same failure if no group has
two different ones to choose from.
-/

namespace Rundown.Engine

open Step

/-- After it was opened, the playlist has ended with the outcome when the clock shows `t`. -/
def Ends (capacity : Nat) (c : Compiler) (d : Descriptor) (input : Json) (t : Nat) (o : Outcome) :
    Prop :=
  ∃ e n, opening capacity c d input = some e ∧ (live n e).world.clock = t ∧
    (live n e).outcome? 0 = some o

/-- In no instant does the order in which actions begin matter. -/
def AlwaysCalm (e : Engine) : Prop :=
  ∀ m n, m ≤ n → (live n e).world.clock = (live m e).world.clock →
    (live m e).world.Calm (live n e).world

/-- In no instant does a group have different failures to choose from, as far as `view` tells. -/
def AlwaysUnanimous {ε : Type} (view : PlaylistError → ε) (e : Engine) : Prop :=
  ∀ m n, m ≤ n → (live n e).world.clock = (live m e).world.clock →
    (live m e).Unanimous view (live n e)

variable {ε : Type} {view : PlaylistError → ε} {capacity : Nat}
  {c : Compiler} {d d' : Descriptor} {input : Json} {since since' : ActionId → Nat}
  {e e' : Engine} {m : Nat}

/-! ## Runs that come to an end -/

/-- What holds between all moments until nothing is left to wait for holds between all moments. -/
theorem always_of_idle {P : Engine → Engine → Prop} (k : Nat) (hquiet : (live k e).Quiescent)
    (hidle : (live k e).world.nextDeadline = none)
    (h : ∀ n ≤ k, ∀ m ≤ n, (live n e).world.clock = (live m e).world.clock →
      P (live m e) (live n e)) (m n : Nat) (hmn : m ≤ n)
    (hclock : (live n e).world.clock = (live m e).world.clock) : P (live m e) (live n e) := by
  have hlate {n : Nat} (hn : k ≤ n) : live n e = live k e := by
    obtain ⟨i, rfl⟩ := Nat.exists_eq_add_of_le hn
    rw [live_add, live_of_idle hquiet hidle]
  rcases Nat.le_total n k with hn | hn
  · exact h n hn m hmn hclock
  · rw [hlate hn] at hclock ⊢
    rcases Nat.le_total m k with hm | hm
    · exact h k (Nat.le_refl k) m hm hclock
    · rw [hlate hm]
      exact h k (Nat.le_refl k) k (Nat.le_refl k) rfl

/-- What has not ended when nothing is left to wait for never ends. -/
theorem not_ends_of_idle (k : Nat)
    (h : ∀ e ∈ opening capacity c d input, (live k e).Quiescent ∧
      (live k e).world.nextDeadline = none ∧ (live k e).outcome? 0 = none) (t : Nat) (o : Outcome) :
    ¬Ends capacity c d input t o := by
  rintro ⟨e, n, he, -, ho⟩
  obtain ⟨hquiet, hidle, hnone⟩ := h e he
  have hlate := outcome?_live ho k
  rw [← live_add, Nat.add_comm, live_add, live_of_idle hquiet hidle, hnone] at hlate
  cases hlate

/-! ## The first instant -/

theorem Opened.unsettled (h : Opened c d input e) (a : ActionId) :
    e.world.settlement? a = none := by
  refine h.tended.world.unsettled a fun hs => ?_
  obtain ⟨v, hv⟩ := h.tended.world.listed a hs
  rw [h.begun] at hv
  cases hv

/-- Two descriptors that differ in the order of branches, when nothing has begun yet. -/
theorem Opened.coupled (h : Opened c d input e) (h' : Opened c d' input e') (hd : d.Permutes d')
    (hkeyed : d.Keyed) (htyped : d.instances = [])
    (hnarrow : c.config.parallelFailure = .failFast →
      (d.rootPlan 0).width ≤ Group.smallWidth) :
    Coupled view (Descriptor.Counterparts (d.rootPlan 0) (d'.rootPlan 0)) c d d' input (fun _ => 0)
      (fun _ => 0) e e' := by
  have htyped' := hd.instances hkeyed htyped
  have hnodup {d : Descriptor} (htyped : d.instances = []) : (d.rootPlan 0).leaves.Nodup := by
    rw [d.rootPlan_leaves, Descriptor.plan_leaves_eq htyped]
    exact List.nodup_range'
  have hmatches := hd.rootPlan_matches hkeyed 0 0
  have hcaught {d : Descriptor} {e : Engine} (h : Opened c d input e) : e.world.CaughtUp := by
    intro a v name hb
    rw [h.begun] at hb
    cases hb
  refine { acts := ⟨h.tended, h.performs⟩, acts' := ⟨h'.tended, h'.performs⟩, paired := ?_,
           alike := ?_, caught := hcaught h, caught' := hcaught h', mirrors := ?_,
           narrow := hnarrow }
  · refine ⟨hmatches, hnodup htyped, hnodup htyped', fun a a' b' hr hr' => ?_,
      fun a b a' hr hr' => ?_, fun a a' v hr => ?_⟩
    · exact hr.right_unique hr' (hnodup htyped)
    · exact hr.left_unique hr' (hnodup htyped')
    · obtain ⟨root, hroot⟩ := h.performs
      obtain ⟨root', hroot'⟩ := h'.performs
      obtain ⟨ref, k, k', rfl, rfl, hk, hk'⟩ := hd.refs_of_counterparts hkeyed htyped hr
      obtain ⟨action, haction, hbuilds⟩ := forall₂_getElem? hroot.actions hk
      obtain ⟨action', haction', hbuilds'⟩ := forall₂_getElem? hroot'.actions hk'
      rw [World.effects, World.effects, Nat.zero_add, Nat.zero_add, haction, haction',
        hbuilds.unique hbuilds']
  · refine ⟨h'.clock.trans h.clock.symm, fun a a' v _ => ?_, fun a a' _ => ?_,
      fun _ _ _ _ _ => rfl⟩
    · rw [h.begun, h'.begun]
      exact iff_of_false List.not_mem_nil List.not_mem_nil
    · rw [h.unsettled, h'.unsettled]
  · intro root root' hroot hroot'
    have hfine {d : Descriptor} {e : Engine} {root : Step} (h : Opened c d input e)
        (hroot : Performs c d input e root) : root.Fine :=
      Known.fine (.inl ⟨input, hroot.entered⟩) (fun a _ => hroot.sole a) fun a err herr => by
        rw [show (e.scene (fun _ => False) 0).world.settlement? a = none from h.unsettled a] at herr
        cases herr
    refine .of_fine (hfine h hroot) (hfine h' hroot') (r := ?_) ?_
    · exact Descriptor.Counterparts (d.rootPlan 0) (d'.rootPlan 0)
    · rw [hroot.plan, hroot'.plan]
      exact hmatches

/-! ## All instants -/

/-- The engine `g'` is where `g`, which `e` has become, is at the start of an instant. -/
def KeepsPace (view : PlaylistError → ε) (c : Compiler) (d d' : Descriptor) (input : Json)
    (e g g' : Engine) : Prop :=
  ∃ m since since', g = live m e ∧
    Coupled view (Descriptor.Counterparts (d.rootPlan 0) (d'.rootPlan 0)) c d d' input since since'
      g g'

/-- From wherever two performances are at the start of an instant, they go through it together. -/
theorem KeepsPace.exists_round {g g' : Engine} (h : KeepsPace view c d d' input e g g')
    (hcalm : e.AlwaysCalm) (hunanimous : e.AlwaysUnanimous view) :
    ∃ n n', Round view (KeepsPace view c d d' input e) g g' n n' := by
  obtain ⟨m, since, since', rfl, h⟩ := h
  obtain ⟨f, hf, hquiet⟩ := exists_rest (live m e)
  obtain ⟨f', hf', hquiet'⟩ := exists_rest g'
  obtain ⟨n, hn, hlive⟩ := hf.exists_live
  obtain ⟨n', hn', hlive'⟩ := hf'.exists_live
  have hgoes := h.acts.goes hf
  have hfrom : f = live (m + n) e := by rw [← hn, live_add]
  have hclock : (live (m + n) e).world.clock = (live m e).world.clock := hfrom ▸ hgoes.clock
  have hcalm' : (live m e).world.Calm f.world :=
    hfrom ▸ hcalm m (m + n) (Nat.le_add_right m n) hclock
  have hunanimous' : (live m e).Unanimous view f :=
    hfrom ▸ hunanimous m (m + n) (Nat.le_add_right m n) hclock
  obtain ⟨root, hroot⟩ := hgoes.acts.performs
  obtain ⟨root', hroot'⟩ := (h.acts'.goes hf').acts.performs
  have hdeadline := h.nextDeadline_eq hf hf' hquiet hquiet' hcalm'
  refine ⟨n, n', fun k hk => (h.acts.goes (hlive k hk)).clock,
    fun k hk => (h.acts'.goes (hlive' k hk)).clock, h.alike.clock, ?_, ?_⟩
  · rw [hn, hn']
    exact (h.at_rest hf hf' hquiet hquiet' hcalm' hunanimous' hroot hroot').2
  · cases hnow : f.world.nextDeadline with
    | none =>
      refine .inl ⟨fun k => ?_, fun k => ?_⟩
      · rw [live_add, hn, live_of_idle hquiet hnow]
      · rw [live_add, hn', live_of_idle hquiet' (hdeadline.trans hnow)]
    | some now =>
      have hlater := hgoes.acts.tended.clock_lt_nextDeadline hquiet hnow
      obtain ⟨since₁, since₁', hnext⟩ :=
        h.moveClock hf hf' hquiet hquiet' hcalm' hunanimous' (Nat.le_of_lt hlater)
      refine .inr ⟨m + (n + 1), since₁, since₁', (live_add ..).symm, ?_⟩
      rw [live_succ, hn, tick_of_deadline hquiet hnow, live_succ, hn',
        tick_of_deadline hquiet' (hdeadline.trans hnow)]
      exact hnext

section

variable (hcapacity : capacity ≠ 0) (hregistry : c.registry = .builtins) (hd : d.Permutes d')
  (hkeyed : d.Keyed) (htyped : d.instances = [])
  (hnarrow : c.config.parallelFailure = .failFast → (d.rootPlan 0).width ≤ Group.smallWidth)

include hcapacity hregistry hd hkeyed htyped hnarrow

omit hcapacity hregistry htyped hnarrow in
theorem opening_isSome_congr :
    (opening capacity c d' input).isSome = (opening capacity c d input).isSome := by
  rw [Bool.eq_iff_iff, opening_isSome_iff, opening_isSome_iff]
  exact hd.compile_succeeds_iff hkeyed c _

/-- Whatever one of two descriptors that differ in the order of branches ends with, the other ends
with at the same time, as far as `view` tells failures apart. -/
theorem ends_similar (view : PlaylistError → ε)
    (hcalm : ∀ e, opening capacity c d input = some e → e.AlwaysCalm)
    (hunanimous : ∀ e, opening capacity c d input = some e → e.AlwaysUnanimous view) (t : Nat) :
    (∀ o, Ends capacity c d input t o →
      ∃ o', Ends capacity c d' input t o' ∧ o'.mapError view = o.mapError view) ∧
    (∀ o', Ends capacity c d' input t o' →
      ∃ o, Ends capacity c d input t o ∧ o.mapError view = o'.mapError view) := by
  have hboth : (opening capacity c d' input).isSome = (opening capacity c d input).isSome :=
    opening_isSome_congr hd hkeyed
  cases he : opening capacity c d input with
  | none =>
    rw [he, Option.isSome_none, Option.isSome_eq_false_iff, Option.isNone_iff_eq_none] at hboth
    constructor
    · rintro o ⟨e, n, he', -⟩
      rw [he] at he'
      cases he'
    · rintro o ⟨e, n, he', -⟩
      rw [hboth] at he'
      cases he'
  | some e =>
    rw [he] at hboth
    obtain ⟨e', he'⟩ := Option.isSome_iff_exists.1 hboth
    have hopened := opening_opened hcapacity hregistry htyped he
    have hopened' := opening_opened hcapacity hregistry (hd.instances hkeyed htyped) he'
    have hstart : KeepsPace view c d d' input e e e' :=
      ⟨0, _, _, rfl, hopened.coupled hopened' hd hkeyed htyped hnarrow⟩
    have hround g g' (h : KeepsPace view c d d' input e g g') :=
      h.exists_round (hcalm e he) (hunanimous e he)
    constructor
    · rintro o ⟨g, n, hg, rfl, ho⟩
      obtain rfl := Option.some.inj (he.symm.trans hg)
      obtain ⟨k, o', hclock, ho', hview⟩ := ends_of_rounds hround hstart ho
      exact ⟨o', ⟨e', k, he', hclock, ho'⟩, hview⟩
    · rintro o' ⟨g', n, hg', rfl, ho'⟩
      obtain rfl := Option.some.inj (he'.symm.trans hg')
      obtain ⟨k, o, hclock, ho, hview⟩ := ends_of_rounds
        (fun g' g h => (hround g g' h).elim fun n ⟨n', hr⟩ => ⟨n', n, hr.symm⟩) hstart ho'
      exact ⟨o, ⟨e, k, he, hclock, ho⟩, hview⟩

/-- Descriptors that differ in the order of the branches of parallel groups come to the same: unless
an action begins to await a signal in the instant in which it is sent, or gets to choose between
signals, they end with the same values and fail at the same times, and with the same failures unless
a group gets to choose between failures. -/
theorem branchOrder_spec
    (hcalm : ∀ e, opening capacity c d input = some e → e.AlwaysCalm) :
    (opening capacity c d' input).isSome = (opening capacity c d input).isSome ∧
      (∀ t u, Ends capacity c d' input t (.ok u) ↔ Ends capacity c d input t (.ok u)) ∧
      (∀ t, (∃ err, Ends capacity c d' input t (.error err)) ↔
        ∃ err, Ends capacity c d input t (.error err)) ∧
      ((∀ e, opening capacity c d input = some e → e.AlwaysUnanimous id) →
        ∀ t o, Ends capacity c d' input t o ↔ Ends capacity c d input t o) := by
  have hroughly := ends_similar hcapacity hregistry hd hkeyed htyped hnarrow (fun _ => ()) hcalm
    fun e _ m n _ _ => unanimousList_of_subsingleton _ _ _
  have hsame {o o' : Outcome} (h : o'.mapError (fun _ => ()) = o.mapError fun _ => ()) :
      (∀ u, o = .ok u → o' = .ok u) ∧ ∀ err, o = .error err → ∃ err', o' = .error err' := by
    cases o <;> cases o' <;> cases h <;> simp
  refine ⟨opening_isSome_congr hd hkeyed, fun t u => ⟨fun h => ?_, fun h => ?_⟩,
    fun t => ⟨fun ⟨err, h⟩ => ?_, fun ⟨err, h⟩ => ?_⟩, fun hunanimous t o => ?_⟩
  · obtain ⟨o, ho, hview⟩ := (hroughly t).2 _ h
    exact (hsame hview).1 u rfl ▸ ho
  · obtain ⟨o, ho, hview⟩ := (hroughly t).1 _ h
    exact (hsame hview).1 u rfl ▸ ho
  · obtain ⟨o, ho, hview⟩ := (hroughly t).2 _ h
    obtain ⟨err', rfl⟩ := (hsame hview).2 err rfl
    exact ⟨err', ho⟩
  · obtain ⟨o, ho, hview⟩ := (hroughly t).1 _ h
    obtain ⟨err', rfl⟩ := (hsame hview).2 err rfl
    exact ⟨err', ho⟩
  · have hid {o o' : Outcome} (h : o'.mapError id = o.mapError id) : o' = o := by
      cases o <;> cases o' <;> cases h <;> rfl
    have hexactly := ends_similar hcapacity hregistry hd hkeyed htyped hnarrow id hcalm hunanimous t
    constructor
    · intro h
      obtain ⟨o', ho', hview⟩ := hexactly.2 o h
      exact hid hview ▸ ho'
    · intro h
      obtain ⟨o', ho', hview⟩ := hexactly.1 o h
      exact hid hview ▸ ho'

end

/-- A compiler that knows the built-in actions. -/
def standard : Compiler := ⟨.builtins, .default⟩

/-- Awaits a signal. -/
def awaitGo : Descriptor := .action ⟨"awaitSignal", .ofFields [("signal", .string "go")]⟩

/-- Sends that signal, with the given members besides its name. -/
def sendGo (members : List (String × Json)) : Descriptor :=
  .action ⟨"emitSignal", .ofFields (("signal", .string "go") :: members)⟩

def waitFor (ms : Int) : Descriptor := .action ⟨"wait", .ofFields [("timeout", .int ms)]⟩

/-- One branch fails by a signal that another sends after a while. -/
def failsBySignal : List (String × Descriptor) :=
  [("a", awaitGo), ("b", .sequence [waitFor 5, sendGo [("fail", .string "no")]]), ("c", waitFor 9)]

/-- However its branches are ordered, the group fails when the signal is sent. -/
theorem branchOrder_spec_failsBySignal :
    (∀ e, opening 16 standard (.parallel failsBySignal) .null = some e →
      e.AlwaysCalm ∧ e.AlwaysUnanimous id) ∧
    Ends 16 standard (.parallel failsBySignal) .null 5 (.error (.action (.failed "no"))) ∧
    Ends 16 standard (.parallel failsBySignal.reverse) .null 5
      (.error (.action (.failed "no"))) := by
  have hidle : ∀ e ∈ opening 16 standard (.parallel failsBySignal) .null,
      (live 13 e).Quiescent ∧ (live 13 e).world.nextDeadline = none := by decide +kernel
  have hcalm : ∀ e ∈ opening 16 standard (.parallel failsBySignal) .null, ∀ n ≤ 13, ∀ m ≤ n,
      (live n e).world.clock = (live m e).world.clock →
        (live m e).world.Calm (live n e).world ∧ (live m e).Unanimous id (live n e) := by
    decide +kernel
  have hcalm e (he : opening 16 standard (.parallel failsBySignal) .null = some e) :
      e.AlwaysCalm ∧ e.AlwaysUnanimous id :=
    have h := always_of_idle (P := fun e f => e.world.Calm f.world ∧ e.Unanimous id f) 13
      (hidle e he).1 (hidle e he).2 (hcalm e he)
    ⟨fun m n hmn hclock => (h m n hmn hclock).1, fun m n hmn hclock => (h m n hmn hclock).2⟩
  have hrun : ∃ e ∈ opening 16 standard (.parallel failsBySignal) .null,
      (live 11 e).world.clock = 5 ∧
        (live 11 e).outcome? 0 = some (.error (.action (.failed "no"))) := by decide +kernel
  obtain ⟨e, he, hrun⟩ := hrun
  have hends : Ends 16 standard (.parallel failsBySignal) .null 5
      (.error (.action (.failed "no"))) := ⟨e, 11, he, hrun⟩
  have hkeyed : (Descriptor.parallel failsBySignal).Keyed :=
    ⟨by decide, trivial, ⟨trivial, trivial, trivial⟩, trivial, trivial⟩
  have hspec := branchOrder_spec (by decide) rfl (.of_perm failsBySignal.reverse_perm) hkeyed rfl
    (fun _ => by decide) fun e he => (hcalm e he).1
  exact ⟨hcalm, hends, (hspec.2.2.2 (fun e he => (hcalm e he).2) 5 _).2 hends⟩

/-- A branch that awaits a signal, before one that sends it. -/
def listenerFirst : List (String × Descriptor) := [("a", awaitGo), ("b", sendGo [])]

/-- An action that begins to await a signal after a branch before it has sent that, in the same
instant, does not get it: the order of branches decides whether this playlist ends. -/
theorem listener_misses_signal :
    (Descriptor.parallel listenerFirst).Permutes (.parallel listenerFirst.reverse) ∧
      (Descriptor.parallel listenerFirst).Keyed ∧
      (Descriptor.parallel listenerFirst).instances = [] ∧
      (∃ t u, Ends 16 standard (.parallel listenerFirst) .null t (.ok u)) ∧
      ∀ t o, ¬Ends 16 standard (.parallel listenerFirst.reverse) .null t o := by
  refine ⟨.of_perm listenerFirst.reverse_perm, ⟨by decide, trivial, trivial, trivial⟩, rfl, ?_, ?_⟩
  · have hrun : ∃ e ∈ opening 16 standard (.parallel listenerFirst) .null,
        (live 3 e).outcome? 0 = some (.ok (.object [("a", .null), ("b", .null)])) := by
      decide +kernel
    obtain ⟨e, he, hrun⟩ := hrun
    exact ⟨_, _, e, 3, he, rfl, hrun⟩
  · exact not_ends_of_idle 2 (by decide +kernel)

end Rundown.Engine
