import Rundown.Proofs.Engine.Alike
import Rundown.Proofs.Engine.Progress
import Rundown.Proofs.Playlist.Mirror

/-!
# Two performances, instant by instant

Two engines perform descriptors that differ in the order of branches.  Whenever both have come to
rest, their playlists have ended alike (`Engine.Coupled.at_rest`), and at the next deadline they
start an instant from which the same can be said again (`Engine.Coupled.moveClock`).  So whatever one
of them ends with, the other ends with at the same time (`Engine.ends_of_rounds`).
-/

namespace Rundown.Engine

open Step

variable {ε : Type} {view : PlaylistError → ε} {r : ActionId → ActionId → Prop} {c : Compiler}
  {d d' : Descriptor} {input : Json} {since since' : ActionId → Nat} {e e' f f' : Engine}
  {root root' : Step}

/-- No parallel group of a playlist can choose between failures that look different: if it came by
one between the two moments, all failures of its branches look the same. -/
def Unanimous (view : PlaylistError → ε) (e f : Engine) : Prop :=
  UnanimousList view f.world e.roots f.roots

instance [DecidableEq ε] (e f : Engine) : Decidable (e.Unanimous view f) :=
  inferInstanceAs (Decidable (UnanimousList view f.world e.roots f.roots))

/-- Two performances at the start of an instant, whose groups have come by the same failures. -/
structure Coupled (view : PlaylistError → ε) (r : ActionId → ActionId → Prop) (c : Compiler)
    (d d' : Descriptor) (input : Json) (since since' : ActionId → Nat) (e e' : Engine) : Prop
    extends Synced r c d d' input since since' e e' where
  mirrors : ∀ root root', Performs c d input e root → Performs c d' input e' root' →
    root.Mirrors view root'
  narrow : c.config.parallelFailure = .failFast → (d.rootPlan 0).width ≤ Group.smallWidth

theorem Instant.onward (h : Instant e f) : OnwardList e.roots f.roots := by
  induction h with
  | refl => exact onwardList_refl _
  | tail _ hn ih => exact onwardList_trans ih (next_onward hn)

theorem Performs.onward (h : Performs c d input e root) (h' : Performs c d input f root')
    (hf : Instant e f) : root.Onward root' := by
  obtain ⟨p, hp, rfl⟩ := h.alone
  obtain ⟨p', hp', rfl⟩ := h'.alone
  have honward := hf.onward
  rw [roots, roots, hp, hp'] at honward
  exact honward.1

/-! ## One instant -/

section

variable (h : Coupled view r c d d' input since since' e e') (hf : Instant e f)
  (hf' : Instant e' f') (hquiet : f.Quiescent) (hquiet' : f'.Quiescent)
  (hcalm : e.world.Calm f.world) (hunanimous : e.Unanimous view f)

include h hf hf' hquiet hquiet' hcalm hunanimous

/-- When the instant is over, both playlists have ended alike, and so have the groups in them. -/
theorem Coupled.at_rest (hroot : Performs c d input f root)
    (hroot' : Performs c d' input f' root') :
    root.Mirrors view root' ∧ (f'.outcome? 0).map (Except.mapError view) =
      (f.outcome? 0).map (Except.mapError view) := by
  obtain ⟨root₀, hroot₀⟩ := h.acts.performs
  obtain ⟨root₀', hroot₀'⟩ := h.acts'.performs
  have habreast : Abreast view r c.config.parallelFailure f.world root₀ root₀' root root' := {
    under := hroot.under
    under' := hroot'.under
    plans := by
      rw [hroot.plan, hroot'.plan]
      exact h.paired.plans
    narrow := hroot.plan ▸ h.narrow
    onward := hroot₀.onward hroot hf
    onward' := hroot₀'.onward hroot' hf'
    mirrors := h.mirrors root₀ root₀' hroot₀ hroot₀'
    unanimous := by
      obtain ⟨p, hp, rfl⟩ := hroot.alone
      obtain ⟨p₀, hp₀, rfl⟩ := hroot₀.alone
      rw [Unanimous, roots, roots, hp, hp₀] at hunanimous
      exact hunanimous.1 }
  have halike := h.alike_at_rest hf hf' hquiet hquiet' hcalm
  rw [hroot.outcome?_eq, hroot'.outcome?_eq]
  exact Abreast.at_rest (hroot.sound.atRest hquiet 0) (hroot'.sound.atRest hquiet' 0) hroot.sole
    hroot'.sole halike.settled habreast hroot.entered hroot'.entered

/-- The next instant starts with the same being so. -/
theorem Coupled.moveClock {now : Nat} (hnow : f.world.clock ≤ now) : ∃ since since',
    Coupled view r c d d' input since since' { f with world := f.world.moveClock now }
      { f' with world := f'.world.moveClock now } := by
  refine ⟨_, _, h.toSynced.moveClock hf hf' hquiet hquiet' hcalm hnow,
    fun root root' hroot hroot' => ?_,
    h.narrow⟩
  obtain ⟨root₁, hroot₁⟩ := (h.acts.goes hf).acts.performs
  obtain ⟨root₁', hroot₁'⟩ := (h.acts'.goes hf').acts.performs
  -- A move of the clock leaves the playlists alone.
  have hsame {d : Descriptor} {g : Engine} {root root₁ : Step} (h₁ : Performs c d input g root₁)
      (h : Performs c d input { g with world := g.world.moveClock now } root) : root = root₁ := by
    obtain ⟨p, hp, rfl⟩ := h.alone
    obtain ⟨p₁, hp₁, rfl⟩ := h₁.alone
    have hlist : [p] = [p₁] := hp.symm.trans hp₁
    rw [List.singleton_inj.1 hlist]
  rw [hsame hroot₁ hroot, hsame hroot₁' hroot']
  exact (h.at_rest hf hf' hquiet hquiet' hcalm hunanimous hroot₁ hroot₁').1

end

/-! ## Instant after instant -/

/-- One instant of two engines: they come to rest after `n` and `n'` ticks and have ended alike; and
then both stay as they are, or the next tick takes them to where `R` holds. -/
structure Round (view : PlaylistError → ε) (R : Engine → Engine → Prop) (e e' : Engine)
    (n n' : Nat) : Prop where
  still : ∀ m ≤ n, (live m e).world.clock = e.world.clock
  still' : ∀ m ≤ n', (live m e').world.clock = e'.world.clock
  clock : e'.world.clock = e.world.clock
  told : ((live n' e').outcome? 0).map (Except.mapError view) =
    ((live n e).outcome? 0).map (Except.mapError view)
  goes : ((∀ m, live (n + m) e = live n e) ∧ ∀ m, live (n' + m) e' = live n' e') ∨
    R (live (n + 1) e) (live (n' + 1) e')

variable {R : Engine → Engine → Prop} {n n' : Nat}

theorem Round.symm (h : Round view R e e' n n') : Round view (fun e' e => R e e') e' e n' n where
  still := h.still'
  still' := h.still
  clock := h.clock.symm
  told := h.told.symm
  goes := h.goes.imp_left And.symm

/-- Whenever one engine has come so far, both come to rest at that time and have ended alike. -/
theorem reach_of_rounds (hround : ∀ e e', R e e' → ∃ n n', Round view R e e' n n') (h : R e e')
    (n : Nat) : ∃ k k', n ≤ k ∧ (live k' e').world.clock = (live n e).world.clock ∧
      ((live k' e').outcome? 0).map (Except.mapError view) =
        ((live k e).outcome? 0).map (Except.mapError view) := by
  induction n using Nat.strong_induction_on generalizing e e' with
  | h n ih =>
    obtain ⟨i, i', hr⟩ := hround e e' h
    have hclock' : (live i' e').world.clock = e.world.clock :=
      (hr.still' i' (Nat.le_refl i')).trans hr.clock
    rcases Nat.lt_or_ge i n with hlt | hle
    · obtain ⟨m, rfl⟩ := Nat.exists_eq_add_of_lt hlt
      rcases hr.goes with ⟨hstays, -⟩ | hnext
      · refine ⟨i + m + 1, i', Nat.le_refl _, ?_, ?_⟩
        · rw [Nat.add_assoc, hstays, hclock', hr.still i (Nat.le_refl i)]
        · rw [Nat.add_assoc, hstays, hr.told]
      · obtain ⟨k, k', hk, hclock, htold⟩ := ih m (by omega) hnext
        refine ⟨i + 1 + k, i' + 1 + k', by omega, ?_, ?_⟩
        · rw [live_add, hclock, ← live_add, Nat.add_right_comm]
        · rw [live_add (i' + 1), htold, ← live_add]
    · exact ⟨i, i', hle, hclock'.trans (hr.still n hle).symm, hr.told⟩

/-- Whatever one playlist has ended with at some time, the other has ended with then. -/
theorem ends_of_rounds (hround : ∀ e e', R e e' → ∃ n n', Round view R e e' n n') (h : R e e')
    {n : Nat} {o : Outcome} (ho : (live n e).outcome? 0 = some o) : ∃ k o',
      (live k e').world.clock = (live n e).world.clock ∧ (live k e').outcome? 0 = some o' ∧
        o'.mapError view = o.mapError view := by
  obtain ⟨k, k', hk, hclock, htold⟩ := reach_of_rounds hround h n
  obtain ⟨m, rfl⟩ := Nat.exists_eq_add_of_le hk
  rw [live_add, outcome?_live ho m] at htold
  obtain ⟨o', ho', hsame⟩ := Option.map_eq_some_iff.1 htold
  exact ⟨k', o', hclock, ho', hsame⟩

end Rundown.Engine
