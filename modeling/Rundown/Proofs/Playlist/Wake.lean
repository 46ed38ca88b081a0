import Rundown.Playlist.Wake
import Rundown.Proofs.Playlist.Revise
import Rundown.Proofs.World.Settling

/-!
# Waking after a completion has settled

`Step.wake_revised`: once a completion has settled and the leaf that awaits it has woken the groups
around it, every step is left as `Step.Revised` says.
-/

namespace Rundown.Step

variable {x : Scene} {place : List Nat} {s : Step} {w u : World} {a : ActionId}

theorem awaits_iff {slot : Slot} {b : ActionId} :
    awaits slot b a = true ↔ slot = .waiting ∧ b = a := by
  cases slot <;> simp [awaits]

/-- A leaf wakes the group around it when its completion settles. -/
theorem Revised.settled (h : World.Settles (some a) w u) (slot : Slot) (b : ActionId) :
    Revised (x.after w) (x.after u) place (.leaf slot b) (.leaf slot b) (awaits slot b a) where
  reset := rfl
  slot := rfl
  entered _ hs := Slot.Sound.mono hs (fun h => h) h.keeps.began (h.keeps.settled b)
  untouched hs := ⟨hs.1, fun c hc hx => ⟨(h.started c).trans (hs.2 c hc hx).1, (hs.2 c hc hx).2⟩⟩
  dormant hs := hs
  tied hs := hs
  answer _ ho := answer?_mono h.keeps.settled ho
  quiet ha hq := by
    cases slot with
    | idle | done o => cases ha
    | refused e => cases hq.1
    | waiting =>
      by_cases hb : b = a
      · exact .inl (awaits_iff.2 ⟨rfl, hb⟩)
      · have hsame := (h.keeps.same b fun heq => hb (Option.some.inj heq).symm).2
        refine .inr ⟨?_, h.keeps.started b hq.2⟩
        show (u.settlement? b).map _ = none
        rw [hsame]
        exact hq.1
  ready _ hs hsig hnone := by
    obtain ⟨rfl, rfl⟩ := awaits_iff.1 hsig
    obtain ⟨v, hv⟩ := hs
    refine h.settled b rfl (World.Began.started hv) ?_
    exact Option.map_eq_none_iff.1 hnone

/-- What happens next to the world does not concern the steps. -/
theorem Revised.then_settles {s' : Step} {w' : World} {signalled : Bool}
    (h : Revised (x.after w) (x.after u) place s s' signalled) (hu : World.Settles none u w') :
    Revised (x.after w) (x.after w') place s s' signalled :=
  h.then_follows (.of_keeps hu.keeps (fun _ hd => hu.keeps.due _ hd) (fun _ _ _ hn => by cases hn)
    fun _ _ _ _ hn => by cases hn)

theorem RevisedAll.cons {y : Scene} {index : Nat} {s' : Step} {rest rest' : List Step}
    {signalled : Nat → Bool} (h : Revised x y (place ++ [index]) s s' (signalled index))
    (hrest : RevisedAll x y place (index + 1) rest rest' signalled) :
    RevisedAll x y place index (s :: rest) (s' :: rest') signalled := by
  refine ⟨congrArg Nat.succ hrest.length, ?_⟩
  intro i t t' hi hi'
  cases i with
  | zero =>
    cases hi
    cases hi'
    exact h
  | succ i =>
    have := hrest.each i t t' hi hi'
    rwa [Nat.add_right_comm, Nat.add_assoc] at this

/-- What waking the groups around the leaf below a step leads to. -/
def WakeSpec (x : Scene) (w : World) (a : ActionId) (s : Step) : Prop :=
  ∀ (site : Site) (u : World), site.playlist = x.playlist → World.Settles (some a) w u →
    World.Settles none u (wake a site s u).2.1 ∧
      Revised (x.after w) (x.after (wake a site s u).2.1) site.place s (wake a site s u).1
        (wake a site s u).2.2 ∧
      ((wake a site s u).2.2 = true → ∀ t ∈ site.above, (wake a site s u).2.1.Due t)

theorem wakeList_revised {playlist : PlaylistId} {above tasks : List Task} {steps : List Step}
    {index width : Nat} {g : Group} (hspec : ∀ s ∈ steps, WakeSpec x w a s)
    (hsite : playlist = x.playlist) (h : World.Settles (some a) w u)
    {r : Group × List Step × World × Bool}
    (hr : wakeList a (Site.child ⟨playlist, place, above⟩ tasks) width index g steps u = r) :
    ∃ signalled : Nat → Bool, g.Rewoken r.1 width signalled ∧
      World.Settles none u r.2.2.1 ∧
      RevisedAll (x.after w) (x.after r.2.2.1) place index steps r.2.1 signalled ∧
      (∀ i, signalled i = true → index ≤ i) ∧
      (r.2.2.2 = true ↔ ∃ i, signalled i = true) ∧
      (r.2.2.2 = true → ∀ t ∈ tasks, r.2.2.1.Due t) := by
  induction steps generalizing index g u r with
  | nil =>
    subst hr
    exact ⟨fun _ => false, .refl width, .refl u, ⟨rfl, fun i s s' hi => by cases hi⟩,
      fun i hi => (by cases hi), ⟨fun h => (by cases h), fun ⟨_, h⟩ => (by cases h)⟩,
      fun h => (by cases h)⟩
  | cons s rest ih =>
    obtain ⟨hstep, hrev, hdue⟩ := hspec s List.mem_cons_self
      (Site.child ⟨playlist, place, above⟩ tasks index) u hsite h
    simp only [wakeList] at hr
    generalize wake a (Site.child ⟨playlist, place, above⟩ tasks index) s u = q
      at hr hstep hrev hdue
    obtain ⟨signalled, hre, hsettles, hall, hbound, hiff, hdue'⟩ :=
      ih (fun t ht => hspec t (List.mem_cons_of_mem _ ht)) (h.then_frame hstep) rfl
    generalize wakeList a (Site.child ⟨playlist, place, above⟩ tasks) width (index + 1)
      (g.noteWake index width q.2.2) rest q.2.1 = r' at hr hre hsettles hall hiff hdue'
    subst hr
    have hat : signalled index = false := by
      cases hs : signalled index with
      | false => rfl
      | true => exact absurd (hbound index hs) (Nat.not_succ_le_self index)
    refine ⟨_, (Group.noteWake_rewoken index width q.2.2).trans hre, hstep.then_frame hsettles,
      RevisedAll.cons ?_ ⟨hall.length, ?_⟩, ?_, ?_, ?_⟩
    · rw [beq_self_eq_true, Bool.true_and, hat, Bool.or_false]
      exact hrev.then_settles hsettles
    · intro i t t' hi hi'
      rw [beq_eq_false_iff_ne.2 (by omega), Bool.false_and, Bool.false_or]
      exact hall.each i t t' hi hi'
    · intro i hi
      rcases Bool.or_eq_true_iff.1 hi with hi | hi
      · exact Nat.le_of_eq (beq_iff_eq.1 (Bool.and_eq_true_iff.1 hi).1).symm
      · exact Nat.le_of_succ_le (hbound i hi)
    · constructor
      · intro hsig
        rcases Bool.or_eq_true_iff.1 hsig with hsig | hsig
        · exact ⟨index, by simp [hsig]⟩
        · obtain ⟨i, hi⟩ := hiff.1 hsig
          exact ⟨i, by simp [hi]⟩
      · rintro ⟨i, hi⟩
        rcases Bool.or_eq_true_iff.1 hi with hi | hi
        · exact Bool.or_eq_true_iff.2 (.inl (Bool.and_eq_true_iff.1 hi).2)
        · exact Bool.or_eq_true_iff.2 (.inr (hiff.2 ⟨i, hi⟩))
    · intro hsig t ht
      rcases Bool.or_eq_true_iff.1 hsig with hsig | hsig
      · exact hsettles.keeps.due t (hdue hsig t ht)
      · exact hdue' hsig t ht

theorem wake_revised (s : Step) : WakeSpec x w a s := by
  induction s using induction with
  | leaf slot b =>
    intro site u _ h
    have hstep :
        World.Settles none u (if awaits slot b a then u.scheduleAll site.above else u) := by
      split
      · exact World.scheduleAll_settles u site.above
      · exact .refl u
    refine ⟨hstep, .settled (h.then_frame hstep) slot b, ?_⟩
    intro hs t ht
    have hs : awaits slot b a = true := hs
    simp only [wake, hs, if_true]
    exact World.due_scheduleAll u ht
  | group slot g steps ih =>
    rintro ⟨playlist, place, above⟩ u hsite h
    obtain rfl : playlist = x.playlist := hsite
    simp only [wake]
    generalize hr : wakeList a (Site.child ⟨x.playlist, place, above⟩
      (g.wakes above (Site.task ⟨x.playlist, place, above⟩))) steps.length 0 g steps u = r
    obtain ⟨signalled, hre, hsettles, hall, -, hiff, hdue⟩ := wakeList_revised ih rfl h hr
    refine ⟨hsettles, Revised.group slot _ hre hall rfl (fun _ h => h) (fun _ h => h)
      (h.then_frame hsettles).keeps.settled (fun hd => (h.then_frame hsettles).keeps.due _ hd)
      (fun htask hsig => hdue (hiff.2 hsig) _ (Group.mem_wakes_own htask)), ?_⟩
    intro hsig t ht
    rw [Bool.and_eq_true_iff, Group.wakesParent_iff, hre.waiters] at hsig
    exact hdue hsig.1 t (Group.mem_wakes_above hsig.2 ht)

end Rundown.Step
