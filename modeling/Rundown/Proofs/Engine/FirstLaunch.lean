import Mathlib.Data.List.Induction
import Rundown.Proofs.Engine.Production
import Rundown.Proofs.Engine.Seats
import Rundown.Proofs.Playlist.Accomplished

/-!
# The first launch of an action

Leaves may share an action, in one playlist or in several.  The first of them to be launched begins
it and has its outcome; every other one is refused and fails its own group
(`Engine.firstLaunch_spec`).  A ledger says which launch of an action was the first
(`Seat.Ledger`); whatever happens to seats only adds to it.
-/

namespace Rundown

namespace Seat

/-- How a seat stands, where `first` says which launches were the first ones. -/
def Accounted (first : ActionId → Option (PlaylistId × List Nat)) (w : World) (seat : Seat) :
    Prop :=
  match seat.slot with
  | .idle => first seat.action ≠ some seat.key
  | .waiting => first seat.action = some seat.key
  | .refused e => e = .action .alreadyStarted ∧
      ∃ key, first seat.action = some key ∧ key ≠ seat.key
  | .done o => (first seat.action = some seat.key ∧
      ∃ s, w.settlement? seat.action = some s ∧ o = s.mapError .action) ∨
    (o = .error (.action .alreadyStarted) ∧
      ∃ key, first seat.action = some key ∧ key ≠ seat.key)

/-- `first` is the place of the first launch of each action that has begun. -/
structure Ledger (first : ActionId → Option (PlaylistId × List Nat)) (seats : List Seat)
    (w : World) : Prop where
  nodup : (seats.map key).Nodup
  known : ∀ seat ∈ seats, w.started? seat.action ≠ none
  started : ∀ a key, first a = some key → w.started? a = some true
  owned : ∀ a, w.started? a = some true →
    ∃ seat ∈ seats, seat.action = a ∧ first a = some seat.key
  begun : ∀ a, w.started? a = some true → ∃ v, (a, v) ∈ w.begun
  accounted : ∀ seat ∈ seats, seat.Accounted first w

/-- What is known of first launches stays known. -/
def Extends (first first' : ActionId → Option (PlaylistId × List Nat)) : Prop :=
  ∀ a key, first a = some key → first' a = some key

variable {first first' first'' : ActionId → Option (PlaylistId × List Nat)} {seat : Seat}
  {seats seats' others added : List Seat} {w w' : World} {o : Outcome}

theorem Extends.refl (first : ActionId → Option (PlaylistId × List Nat)) : Extends first first :=
  fun _ _ h => h

theorem Extends.trans (h : Extends first first') (h' : Extends first' first'') :
    Extends first first'' :=
  fun a key hk => h' a key (h a key hk)

/-- A seat stands as before if nothing has happened to its action. -/
theorem Accounted.mono (h : seat.Accounted first w)
    (hfirst : first' seat.action = first seat.action)
    (hsettled : ∀ s, w.settlement? seat.action = some s → w'.settlement? seat.action = some s) :
    seat.Accounted first' w' := by
  unfold Accounted at h ⊢
  rw [hfirst]
  cases hs : seat.slot with
  | idle | waiting | refused =>
    rw [hs] at h
    exact h
  | done o =>
    rw [hs] at h
    exact h.imp_left fun ⟨hown, s, hsett, ho⟩ => ⟨hown, s, hsettled s hsett, ho⟩

/-- An action that nobody has launched has idle seats only. -/
theorem Accounted.idle (h : seat.Accounted first w) (hnone : first seat.action = none) :
    seat.slot = .idle := by
  unfold Accounted at h
  cases hs : seat.slot with
  | idle => rfl
  | waiting =>
    rw [hs, hnone] at h
    cases h
  | refused e =>
    rw [hs, hnone] at h
    obtain ⟨-, key, hkey, -⟩ := h
    cases hkey
  | done o =>
    rw [hs, hnone] at h
    rcases h with ⟨h, -⟩ | ⟨-, key, hkey, -⟩
    · cases h
    · cases hkey

namespace Ledger

theorem perm (h : Ledger first seats w) (hp : seats'.Perm seats) : Ledger first seats' w where
  nodup := ((hp.map key).nodup_iff).2 h.nodup
  known seat hm := h.known seat (hp.mem_iff.1 hm)
  started := h.started
  owned a ha := by
    obtain ⟨seat, hm, hseat⟩ := h.owned a ha
    exact ⟨seat, hp.mem_iff.2 hm, hseat⟩
  begun := h.begun
  accounted seat hm := h.accounted seat (hp.mem_iff.1 hm)

/-- The seat that was launched first is still there when some seat gets another slot. -/
theorem owned_withSlot (slot : Slot) {a : ActionId}
    (h : ∃ s ∈ seat :: others, s.action = a ∧ first a = some s.key) :
    ∃ s ∈ seat.withSlot slot :: others, s.action = a ∧ first a = some s.key := by
  obtain ⟨s, hm, hs⟩ := h
  rcases List.mem_cons.1 hm with rfl | hm
  · exact ⟨_, List.mem_cons_self, hs⟩
  · exact ⟨s, List.mem_cons_of_mem _ hm, hs⟩

/-- A leaf whose action has begun is refused, and nothing else happens. -/
theorem refuse (h : Ledger first (seat :: others) w) (hidle : seat.slot = .idle)
    (hs : w.started? seat.action = some true) :
    Ledger first (seat.withSlot (.launched false) :: others) w where
  nodup := h.nodup
  known := List.forall_mem_cons.2 ⟨h.known seat List.mem_cons_self, fun s hm =>
    h.known s (List.mem_cons_of_mem _ hm)⟩
  started := h.started
  owned a ha := owned_withSlot _ (h.owned a ha)
  begun := h.begun
  accounted := by
    refine List.forall_mem_cons.2 ⟨?_, fun s hm => h.accounted s (List.mem_cons_of_mem _ hm)⟩
    obtain ⟨owner, -, -, howner⟩ := h.owned seat.action hs
    have hseat := h.accounted seat List.mem_cons_self
    rw [Accounted, hidle] at hseat
    exact ⟨rfl, owner.key, howner, fun heq => hseat (heq ▸ howner)⟩

/-- A leaf whose action has not begun is the first to launch it. -/
theorem begins (h : Ledger first (seat :: others) w) (v : Json)
    (hs : w.started? seat.action = some false) :
    Ledger (Function.update first seat.action (some seat.key))
      (seat.withSlot (.launched true) :: others) (w.beginAction seat.action v).1 := by
  obtain ⟨-, ⟨hlog, hstarted⟩, -⟩ := World.beginAction_began v hs
  have hkeeps := w.beginAction_keeps seat.action v
  have hor {b : ActionId} (hb : (w.beginAction seat.action v).1.started? b = some true)
      (hne : b ≠ seat.action) : w.started? b = some true :=
    (hkeeps.started_or hb).resolve_right fun ht => hne ht.1
  have hnone : first seat.action = none := by
    refine Option.eq_none_iff_forall_not_mem.2 fun key hkey => ?_
    have := h.started _ key hkey
    rw [hs] at this
    cases this
  have hother {s : Seat} (hm : s ∈ others) : s.key ≠ seat.key := by
    have := (List.nodup_cons.1 h.nodup).1
    exact fun heq => this (heq ▸ List.mem_map_of_mem hm)
  have hknown (s : Seat) (hm : s ∈ seat :: others) :
      (w.beginAction seat.action v).1.started? s.action ≠ none := by
    by_cases heq : s.action = seat.action
    · rw [heq, hstarted]
      exact Option.some_ne_none _
    · rw [(hkeeps.same s.action fun ht => heq ht.1).1]
      exact h.known s hm
  refine ⟨h.nodup, List.forall_mem_cons.2 ⟨hknown seat List.mem_cons_self, fun s hm =>
    hknown s (List.mem_cons_of_mem _ hm)⟩, ?_, ?_, ?_, List.forall_mem_cons.2 ⟨?_, ?_⟩⟩
  · intro b key hb
    by_cases heq : b = seat.action
    · rw [heq]
      exact hstarted
    · rw [Function.update_of_ne heq] at hb
      exact hkeeps.started b (h.started b key hb)
  · intro b hb
    by_cases heq : b = seat.action
    · subst heq
      exact ⟨_, List.mem_cons_self, rfl, Function.update_self ..⟩
    · rw [Function.update_of_ne heq]
      exact owned_withSlot _ (h.owned b (hor hb heq))
  · intro b hb
    by_cases heq : b = seat.action
    · exact ⟨v, heq ▸ hlog⟩
    · obtain ⟨u, hu⟩ := h.begun b (hor hb heq)
      exact ⟨u, hkeeps.begun _ hu⟩
  · show Function.update first seat.action (some seat.key) seat.action = some seat.key
    exact Function.update_self ..
  · intro s hm
    have hacc := h.accounted s (List.mem_cons_of_mem _ hm)
    by_cases heq : s.action = seat.action
    · -- Until now nobody had launched the action.
      unfold Accounted
      rw [hacc.idle (by rw [heq, hnone]), heq, Function.update_self]
      exact fun h => hother hm (Option.some.inj h).symm
    · exact hacc.mono (Function.update_of_ne heq _ _) (hkeeps.settled s.action)

theorem take (h : Ledger first (seat :: others) w) (ha : seat.isAwaited = true)
    (ho : Step.leafOutcome seat.slot seat.action w = some o) :
    Ledger first (seat.withSlot (.done o) :: others) w where
  nodup := h.nodup
  known := List.forall_mem_cons.2 ⟨h.known seat List.mem_cons_self, fun s hm =>
    h.known s (List.mem_cons_of_mem _ hm)⟩
  started := h.started
  owned a ha := owned_withSlot _ (h.owned a ha)
  begun := h.begun
  accounted := by
    refine List.forall_mem_cons.2 ⟨?_, fun s hm => h.accounted s (List.mem_cons_of_mem _ hm)⟩
    have hseat := h.accounted seat List.mem_cons_self
    unfold Accounted at hseat
    unfold isAwaited at ha
    cases hs : seat.slot with
    | idle | done =>
      rw [hs] at ha
      cases ha
    | waiting =>
      rw [hs] at hseat ho
      obtain ⟨s, hsett, ho⟩ := Option.map_eq_some_iff.1 ho
      exact .inl ⟨hseat, s, hsett, ho.symm⟩
    | refused e =>
      rw [hs] at hseat ho
      obtain ⟨rfl, hother⟩ := hseat
      cases ho
      exact .inr ⟨rfl, hother⟩

theorem passes (h : Ledger first seats w) (hw : w.BeginsNothing w') : Ledger first seats w' where
  nodup := h.nodup
  known seat hm := by
    obtain ⟨b, hb⟩ := Option.ne_none_iff_exists'.1 (h.known seat hm)
    rw [hw.same _ b hb]
    exact Option.some_ne_none b
  started a key hk := hw.same a true (h.started a key hk)
  owned a ha := h.owned a (hw.started a ha)
  begun a ha := by
    rw [hw.begun]
    exact h.begun a (hw.started a ha)
  accounted seat hm := (h.accounted seat hm).mono rfl (hw.settled _)

/-- Whatever happens to seats adds to the ledger at most. -/
theorem shifts (h : Ledger first seats w) (hs : Shifts (seats, w) (seats', w')) :
    ∃ first', Extends first first' ∧ Ledger first' seats' w' := by
  cases hs with
  | launches front back v _ hidle =>
    rename_i seat
    have hmiddle := h.perm List.perm_middle.symm
    by_cases hstarted : w.started? seat.action = some false
    · obtain ⟨htrue, -⟩ := World.beginAction_began v hstarted
      refine ⟨_, ?_, htrue ▸ (hmiddle.begins v hstarted).perm List.perm_middle⟩
      intro a key hkey
      have hne : a ≠ seat.action := by
        rintro rfl
        have := h.started _ key hkey
        rw [hstarted] at this
        cases this
      rwa [Function.update_of_ne hne]
    · have htrue : w.started? seat.action = some true := by
        obtain ⟨b, hb⟩ := Option.ne_none_iff_exists'.1 (hmiddle.known seat List.mem_cons_self)
        cases b with
        | true => exact hb
        | false => exact absurd hb hstarted
      rw [World.beginAction_refused v hstarted]
      exact ⟨first, .refl first, (hmiddle.refuse hidle htrue).perm List.perm_middle⟩
  | takes front back ha ho =>
    exact ⟨first, .refl first,
      ((h.perm List.perm_middle.symm).take ha ho).perm List.perm_middle⟩
  | passes _ hw => exact ⟨first, .refl first, h.passes hw⟩

theorem moves {r r' : List Seat × World} (h : Ledger first r.1 r.2) (hm : Moves r r') :
    ∃ first', Extends first first' ∧ Ledger first' r'.1 r'.2 := by
  induction hm with
  | refl => exact ⟨first, .refl first, h⟩
  | tail _ hs ih =>
    obtain ⟨first', hext, h'⟩ := ih
    obtain ⟨first'', hext', h''⟩ := h'.shifts hs
    exact ⟨first'', hext.trans hext', h''⟩

/-- Seats that are added have not been launched. -/
theorem append (h : Ledger first seats w) (hnodup : ((seats ++ added).map key).Nodup)
    (hadded : ∀ seat ∈ added, seat.slot = .idle ∧ w.started? seat.action ≠ none) :
    Ledger first (seats ++ added) w where
  nodup := hnodup
  known := List.forall_mem_append.2 ⟨h.known, fun seat hm => (hadded seat hm).2⟩
  started := h.started
  owned a ha := by
    obtain ⟨seat, hm, hseat⟩ := h.owned a ha
    exact ⟨seat, List.mem_append_left _ hm, hseat⟩
  begun := h.begun
  accounted := by
    refine List.forall_mem_append.2 ⟨h.accounted, fun seat hm => ?_⟩
    unfold Accounted
    rw [(hadded seat hm).1]
    intro hfirst
    obtain ⟨owner, hm', -, howner⟩ := h.owned _ (h.started _ _ hfirst)
    rw [List.map_append, List.nodup_append] at hnodup
    exact hnodup.2.2 _ (List.mem_map_of_mem hm') _ (List.mem_map_of_mem hm)
      (Option.some.inj (howner.symm.trans hfirst))

end Ledger

end Seat

namespace Engine

open Step Seat

variable {lead : ActionId → Prop} {e : Engine}
  {first : ActionId → Option (PlaylistId × List Nat)}

theorem Sound.ledger (h : Sound lead e) (hl : Ledger first e.seats e.world) (event : Event) :
    ∃ first', Extends first first' ∧
      Ledger first' (e.apply event).seats (e.apply event).world := by
  rcases h.apply_reseats event with hmoves | ⟨hw, added, hseats, hadded⟩
  · exact Ledger.moves (r := (e.seats, e.world)) hl hmoves
  · have hnodup := (e.apply event).nodup_seats
    rw [hseats] at hnodup ⊢
    exact ⟨first, .refl first, (hl.passes hw).append hnodup hadded⟩

/-- One ledger for all that has happened. -/
theorem exists_ledger (capacity : Nat) (history : List Event) : ∃ first,
    Ledger first ((ofCapacity capacity).after history).seats
        ((ofCapacity capacity).after history).world ∧
      ∀ earlier later, history = earlier ++ later → ∃ first', Extends first' first ∧
        Ledger first' ((ofCapacity capacity).after earlier).seats
          ((ofCapacity capacity).after earlier).world := by
  induction history using List.reverseRecOn with
  | nil =>
    have hempty : Ledger (fun _ => none) (ofCapacity capacity).seats (ofCapacity capacity).world :=
      ⟨List.nodup_nil, fun _ hm => (by cases hm), fun _ _ h => (by cases h),
        fun _ h => (by cases h), fun _ h => (by cases h), fun _ hm => (by cases hm)⟩
    refine ⟨fun _ => none, hempty, ?_⟩
    intro earlier later h
    obtain ⟨rfl, rfl⟩ := List.append_eq_nil_iff.1 h.symm
    exact ⟨_, .refl _, hempty⟩
  | append_singleton history event ih =>
    obtain ⟨first, hl, hearlier⟩ := ih
    obtain ⟨first', hext, hl'⟩ :=
      ((Sound.ofCapacity capacity).after history).1.ledger hl event
    rw [after_append]
    refine ⟨first', hl', ?_⟩
    intro earlier later h
    rcases List.eq_nil_or_concat later with rfl | ⟨later, last, rfl⟩
    · rw [List.append_nil] at h
      rw [← h, after_append]
      exact ⟨first', .refl _, hl'⟩
    · rw [List.concat_eq_append, ← List.append_assoc] at h
      obtain ⟨rfl, -⟩ := List.append_inj' h rfl
      obtain ⟨own, hown, hlown⟩ := hearlier earlier later rfl
      exact ⟨own, hown.trans hext, hlown⟩

end Engine

/-! ## The group around a refused leaf -/

/-- The failure of a step takes the group along as its kind says: a sequence fails with it, a group
that ends at the first failure fails if it sees one, and a group that waits for every branch fails
once it has the outcomes of all. -/
def Group.FailsByRule (w : World) (g : Group) (steps : List Step) (e : PlaylistError) : Prop :=
  match g.kind with
  | .sequence => g.stage = .finished (.error e)
  | .parallel _ .failFast => (∃ e, g.stage = .finished (.error e)) ↔ Step.Noticed w steps
  | .parallel _ .settleAll =>
    (∃ e, g.stage = .finished (.error e)) ↔ ∀ s ∈ steps, s.result? w ≠ none

namespace Step

variable {x : Scene} {place : List Nat} {index : Nat} {v : Json} {slot slot' : Slot} {g : Group}
  {steps : List Step} {a : ActionId} {e : PlaylistError}

theorem result?_of_refused (w : World) (h : slot = .refused e ∨ slot = .done (.error e)) :
    (leaf slot a).result? w = some (.error e) := by
  rcases h with rfl | rfl <;> rfl

/-- A sequence at rest has failed with the failure of a leaf that was refused. -/
theorem EnteredInOrder.fails_refused {o : Option Outcome}
    (h : EnteredInOrder x place index v o steps)
    (hquiet : o = none → ∀ s ∈ steps, s.isAwaited = true → s.Quiet x.world)
    (hm : leaf slot a ∈ steps) (hs : slot = .refused e ∨ slot = .done (.error e)) :
    o = some (.error e) := by
  have hfresh {rest : List Step} (hu : ∀ t ∈ rest, t.Untouched x) (hm : leaf slot a ∈ rest) :
      False := by
    have hidle : slot = .idle := (hu _ hm).1
    subst hidle
    rcases hs with hs | hs <;> cases hs
  induction steps generalizing index v with
  | nil => cases hm
  | cons s rest ih =>
    obtain ⟨hent, htied, hnext⟩ := h
    rcases List.mem_cons.1 hm with rfl | hm
    · rcases hs with rfl | rfl
      · have hnone := (hquiet hnext.1 _ List.mem_cons_self rfl).answer?_eq
        cases hnone
      · exact hnext.1
    · split at hnext
      · exact (hfresh hnext.2 hm).elim
      · exact (hfresh hnext.2 hm).elim
      · exact ih hnext (fun ho s hm => hquiet ho s (List.mem_cons_of_mem _ hm)) hm

/-- A group with a leaf that was refused never ends with a value. -/
theorem Entered.not_ok_of_refused (h : (Step.group slot' g steps).Entered x place v)
    (hm : leaf slot a ∈ steps) (hs : slot = .refused e ∨ slot = .done (.error e)) (u : Json) :
    g.stage ≠ .finished (.ok u) := by
  intro hok
  obtain ⟨-, -, u', -, -, htaken⟩ := h.all_taken hok _ hm
  rcases hs with rfl | rfl <;> cases htaken

/-- A group at rest with a leaf that was refused has failed by the rule of its kind. -/
theorem Entered.failsByRule (h : (Step.group slot' g steps).Entered x place v) (hrest : x.AtRest)
    (hm : leaf slot a ∈ steps) (hs : slot = .refused e ∨ slot = .done (.error e)) :
    g.FailsByRule x.world steps e := by
  have hr : g.Runs x place v steps _ _ := h
  have hfailed : (leaf slot a).Failed x.world := ⟨e, result?_of_refused x.world hs⟩
  unfold Group.FailsByRule
  cases hk : g.kind with
  | sequence =>
    exact finished_of_outcome? h
      ((hr.inOrder (hr.started hrest) hk).fails_refused (hr.quiet hrest) hm hs)
  | parallel keys policy =>
    cases policy with
    | failFast =>
      refine (h.failFast_iff hrest hk).trans ?_
      exact and_iff_right ⟨_, hm, hfailed⟩
    | settleAll =>
      constructor
      · rintro ⟨e', he⟩ s hs'
        have hrested := h.rested hrest hk
        have hverdict := (hrested.decided _ he).resolve_right fun hf => by
          have htracks : g.tracksWakes steps.length = true := by rw [Group.tracksWakes, hk]
          rw [htracks] at hf
          cases hf.1
        obtain ⟨o, ho⟩ := taken?_of_isDone ((Group.verdict_settleAll hk hverdict).1 s hs')
        rw [result?_of_taken? ho]
        exact Option.some_ne_none o
      · intro hall
        obtain ⟨⟨o, ho⟩, -⟩ := h.settleAll_iff hrest hk hall
        cases o with
        | error e' => exact ⟨e', ho⟩
        | ok u => exact absurd ho (h.not_ok_of_refused hm hs u)

end Step

/-! ## Histories -/

namespace Engine

open Step Seat

/-- How the leaves of an engine stand, where `first` says at which place each action was launched
first or will be. -/
structure FirstLaunches (first : ActionId → Option (PlaylistId × List Nat)) (e : Engine) :
    Prop where
  /-- What has begun was begun by the leaf that was launched first. -/
  begun : ∀ b ∈ e.world.begun, ∃ id place slot, first b.1 = some (id, place) ∧
    e.at? id place = some (.leaf slot b.1) ∧ slot ≠ .idle
  /-- The action of a leaf that was launched has begun. -/
  launched : ∀ id place slot a, e.at? id place = some (.leaf slot a) → slot ≠ .idle →
    ∃ v, (a, v) ∈ e.world.begun
  /-- The leaf that was launched first is pending or has the outcome of its action. -/
  owner : ∀ id place slot a, e.at? id place = some (.leaf slot a) → first a = some (id, place) →
    slot = .idle ∨ slot = .waiting ∨
      ∃ s, e.world.settlement? a = some s ∧ slot = .done (s.mapError .action)
  /-- Every other leaf that was launched was refused. -/
  others : ∀ id place slot a, e.at? id place = some (.leaf slot a) → slot ≠ .idle →
    first a ≠ some (id, place) → slot = .refused (.action .alreadyStarted) ∨
      slot = .done (.error (.action .alreadyStarted))

theorem firstLaunches_of_ledger {e : Engine}
    {own first : ActionId → Option (PlaylistId × List Nat)} (h : Ledger own e.seats e.world)
    (hlogged : e.world.Logged) (hext : Extends own first) : e.FirstLaunches first := by
  have seat {id : PlaylistId} {place : List Nat} {slot : Slot} {a : ActionId}
      (hat : e.at? id place = some (.leaf slot a)) :
      (⟨id, place, slot, a⟩ : Seat).Accounted own e.world :=
    h.accounted ⟨id, place, slot, a⟩ (mem_seats_iff.2 hat)
  have own_of {id : PlaylistId} {place : List Nat} {slot : Slot} {a : ActionId}
      (hat : e.at? id place = some (.leaf slot a)) (hs : slot ≠ .idle) :
      ∃ key, own a = some key := by
    exact Option.ne_none_iff_exists'.1 fun hnone => hs ((seat hat).idle hnone)
  refine ⟨?_, ?_, ?_, ?_⟩
  · intro b hb
    have hstarted := hlogged.started b hb
    obtain ⟨⟨id, place, slot, a⟩, hm, rfl, howner⟩ := h.owned b.1 hstarted
    refine ⟨id, place, slot, hext _ _ howner, mem_seats_iff.1 hm, ?_⟩
    rintro rfl
    exact h.accounted _ hm howner
  · intro id place slot a hat hs
    obtain ⟨key, hkey⟩ := own_of hat hs
    exact h.begun a (h.started a key hkey)
  · intro id place slot a hat hfirst
    have hseat := seat hat
    unfold Accounted at hseat
    cases slot with
    | idle => exact .inl rfl
    | waiting => exact .inr (.inl rfl)
    | refused e =>
      obtain ⟨-, key, hkey, hne⟩ := hseat
      exact absurd (Option.some.inj ((hext _ _ hkey).symm.trans hfirst)) hne
    | done o =>
      rcases hseat with ⟨-, s, hs, rfl⟩ | ⟨-, key, hkey, hne⟩
      · exact .inr (.inr ⟨s, hs, rfl⟩)
      · exact absurd (Option.some.inj ((hext _ _ hkey).symm.trans hfirst)) hne
  · intro id place slot a hat hs hfirst
    have hseat := seat hat
    unfold Accounted at hseat
    cases slot with
    | idle => exact absurd rfl hs
    | waiting => exact absurd (hext _ _ hseat) hfirst
    | refused e => exact .inl (by rw [hseat.1])
    | done o =>
      rcases hseat with ⟨hown, -⟩ | ⟨rfl, -⟩
      · exact absurd (hext _ _ hown) hfirst
      · exact .inr rfl

/-- The group around a leaf that was refused. -/
theorem Sound.refused_group {e : Engine} (h : Sound (fun _ => False) e) {id : PlaylistId}
    {place : List Nat} {slot slot' : Slot} {g : Group} {steps : List Step} {a : ActionId}
    {err : PlaylistError} (hat : e.at? id place = some (.group slot' g steps))
    (hm : leaf slot a ∈ steps) (hs : slot = .refused err ∨ slot = .done (.error err)) :
    (∀ u, g.stage ≠ .finished (.ok u)) ∧ (e.Quiescent → g.FailsByRule e.world steps err) := by
  obtain ⟨p, hp, hat⟩ := Option.bind_eq_some_iff.1 hat
  have hknown := (h.known id p hp).2.at? hat
  obtain ⟨v, hent⟩ := hknown.entered_of_child hm fun hfresh => by
    have hidle : slot = .idle := hfresh
    subst hidle
    rcases hs with hs | hs <;> cases hs
  exact ⟨hent.not_ok_of_refused hm hs, fun hquiet =>
    hent.failsByRule (h.atRest hquiet id) hm hs⟩

/-- Every action is begun at most once.  The leaf that is launched first has the outcome of its
action, whose input and settlement nobody alters; every other leaf that is launched is refused at
once, which changes nothing in the world and fails the group around it. -/
theorem firstLaunch_spec (capacity : Nat) (history : List Event) :
    (((ofCapacity capacity).after history).world.begun.map Prod.fst).Nodup ∧
    (∀ (w : World) (site : Site) (input : Json) (slot : Slot) (a : ActionId),
      w.started? a = some true → (leaf slot a).launch site input w =
        (leaf (.refused (.action .alreadyStarted)) a, w)) ∧
    ∃ first : ActionId → Option (PlaylistId × List Nat),
      ∀ earlier later, history = earlier ++ later →
        ((ofCapacity capacity).after earlier).FirstLaunches first ∧
        (∀ b ∈ ((ofCapacity capacity).after earlier).world.begun,
          b ∈ ((ofCapacity capacity).after history).world.begun) ∧
        (∀ a s, ((ofCapacity capacity).after earlier).world.settlement? a = some s →
          ((ofCapacity capacity).after history).world.settlement? a = some s) ∧
        ∀ id place slot g steps (i : Nat) slot' a,
          ((ofCapacity capacity).after earlier).at? id place = some (.group slot g steps) →
          steps[i]? = some (.leaf slot' a) → slot' ≠ .idle → first a ≠ some (id, place ++ [i]) →
          (∀ u, g.stage ≠ .finished (.ok u)) ∧
            (((ofCapacity capacity).after earlier).Quiescent →
              g.FailsByRule ((ofCapacity capacity).after earlier).world steps
                (.action .alreadyStarted)) := by
  have hsound (history : List Event) :
      Sound (fun _ => False) ((ofCapacity capacity).after history) :=
    ((Sound.ofCapacity capacity).after history).1
  refine ⟨(hsound history).logged.once, ?_, ?_⟩
  · intro w site input slot a hs
    have hrefused := World.beginAction_refused (w := w) (a := a) input (by rw [hs]; simp)
    simp only [launch, hrefused]
    rfl
  obtain ⟨first, -, hearlier⟩ := exists_ledger capacity history
  refine ⟨first, ?_⟩
  intro earlier later hhistory
  obtain ⟨own, hext, hledger⟩ := hearlier earlier later hhistory
  have hfirst := firstLaunches_of_ledger hledger (hsound earlier).logged hext
  refine ⟨hfirst, ?_, ?_, ?_⟩
  · rw [hhistory, after_append]
    exact (hsound earlier).after_begun later
  · rw [hhistory, after_append]
    exact ((hsound earlier).after later).2.settled
  · intro id place slot g steps i slot' a hat hi hs hne
    have hleaf : ((ofCapacity capacity).after earlier).at? id (place ++ [i]) =
        some (.leaf slot' a) := by
      obtain ⟨p, hp, hat⟩ := Option.bind_eq_some_iff.1 hat
      rw [at?, hp]
      exact at?_child hat hi
    exact (hsound earlier).refused_group hat (List.mem_of_getElem? hi)
      (hfirst.others id (place ++ [i]) slot' a hleaf hs hne)

/-- An action in two playlists, which are both played; in the second one it stands beside another
action. -/
def sharedTwice : List Event :=
  [.build .inert, .build .inert, .compile ⟨.empty, .default⟩ (.sequence [.instance 0]),
    .compile ⟨.empty, .default⟩ (.parallel [("a", .instance 0), ("b", .instance 1)]),
    .play 0 .null true, .play 1 .null true, .run .arrivals 0, .run .arrivals 0]

/-- The first playlist has begun the action and awaits it; the second has failed. -/
theorem firstLaunch_spec_sharedTwice : ∃ first : ActionId → Option (PlaylistId × List Nat),
    ((ofCapacity 1).after sharedTwice).FirstLaunches first ∧ first 0 = some (0, [0]) ∧
      ∃ slot g steps, ((ofCapacity 1).after sharedTwice).at? 1 [] = some (.group slot g steps) ∧
        ∃ err, g.stage = .finished (.error err) := by
  obtain ⟨-, -, first, h⟩ := firstLaunch_spec 1 sharedTwice
  obtain ⟨hfirst, -, -, hgroup⟩ := h sharedTwice [] (List.append_nil _).symm
  have howner : ((ofCapacity 1).after sharedTwice).at? 0 [0] = some (.leaf .waiting 0) := rfl
  have hzero : first 0 = some (0, [0]) := by
    by_contra hne
    rcases hfirst.others 0 [0] _ 0 howner (fun h => by cases h) hne with h | h <;> cases h
  refine ⟨first, hfirst, hzero, _, _, _, rfl, ?_⟩
  have hfails := (hgroup 1 [] _ _ _ 0 _ 0 rfl rfl (fun h => by cases h)
    (by rw [hzero]; decide)).2 (by decide +kernel)
  exact hfails.2 (.inl (by decide))

end Engine

end Rundown
