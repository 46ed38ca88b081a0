import Rundown.Playlist.Wake
import Rundown.Proofs.Playlist.Acts
import Rundown.Proofs.World.Settling

/-!
# The leaves of a playlist as seats

`Step.seats` lists the leaves of a step with the places where they stand.  Whatever tree they belong
to, only three things happen to them (`Seat.Shifts`): one that was idle begins or is refused, the
outcome of one that is awaited is taken, or the world goes on without them.  Looks
(`Step.pollWithin_moves`, `Step.pollPlace_moves`) and wakes (`Step.wake_seats`) are made of these,
so facts about actions that several leaves share need not mention groups at all.
-/

namespace Rundown

/-- A leaf of a playlist: where it stands, how the group around it sees it, and its action. -/
structure Seat where
  playlist : PlaylistId
  place : List Nat
  slot : Slot
  action : ActionId

/-- Where a seat is. -/
def Seat.key (seat : Seat) : PlaylistId × List Nat := (seat.playlist, seat.place)

namespace Step

mutual

/-- The leaves of the step at `place`, from left to right. -/
def seats (id : PlaylistId) : List Nat → Step → List Seat
  | place, leaf slot a => [⟨id, place, slot, a⟩]
  | place, .group _ _ steps => seatsList id place 0 steps

/-- The leaves of the steps of the group at `place`, from the one with the given index on. -/
def seatsList (id : PlaylistId) : List Nat → Nat → List Step → List Seat
  | _, _, [] => []
  | place, index, s :: rest => seats id (place ++ [index]) s ++ seatsList id place (index + 1) rest

end

variable {id : PlaylistId} {place : List Nat} {index : Nat} {s s' : Step} {steps : List Step}
  {seat : Seat}

@[simp] theorem seats_group (slot : Slot) (g : Group) (steps : List Step) :
    (group slot g steps).seats id place = seatsList id place 0 steps := rfl

theorem mem_seatsList_of (h : ∀ s ∈ steps, ∀ {place : List Nat}, seat ∈ s.seats id place ↔
      seat.playlist = id ∧ ∃ below, seat.place = place ++ below ∧
        s.at? below = some (.leaf seat.slot seat.action)) :
    seat ∈ seatsList id place index steps ↔
      seat.playlist = id ∧ ∃ i below, seat.place = place ++ (index + i) :: below ∧
        steps[i]?.bind (at? below) = some (.leaf seat.slot seat.action) := by
  induction steps generalizing index with
  | nil => simp [seatsList]
  | cons s rest ih =>
    rw [List.forall_mem_cons] at h
    rw [seatsList, List.mem_append, h.1, ih h.2, ← and_or_left]
    refine and_congr_right fun _ => ?_
    constructor
    · rintro (⟨below, hplace, hat⟩ | ⟨i, below, hplace, hat⟩)
      · exact ⟨0, below, by rw [hplace, List.append_assoc]; rfl, hat⟩
      · exact ⟨i + 1, below, by rw [hplace, Nat.add_right_comm, Nat.add_assoc], hat⟩
    · rintro ⟨i, below, hplace, hat⟩
      cases i with
      | zero => exact .inl ⟨below, by rw [hplace, List.append_assoc]; rfl, hat⟩
      | succ i => exact .inr ⟨i, below, by rw [hplace, Nat.add_right_comm, Nat.add_assoc], hat⟩

/-- The seats are the leaves that are reached by some place. -/
theorem mem_seats : seat ∈ s.seats id place ↔ seat.playlist = id ∧
    ∃ below, seat.place = place ++ below ∧ s.at? below = some (.leaf seat.slot seat.action) := by
  induction s using induction generalizing place with
  | leaf slot a =>
    simp only [seats, List.mem_singleton]
    constructor
    · rintro rfl
      exact ⟨rfl, [], (List.append_nil _).symm, rfl⟩
    · rintro ⟨hid, below, hplace, hat⟩
      cases below with
      | cons => cases hat
      | nil =>
        obtain ⟨playlist, place', slot', b⟩ := seat
        obtain ⟨rfl, rfl⟩ := Step.leaf.inj (Option.some.inj hat)
        obtain rfl : playlist = id := hid
        obtain rfl : place' = place := hplace.trans (List.append_nil place)
        rfl
  | group slot g steps ih =>
    rw [seats_group, mem_seatsList_of fun s hm _ => ih s hm]
    refine and_congr_right fun _ => ?_
    constructor
    · rintro ⟨i, below, hplace, hat⟩
      exact ⟨i :: below, by rw [hplace, Nat.zero_add], hat⟩
    · rintro ⟨below, hplace, hat⟩
      cases below with
      | nil => cases hat
      | cons i below => exact ⟨i, below, by rw [hplace, Nat.zero_add], hat⟩

theorem mem_seatsList : seat ∈ seatsList id place index steps ↔
    seat.playlist = id ∧ ∃ i below, seat.place = place ++ (index + i) :: below ∧
      steps[i]?.bind (at? below) = some (.leaf seat.slot seat.action) :=
  mem_seatsList_of fun _ _ _ => mem_seats

/-- No place is listed twice. -/
theorem nodup_seatsList_of
    (h : ∀ s ∈ steps, ∀ {place : List Nat}, ((s.seats id place).map Seat.key).Nodup) :
    ((seatsList id place index steps).map Seat.key).Nodup := by
  induction steps generalizing index with
  | nil => exact List.nodup_nil
  | cons s rest ih =>
    rw [List.forall_mem_cons] at h
    rw [seatsList, List.map_append, List.nodup_append]
    refine ⟨h.1, ih h.2, ?_⟩
    rintro key hkey _ hkey' rfl
    obtain ⟨seat, hm, rfl⟩ := List.mem_map.1 hkey
    obtain ⟨seat', hm', heq⟩ := List.mem_map.1 hkey'
    obtain ⟨-, below, hplace, -⟩ := mem_seats.1 hm
    obtain ⟨-, i, below', hplace', -⟩ := mem_seatsList.1 hm'
    have hsame : seat'.place = seat.place := congrArg Prod.snd heq
    rw [hplace, hplace', List.append_assoc, List.append_cancel_left_eq] at hsame
    have := (List.cons.inj hsame).1
    omega

theorem nodup_seats (id : PlaylistId) (place : List Nat) (s : Step) :
    ((s.seats id place).map Seat.key).Nodup := by
  induction s using induction generalizing place with
  | leaf slot a => exact List.nodup_singleton _
  | group slot g steps ih => exact nodup_seatsList_of fun s hm _ => ih s hm _

/-- One step of a group and the others around it. -/
theorem exists_seatsList_set (id : PlaylistId) (place : List Nat) (index : Nat) {i : Nat}
    (hi : steps[i]? = some s) : ∃ front back,
      seatsList id place index steps = front ++ s.seats id (place ++ [index + i]) ++ back ∧
      ∀ s' : Step, seatsList id place index (steps.set i s') =
        front ++ s'.seats id (place ++ [index + i]) ++ back := by
  induction steps generalizing index i with
  | nil => cases hi
  | cons t rest ih =>
    cases i with
    | zero =>
      cases hi
      exact ⟨[], seatsList id place (index + 1) rest, rfl, fun _ => rfl⟩
    | succ i =>
      obtain ⟨front, back, heq, hset⟩ := ih (index + 1) hi
      rw [Nat.add_right_comm, Nat.add_assoc] at heq hset
      refine ⟨t.seats id (place ++ [index]) ++ front, back, ?_, fun s' => ?_⟩
      · simp only [seatsList, heq, List.append_assoc]
      · simp only [List.set_cons_succ, seatsList, hset, List.append_assoc]

@[simp] theorem seats_forgotten (id : PlaylistId) (place : List Nat) (s : Step) :
    s.forgotten.seats id place = s.seats id place := by
  cases s <;> rfl

theorem seatsList_forgotten (id : PlaylistId) (place : List Nat) (steps : List Step) :
    seatsList id place index (steps.map forgotten) = seatsList id place index steps := by
  induction steps generalizing index with
  | nil => rfl
  | cons s rest ih => rw [List.map_cons, seatsList, seatsList, ih, seats_forgotten]

mutual

/-- A wake does not concern the leaves. -/
theorem wake_seats (a : ActionId) (id : PlaylistId) (site : Site) :
    ∀ (s : Step) (w : World) (place : List Nat),
      (s.wake a site w).1.seats id place = s.seats id place
  | leaf slot b, w, place => rfl
  | .group slot g steps, w, place => by
    unfold wake
    exact wakeList_seats a id (site.child (g.wakes site.above site.task)) steps.length 0 g steps w
      place

theorem wakeList_seats (a : ActionId) (id : PlaylistId) (site : Nat → Site) (width : Nat) :
    ∀ (index : Nat) (g : Group) (steps : List Step) (w : World) (place : List Nat),
      seatsList id place index (wakeList a site width index g steps w).2.1 =
        seatsList id place index steps
  | _, g, [], w, place => rfl
  | index, g, s :: rest, w, place => by
    unfold wakeList
    dsimp only
    rw [seatsList, seatsList, wake_seats, wakeList_seats]

end

end Step

/-! ## Shifts -/

/-- `w'` follows `w`, and nothing was begun meanwhile. -/
structure World.BeginsNothing (w w' : World) : Prop where
  begun : w'.begun = w.begun
  same : ∀ a b, w.started? a = some b → w'.started? a = some b
  started : ∀ a, w'.started? a = some true → w.started? a = some true
  settled : ∀ a s, w.settlement? a = some s → w'.settlement? a = some s

namespace World.BeginsNothing

variable {w w' w'' : World}

theorem refl (w : World) : BeginsNothing w w :=
  ⟨rfl, fun _ _ h => h, fun _ h => h, fun _ _ h => h⟩

/-- A change of anything but the instances and the log. -/
theorem of_same (hi : w'.instances = w.instances) (hb : w'.begun = w.begun) :
    BeginsNothing w w' where
  begun := hb
  same a b h := by rwa [started?, hi]
  started a h := by rwa [started?, hi] at h
  settled a s h := by rwa [settlement?, hi]

theorem of_settles {answer : Option ActionId} (h : Settles answer w w') : BeginsNothing w w' :=
  ⟨h.log, fun a _ hs => (h.started a).trans hs, fun a hs => (h.started a).symm.trans hs,
    h.keeps.settled⟩

theorem schedule (w : World) (t : Task) : BeginsNothing w (w.schedule t) :=
  .of_same (schedule_instances w t) (schedule_begun w t)

end World.BeginsNothing

/-- How the group around a leaf sees it when it has launched it: the leaf is refused unless its
action has begun. -/
def Slot.launched (begun : Bool) : Slot :=
  if begun then .waiting else .refused (.action .alreadyStarted)

namespace Seat

/-- The seat with another slot. -/
def withSlot (slot : Slot) (seat : Seat) : Seat := { seat with slot := slot }

/-- Whether the group around the leaf awaits it. -/
def isAwaited (seat : Seat) : Bool :=
  match seat.slot with
  | .waiting | .refused _ => true
  | _ => false

/-- One thing that happens to seats in a world. -/
inductive Shifts : List Seat × World → List Seat × World → Prop
  /-- A leaf is launched. -/
  | launches (front back : List Seat) {seat : Seat} (v : Json) (w : World) : seat.slot = .idle →
      Shifts (front ++ seat :: back, w)
        (front ++ seat.withSlot (.launched (w.beginAction seat.action v).2) :: back,
          (w.beginAction seat.action v).1)
  /-- The outcome of a leaf is taken. -/
  | takes (front back : List Seat) {seat : Seat} {w : World} {o : Outcome} :
      seat.isAwaited = true → Step.leafOutcome seat.slot seat.action w = some o →
      Shifts (front ++ seat :: back, w) (front ++ seat.withSlot (.done o) :: back, w)
  /-- Something happens elsewhere in the world. -/
  | passes (seats : List Seat) {w w' : World} : w.BeginsNothing w' → Shifts (seats, w) (seats, w')

/-- Any number of shifts. -/
abbrev Moves : List Seat × World → List Seat × World → Prop := Relation.ReflTransGen Shifts

variable {seats seats' : List Seat} {w w' : World}

/-- What happens to some of the seats happens among all. -/
theorem Shifts.inside (h : Shifts (seats, w) (seats', w')) (front back : List Seat) :
    Shifts (front ++ seats ++ back, w) (front ++ seats' ++ back, w') := by
  cases h with
  | launches front' back' v _ hs =>
    have := Shifts.launches (front ++ front') (back' ++ back) v w hs
    simpa only [List.append_assoc, List.cons_append] using this
  | takes front' back' ha ho =>
    have := Shifts.takes (front ++ front') (back' ++ back) ha ho
    simpa only [List.append_assoc, List.cons_append] using this
  | passes _ hp => exact .passes _ hp

theorem Moves.inside (h : Moves (seats, w) (seats', w')) (front back : List Seat) :
    Moves (front ++ seats ++ back, w) (front ++ seats' ++ back, w') :=
  h.lift (fun r => (front ++ r.1 ++ back, r.2)) fun _ _ hs => hs.inside front back

theorem Moves.begun {r r' : List Seat × World} (h : Moves r r') :
    ∀ b ∈ r.2.begun, b ∈ r'.2.begun := by
  induction h with
  | refl => exact fun _ hb => hb
  | tail _ hs ih =>
    intro b hb
    cases hs with
    | launches _ _ v w => exact (w.beginAction_keeps _ v).begun b (ih b hb)
    | takes => exact ih b hb
    | passes _ hw => exact hw.begun ▸ ih b hb

theorem Moves.of_passes (h : w.BeginsNothing w') : Moves (seats, w) (seats, w') :=
  .single (.passes seats h)

end Seat

/-! ## Looks -/

namespace Step

open Seat

variable {s : Step} {steps : List Step} {w : World} {height : Nat}

theorem launch_moves (id : PlaylistId) (place : List Nat) (site : Site) (v : Json) (w : World)
    (h : s.Fresh) :
    Moves (s.seats id place, w) ((s.launch site v w).1.seats id place, (s.launch site v w).2) := by
  cases s with
  | leaf slot a =>
    exact .single (.launches [] [] v w (show Seat.slot ⟨id, place, slot, a⟩ = .idle from h))
  | group slot g steps =>
    obtain ⟨-, hstage, -⟩ := h
    simp only [launch, hstage]
    exact .of_passes (.schedule w _)

theorem take_moves (id : PlaylistId) (place : List Nat) {o : Outcome} (ha : s.isAwaited = true)
    (ho : s.answer? w = some o) :
    Moves (s.seats id place, w) ((s.withSlot (.done o)).seats id place, w) := by
  cases s with
  | leaf slot a =>
    exact .single (.takes [] [] (show Seat.isAwaited ⟨id, place, slot, a⟩ = true from ha) ho)
  | group => exact .refl

/-- What happens to the leaves of one step of a group. -/
theorem moves_set (id : PlaylistId) (place : List Nat) {i : Nat} {s' : Step} {w' : World}
    (hi : steps[i]? = some s)
    (h : Moves (s.seats id (place ++ [i]), w) (s'.seats id (place ++ [i]), w')) :
    Moves (seatsList id place 0 steps, w) (seatsList id place 0 (steps.set i s'), w') := by
  obtain ⟨front, back, heq, hset⟩ := exists_seatsList_set id place 0 hi
  rw [heq, hset, Nat.zero_add]
  exact h.inside front back

theorem lookBelow_moves {id : PlaylistId} {place : List Nat} {i : Nat} (site : Site)
    (tasks : List Task)
    (h : Moves (s.seats id place, w)
      ((pollWithin height (site.child tasks i) (some .parent) s w).step.seats id place,
        (pollWithin height (site.child tasks i) (some .parent) s w).world)) :
    Moves (s.seats id place, w) ((lookBelow height site tasks i s w).step.seats id place,
      (lookBelow height site tasks i s w).world) := by
  unfold lookBelow
  split
  · exact .refl
  · exact h

theorem pollWithin_moves (id : PlaylistId) (place : List Nat) (site : Site)
    (waiter : Option Waiter) (w : World) (h : s.Arrayed) (hheight : s.height ≤ height) :
    Moves (s.seats id place, w) ((pollWithin height site waiter s w).step.seats id place,
      (pollWithin height site waiter s w).world) := by
  induction height generalizing s place site waiter w with
  | zero => exact .refl
  | succ height ih =>
    cases s with
    | leaf slot a => exact .refl
    | group slot g steps =>
      obtain ⟨tasks, g', steps', hhandles⟩ :=
        pollWithin_acts site waiter w h (Nat.le_of_succ_le_succ hheight)
      rw [hhandles.step, seats_group, seats_group]
      refine (hhandles.worked.works.lift'
        (fun r : List Step × World => (seatsList id place 0 r.1, r.2)) ?_)
      intro r r' hacts
      cases hacts with
      | launches v w hi hfresh => exact moves_set id place hi (launch_moves id _ _ v w hfresh)
      | looks w hi hheight harrayed hs ha =>
        exact moves_set id place hi (lookBelow_moves site tasks (ih _ _ _ w harrayed hheight))
      | takes hi ha ho => exact moves_set id place hi (take_moves id _ ha ho)
      | forgets steps w =>
        show Moves (seatsList id place 0 steps, w) (seatsList id place 0 (steps.map forgotten), w)
        rw [seatsList_forgotten]
      | wakes steps w t => exact Moves.of_passes (.schedule w t)

theorem pollPlace_moves (id : PlaylistId) (place below : List Nat) (site : Site) (w : World)
    (h : s.Arrayed) :
    Moves (s.seats id place, w)
      ((s.pollPlace below site w).step.seats id place, (s.pollPlace below site w).world) := by
  induction below generalizing s place site with
  | nil => exact pollWithin_moves id place site _ w h (Nat.le_refl _)
  | cons i below ih =>
    cases s with
    | leaf => exact .refl
    | group slot g steps =>
      unfold pollPlace
      split
      · exact .refl
      next t hi =>
        exact moves_set id place hi
          (ih _ _ ((arrayed_group.1 h).2 t (List.mem_of_getElem? hi)))

end Step

end Rundown
