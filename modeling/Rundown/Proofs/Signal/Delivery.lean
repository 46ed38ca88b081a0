import Mathlib.Data.List.DropRight
import Mathlib.Order.Bounds.Basic
import Rundown.Proofs.Signal.History

/-!
# What every receiver gets

Whatever else happens on the bus, a live receiver has a queue of its own: signals of its name come
in, the last ones are kept, and it takes the oldest one (`Mailbox.follow`).  `Bus.delivery_spec`
says this, and that sending counts the live receivers of the name.

The mailboxes of the bus are compared with such queues operation by operation, so the inductions are
on the history, from its end.
-/

namespace Rundown

/-! ## The queue of one receiver -/

namespace Mailbox

variable {retention : Nat} {name : String} {r : ReceiverId} {s : Signal} {m : Mailbox}
  {ops later : List Bus.Op} {op : Bus.Op}

/-- Puts a signal behind the unread ones and keeps the last of them. -/
def keep (retention : Nat) (s : Signal) (m : Mailbox) : Mailbox :=
  ⟨(m.unread ++ [s]).rtake retention, m.missed + (m.unread.length + 1 - retention)⟩

/-- Takes the oldest unread signal, or the report of what has been lost before it. -/
def read (m : Mailbox) : Mailbox × Received :=
  if m.missed ≠ 0 then ({ m with missed := 0 }, .lagged m.missed)
  else
    match m.unread with
    | s :: rest => ({ m with unread := rest }, .signal s)
    | [] => (m, .empty)

/-- What an operation means to a receiver of the name. -/
def step (retention : Nat) (name : String) (r : ReceiverId) (m : Mailbox) : Bus.Op → Mailbox
  | .emit s => if s.name = name then m.keep retention s else m
  | .receive r' => if r' = r then m.read.1 else m
  | _ => m

/-- The queue of a receiver of the name after the operations since its subscription. -/
def follow (retention : Nat) (name : String) (r : ReceiverId) (later : List Bus.Op) : Mailbox :=
  later.foldl (step retention name r) ⟨[], 0⟩

theorem follow_concat : follow retention name r (later ++ [op]) =
    (follow retention name r later).step retention name r op := by
  unfold follow
  rw [List.foldl_append]
  rfl

theorem push_eq_keep (hretention : 1 ≤ retention) (h : m.unread.length ≤ retention) :
    m.push retention s = m.keep retention s := by
  unfold push keep List.rtake
  rw [List.length_append, List.length_singleton]
  split
  next hlt =>
    have hdrop : m.unread.length + 1 - retention = 0 := by omega
    rw [hdrop, List.drop_zero, Nat.add_zero]
  next hge =>
    have hdrop : m.unread.length + 1 - retention = 1 := by omega
    rw [hdrop, List.drop_append_of_le_length (by omega)]

theorem keep_length : (m.keep retention s).unread.length ≤ retention := by
  unfold keep List.rtake
  rw [List.length_drop]
  omega

theorem read_length : m.read.1.unread.length ≤ m.unread.length := by
  unfold read
  split
  · exact Nat.le_refl _
  · split
    next hunread =>
      rw [hunread, List.length_cons]
      exact Nat.le_succ _
    next => exact Nat.le_refl _

theorem follow_length : (follow retention name r later).unread.length ≤ retention := by
  induction later using List.reverseRecOn with
  | nil => exact Nat.zero_le _
  | append_singleton later op ih =>
    rw [follow_concat]
    unfold step
    split
    · split
      · exact keep_length
      · exact ih
    · split
      · exact read_length.trans ih
      · exact ih
    · exact ih

theorem read_ne_closed : m.read.2 ≠ .closed := by
  unfold read
  split
  · nofun
  · split <;> nofun

end Mailbox

namespace Bus

variable {b b' : Bus} {c : Nat} {ops later : List Op} {op : Op} {s : Signal} {r r' : ReceiverId}
  {name name' : String} {m : Mailbox}

/-! ## How many signals are kept -/

open private Nat.nextPowerOfTwo.go from Init.Data.Nat.Power2.Basic in
/-- Doubling a power of two leads to the first one that is not below `n`, if none was passed
before. -/
theorem nextPowerOfTwo_go {n power : Nat} (hpower : power > 0) : power.isPowerOfTwo →
    (∀ p, p.isPowerOfTwo → n ≤ p → power ≤ p) →
    n ≤ Nat.nextPowerOfTwo.go n power hpower ∧
      ∀ p, p.isPowerOfTwo → n ≤ p → Nat.nextPowerOfTwo.go n power hpower ≤ p := by
  fun_induction Nat.nextPowerOfTwo.go with
  | case1 power hpower hlt ih =>
    intro hpow _
    refine ih (Nat.isPowerOfTwo_mul_two_of_isPowerOfTwo hpow) ?_
    obtain ⟨j, rfl⟩ := hpow
    rintro _ ⟨k, rfl⟩ hn
    have hnext : j < k := (Nat.pow_lt_pow_iff_right (by decide)).1 (Nat.lt_of_lt_of_le hlt hn)
    rw [← Nat.pow_succ]
    exact Nat.pow_le_pow_right (by decide) hnext
  | case2 power hpower hge =>
    intro _ hleast
    exact ⟨Nat.not_lt.1 hge, hleast⟩

/-- A mailbox keeps the least power of two that is not below the capacity. -/
theorem retention_isLeast (b : Bus) :
    IsLeast {n | n.isPowerOfTwo ∧ b.capacity ≤ n} b.retention := by
  obtain ⟨hle, hleast⟩ := @nextPowerOfTwo_go b.capacity 1 (by decide) Nat.isPowerOfTwo_one
    fun p hp _ => Nat.pos_of_isPowerOfTwo hp
  exact ⟨⟨Nat.isPowerOfTwo_nextPowerOfTwo _, hle⟩, fun p hp => hleast p hp.1 hp.2⟩

/-- A capacity above one power of two and not above the next one rounds up to the next one. -/
theorem isLeast_powerOfTwo {p n : Nat} (hp : p.isPowerOfTwo) (hlt : p < n) (hle : n ≤ p * 2) :
    IsLeast {m : Nat | m.isPowerOfTwo ∧ n ≤ m} (p * 2) := by
  refine ⟨⟨Nat.isPowerOfTwo_mul_two_of_isPowerOfTwo hp, hle⟩, ?_⟩
  obtain ⟨k, rfl⟩ := hp
  rintro _ ⟨⟨j, rfl⟩, hj⟩
  have hkj : k < j := (Nat.pow_lt_pow_iff_right (by decide)).1 (Nat.lt_of_lt_of_le hlt hj)
  rw [← Nat.pow_succ]
  exact Nat.pow_le_pow_right (by decide) hkj

theorem one_le_retention (b : Bus) : 1 ≤ b.retention :=
  Nat.pos_of_isPowerOfTwo b.retention_isLeast.1.1

/-! ## Operation by operation -/

/-- The unread signals of a receiver. -/
def unread (b : Bus) (r : ReceiverId) : List Signal := ((b.mailbox? r).map Mailbox.unread).getD []

theorem receive_none (h : b.mailbox? r = none) : b.receive r = (b, .closed) := by
  unfold receive
  rw [show b.mailboxes.lookup r = none from h]

/-- A receiver reads its mailbox. -/
theorem receive_mailbox (h : b.mailbox? r = some m) :
    (b.receive r).1.mailbox? r = some m.read.1 := by
  unfold Mailbox.read
  by_cases hmissed : m.missed = 0
  · rw [receive_eq h hmissed, if_neg (not_not.2 hmissed)]
    cases m.unread with
    | nil => exact h
    | cons s rest =>
      rw [mailbox?_setMailbox, if_pos rfl, h]
      rfl
  · rw [receive_lagged h hmissed, if_pos hmissed, mailbox?_setMailbox, if_pos rfl, h]
    rfl

/-- While it is joined, what it gets is what its mailbox has. -/
theorem receive_answer (h : b.mailbox? r = some m) (hjoined : b.Joined name r) :
    (b.receive r).2 = m.read.2 := by
  unfold Mailbox.read
  by_cases hmissed : m.missed = 0
  · rw [receive_eq h hmissed, if_neg (not_not.2 hmissed)]
    cases m.unread with
    | nil => exact if_pos (attached_iff.2 ⟨name, hjoined⟩)
    | cons s rest => rfl
  · rw [receive_lagged h hmissed, if_pos hmissed]

/-- What is read was the oldest of the unread signals. -/
theorem receive_unread (b : Bus) (r : ReceiverId) :
    (b.read? r (.receive r)).toList ++ (b.receive r).1.unread r = b.unread r := by
  unfold unread
  rw [read?, if_pos rfl]
  cases hm : b.mailbox? r with
  | none =>
    rw [receive_none hm, hm]
    rfl
  | some m =>
    rw [receive_mailbox hm]
    by_cases hmissed : m.missed = 0
    · rw [receive_eq hm hmissed, Mailbox.read, if_neg (not_not.2 hmissed)]
      cases hunread : m.unread with
      | nil => cases b.attached r <;> rfl
      | cons s rest => exact hunread.symm
    · rw [receive_lagged hm hmissed, Mailbox.read, if_pos hmissed]
      rfl

theorem unread_of_mailbox? (h : b'.mailbox? r = b.mailbox? r) : b'.unread r = b.unread r := by
  unfold unread
  rw [h]

/-- Sending puts the signal behind the unread ones, if the receiver is joined, and drops from the
front. -/
theorem unread_emit : ((b.emit s).1.unread r).Sublist
    (b.unread r ++ if r ∈ b.membersOf s.name then [s] else []) := by
  unfold unread
  rw [mailbox?_emit]
  cases b.mailbox? r with
  | none => exact List.nil_sublist _
  | some m =>
    simp only [Option.map_some, Option.getD_some]
    split
    · unfold Mailbox.push
      split
      · exact .refl _
      · exact (List.drop_sublist _ _).append_right _
    · exact List.sublist_append_left _ _

section

variable (hc : 1 ≤ c)

include hc

/-- The receivers of a name in the bus are the live ones. -/
theorem mem_membersOf_after : r ∈ (after c ops).membersOf name ↔ Live c ops name r :=
  (mem_membersOf (faithful hc ops).tidy).trans ((faithful hc ops).joined name r)

/-- A receiver gets no signals but those of the name that it was obtained for. -/
theorem name_of_member (h : Obtained c ops name r later)
    (hmem : r ∈ (after c ops).membersOf name') : name' = name := by
  obtain ⟨later', hobtained, -⟩ := (mem_membersOf_after hc).1 hmem
  exact (obtained_unique hc hobtained h).1

/-- What a receiver reads in one operation and what it has not read afterwards is what it had not
read before and what has been sent. -/
theorem read_unread_step (h : Obtained c ops name r later) :
    (((after c ops).read? r op).toList ++ ((after c ops).step op).unread r).Sublist
      ((after c ops).unread r ++ sent name [op]) := by
  have hfaithful := faithful hc ops
  cases op with
  | subscribe name' =>
    have hne := Nat.ne_of_lt (hfaithful.known name r later h)
    have hsame := (hfaithful.subscribed hc name').2.1.others r hne
    exact unread_of_mailbox? hsame ▸ List.sublist_append_left _ _
  | emit s =>
    refine unread_emit.trans ((List.Sublist.refl _).append ?_)
    split
    next hmem =>
      rw [sent, List.filterMap_cons]
      simp only [if_pos (name_of_member hc h hmem)]
      exact .refl _
    next => exact List.nil_sublist _
  | receive r' =>
    refine .trans ?_ (List.sublist_append_left _ _)
    by_cases hr : r' = r
    · subst hr
      exact (receive_unread _ _).symm ▸ .refl _
    · have hsame := (receive_read (after c ops) r').others r (Ne.symm hr)
      rw [read?, if_neg hr]
      exact unread_of_mailbox? hsame ▸ .refl _
  | drop r' =>
    refine .trans ?_ (List.sublist_append_left _ _)
    by_cases hr : r' = r
    · subst hr
      have hnone : ((after c ops).step (.drop r')).unread r' = [] := by
        show ((((after c ops).dropReceiver r').mailbox? r').map Mailbox.unread).getD [] = []
        rw [mailbox?_dropReceiver_self]
        rfl
      rw [hnone]
      exact List.nil_sublist _
    · have hsame := mailbox?_dropReceiver (b := after c ops) (Ne.symm hr)
      exact unread_of_mailbox? hsame ▸ .refl _

/-- A receiver that nobody has got reads nothing. -/
theorem reads_unknown (h : (after c ops).nextReceiver ≤ r) : reads c ops r = [] := by
  induction ops using List.reverseRecOn with
  | nil => rfl
  | append_singleton ops op ih =>
    have hfaithful := faithful hc ops
    have hnext : (after c ops).nextReceiver ≤ ((after c ops).step op).nextReceiver := by
      cases op with
      | subscribe name =>
        rw [(hfaithful.subscribed hc name).2.2.1]
        exact Nat.le_succ _
      | emit s => exact Nat.le_refl _
      | receive r' => exact (receive_read _ r').next.ge
      | drop r' => exact Nat.le_refl _
    rw [after_concat] at h
    rw [reads_concat, ih (hnext.trans h), List.nil_append]
    have hnone : (after c ops).mailbox? r = none := by
      by_contra hsome
      exact absurd (hfaithful.tidy.seen r hsome) (Nat.not_lt.2 (hnext.trans h))
    cases op with
    | subscribe name => rfl
    | emit s => rfl
    | receive r' =>
      rw [read?]
      split
      · rw [receive_none hnone]
        rfl
      · rfl
    | drop r' => rfl

/-- What a receiver has read, and then what it has not read yet, was sent under its name since it
was obtained, in this order. -/
theorem reads_unread_sublist (h : Obtained c ops name r later) :
    (reads c ops r ++ (after c ops).unread r).Sublist (sent name later) := by
  induction ops using List.reverseRecOn generalizing later with
  | nil => exact absurd h not_obtained_nil
  | append_singleton ops op ih =>
    rw [reads_concat, after_concat]
    rcases obtained_concat.1 h with ⟨earlier, rfl, hearlier⟩ | ⟨rfl, rfl, hnew⟩
    · rw [sent_append, List.append_assoc]
      refine ((List.Sublist.refl _).append (read_unread_step hc hearlier)).trans ?_
      rw [← List.append_assoc]
      exact (ih hearlier).append_right _
    · have hfaithful := faithful hc ops
      obtain rfl := (hfaithful.subscribe_iff hc).1 hnew
      rw [reads_unknown hc (Nat.le_refl _), unread, (hfaithful.subscribed hc name).2.1.mailbox]
      exact .refl _

/-- The mailbox of a live receiver is its own queue. -/
theorem mailbox?_follow (h : Obtained c ops name r later) (hlive : .drop r ∉ later) :
    (after c ops).mailbox? r = some (.follow (after c ops).retention name r later) := by
  induction ops using List.reverseRecOn generalizing later with
  | nil => exact absurd h not_obtained_nil
  | append_singleton ops op ih =>
    have hfaithful := faithful hc ops
    have hretention : (after c (ops ++ [op])).retention = (after c ops).retention := by
      unfold retention
      rw [hfaithful.capacity, (faithful hc (ops ++ [op])).capacity]
    rw [hretention, after_concat]
    rcases obtained_concat.1 h with ⟨earlier, rfl, hearlier⟩ | ⟨rfl, rfl, hnew⟩
    · rw [List.mem_append, List.mem_singleton, not_or] at hlive
      have ih := ih hearlier hlive.1
      rw [Mailbox.follow_concat]
      cases op with
      | subscribe name' =>
        have hne := Nat.ne_of_lt (hfaithful.known name r earlier hearlier)
        exact ((hfaithful.subscribed hc name').2.1.others r hne).trans ih
      | emit s =>
        have hmem : r ∈ (after c ops).membersOf s.name ↔ s.name = name := by
          constructor
          · exact name_of_member hc hearlier
          · rintro rfl
            exact (mem_membersOf_after hc).2 ⟨earlier, hearlier, hlive.1⟩
        show ((after c ops).emit s).1.mailbox? r = _
        rw [mailbox?_emit, ih, Option.map_some, Mailbox.step]
        simp only [hmem, Mailbox.push_eq_keep (one_le_retention _) Mailbox.follow_length]
      | receive r' =>
        by_cases hr : r' = r
        · subst hr
          rw [Mailbox.step, if_pos rfl]
          exact receive_mailbox ih
        · rw [Mailbox.step, if_neg hr]
          exact ((receive_read _ r').others r (Ne.symm hr)).trans ih
      | drop r' =>
        have hr : r ≠ r' := fun heq => hlive.2 (heq ▸ rfl)
        exact (mailbox?_dropReceiver hr).trans ih
    · obtain rfl := (hfaithful.subscribe_iff hc).1 hnew
      exact (hfaithful.subscribed hc name).2.1.mailbox

/-- As many receivers of a name are counted as are live. -/
theorem members_perm {reached : List ReceiverId} (hnodup : reached.Nodup)
    (hreached : ∀ r, r ∈ reached ↔ Live c ops name r) :
    reached.length = (after c ops).subscriberCount name := by
  have hmembers := (faithful hc ops).once.membersOf name
  refine ((List.perm_ext_iff_of_nodup hnodup hmembers).2 fun r => ?_).length_eq
  rw [hreached, mem_membersOf_after hc]

end

/-! ## Delivery -/

/-- Sending the signal counts the given receivers, each once, and puts the signal into the
mailboxes of these and of no others. -/
structure Reaches (b : Bus) (s : Signal) (receivers : ReceiverId → Prop) : Prop where
  once : (b.emit s).2.Nodup
  reached : ∀ r, r ∈ (b.emit s).2 ↔ receivers r
  countBefore : (b.emit s).2.length = b.subscriberCount s.name
  countAfter : (b.emit s).2.length = (b.emit s).1.subscriberCount s.name
  gets : ∀ r, receivers r → ∃ m, b.mailbox? r = some m ∧
    (b.emit s).1.mailbox? r = some (m.keep b.retention s)
  others : ∀ r, ¬receivers r → (b.emit s).1.mailbox? r = b.mailbox? r

theorem reaches (hc : 1 ≤ c) (ops : List Op) (s : Signal) :
    (after c ops).Reaches s (Live c ops s.name) where
  once := (faithful hc ops).once.membersOf s.name
  reached r := mem_membersOf_after hc
  countBefore := rfl
  countAfter := by
    have hlive (r : ReceiverId) : Live c (ops ++ [.emit s]) s.name r ↔ Live c ops s.name r := by
      have hdrop : Op.emit s ≠ .drop r := nofun
      have hsubscribe : Op.emit s ≠ .subscribe s.name := nofun
      rw [live_concat, and_iff_left hdrop, or_iff_left fun hnew => hsubscribe hnew.1]
    have hcount := members_perm hc ((faithful hc ops).once.membersOf s.name)
      fun r => (mem_membersOf_after hc).trans (hlive r).symm
    rw [after_concat] at hcount
    exact hcount
  gets r := by
    rintro ⟨later, hobtained, hlive⟩
    have hmailbox := mailbox?_follow hc hobtained hlive
    have hmem : r ∈ (after c ops).membersOf s.name :=
      (mem_membersOf_after hc).2 ⟨later, hobtained, hlive⟩
    refine ⟨_, hmailbox, ?_⟩
    rw [mailbox?_emit, hmailbox, Option.map_some, if_pos hmem,
      Mailbox.push_eq_keep (one_le_retention _) Mailbox.follow_length]
  others r hr := by
    have hmem := (mem_membersOf_after hc).not.2 hr
    rw [mailbox?_emit]
    simp only [if_neg hmem, Option.map_id_fun', id_eq]

/-- Whatever has been done with a bus: a signal reaches the live receivers of its name; a receiver
reads, in order, signals sent under its name since it was obtained; and a live receiver is joined
and reads its own queue, which is never closed. -/
theorem delivery_spec (c : Nat) (hc : 1 ≤ c) (ops : List Op) :
    IsLeast {n | n.isPowerOfTwo ∧ c ≤ n} (after c ops).retention ∧
    (∀ s, (after c ops).Reaches s (Live c ops s.name)) ∧
    (∀ name r later, Obtained c ops name r later →
      (reads c ops r ++ (after c ops).unread r).Sublist (sent name later)) ∧
    ∀ name r later, Obtained c ops name r later → .drop r ∉ later →
      (after c ops).Joined name r ∧
      (after c ops).mailbox? r = some (.follow (after c ops).retention name r later) ∧
      ((after c ops).receive r).2 = (Mailbox.follow (after c ops).retention name r later).read.2 ∧
      ((after c ops).receive r).2 ≠ .closed := by
  refine ⟨?_, reaches hc ops, fun _ _ _ => reads_unread_sublist hc, ?_⟩
  · have hleast := (after c ops).retention_isLeast
    rwa [(faithful hc ops).capacity] at hleast
  · intro name r later hobtained hlive
    have hjoined := ((faithful hc ops).joined name r).2 ⟨later, hobtained, hlive⟩
    have hmailbox := mailbox?_follow hc hobtained hlive
    have hanswer := receive_answer hmailbox hjoined
    exact ⟨hjoined, hmailbox, hanswer, hanswer ▸ Mailbox.read_ne_closed⟩

/-- A signal with a number. -/
def tick (n : Int) : Signal := ⟨"tick", .complete (.int n)⟩

/-- After a signal that is read come five that are not, and channels of other names come and go. -/
def overrun : List Op :=
  [.emit (tick 0), .receive 0, .subscribe "tock", .drop 1, .emit (tick 1), .subscribe "tack",
    .emit (tick 2), .emit (tick 3), .emit ⟨"tock", .fail "nobody"⟩, .emit (tick 4), .emit (tick 5)]

/-- Of the five signals a bus of capacity three keeps four. -/
theorem delivery_spec_overrun :
    (after 3 (.subscribe "tick" :: overrun)).mailbox? 0 =
        some ⟨[tick 2, tick 3, tick 4, tick 5], 1⟩ ∧
      ((after 3 (.subscribe "tick" :: overrun)).receive 0).2 = .lagged 1 ∧
      0 ∈ ((after 3 (.subscribe "tick" :: overrun)).emit (tick 6)).2 := by
  obtain ⟨hretention, hreaches, -, hqueues⟩ :=
    delivery_spec 3 (by decide) (.subscribe "tick" :: overrun)
  have hfour : IsLeast {n : Nat | n.isPowerOfTwo ∧ 3 ≤ n} 4 :=
    isLeast_powerOfTwo ⟨1, rfl⟩ (by decide) (by decide)
  have hobtained : Obtained 3 (.subscribe "tick" :: overrun) "tick" 0 overrun :=
    ⟨[], _, rfl, rfl⟩
  have hlive : .drop 0 ∉ overrun := by decide
  obtain ⟨-, hmailbox, hanswer, -⟩ := hqueues "tick" 0 overrun hobtained hlive
  rw [hretention.unique hfour] at hmailbox hanswer
  exact ⟨hmailbox, hanswer, ((hreaches (tick 6)).reached 0).2 ⟨overrun, hobtained, hlive⟩⟩

end Bus

end Rundown
