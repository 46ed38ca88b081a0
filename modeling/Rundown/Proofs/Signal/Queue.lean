import Rundown.Proofs.Signal.Delivery

/-!
# A receiver that has not read

Between its subscription and its first signal a receiver takes nothing from its mailbox.  The
signals of its name queue up there, and of these the last ones are kept (`Bus.Queues`), whoever else
subscribes, reads and leaves.  When it reads it gets the oldest signal that has been kept
(`Bus.Queues.receiveKept_signal`).
-/

namespace Rundown

namespace Mailbox

/-- One signal more, of which the mailbox keeps the last ones. -/
theorem keep_rtake {retention : Nat} (hretention : 1 ≤ retention) (sent : List Signal)
    (s : Signal) :
    keep retention s ⟨sent.rtake retention, sent.length - retention⟩ =
      ⟨(sent ++ [s]).rtake retention, (sent ++ [s]).length - retention⟩ := by
  unfold keep List.rtake
  simp only [List.length_append, List.length_drop, List.length_singleton, mk.injEq]
  refine ⟨?_, by omega⟩
  by_cases hlt : sent.length < retention
  · have hnone : sent.length - retention = 0 := by omega
    have hfits : sent.length + 1 - retention = 0 := by omega
    rw [hnone, Nat.sub_zero, hfits, List.drop_zero, List.drop_zero, List.drop_zero]
  · have hone : sent.length - (sent.length - retention) + 1 - retention = 1 := by omega
    have hmore : sent.length + 1 - retention = sent.length - retention + 1 := by omega
    rw [hone, List.drop_append_of_le_length (by rw [List.length_drop]; omega), List.drop_drop,
      hmore, List.drop_append_of_le_length (by omega)]

end Mailbox

namespace Bus

variable {b b' : Bus} {name name' : String} {r r' : ReceiverId} {sent : List Signal} {s : Signal}

theorem capacity_of_subscribe (hb : b.subscribe name = some (b', r)) : b.capacity ≠ 0 := by
  intro hzero
  rw [subscribe, if_pos hzero] at hb
  cases hb

theorem subscribed_of_subscribe (h : b.Tidy) (hb : b.subscribe name = some (b', r)) :
    r = b.nextReceiver ∧ b.Subscribed b' name r := by
  obtain ⟨b₁, hb₁, hsubscribed⟩ := h.subscribe (capacity_of_subscribe hb) name
  cases hb.symm.trans hb₁
  exact ⟨rfl, hsubscribed⟩

theorem next_of_subscribe (hb : b.subscribe name = some (b', r)) :
    r < b'.nextReceiver ∧ b.nextReceiver ≤ r := by
  obtain ⟨b₁, hb₁, hnext, -⟩ := subscribe_eq (capacity_of_subscribe hb) name
  cases hb.symm.trans hb₁
  rw [hnext]
  exact ⟨Nat.lt_succ_self _, Nat.le_refl _⟩

theorem Read.trans {b'' : Bus} (h : Read b b' r) (h' : Read b' b'' r) : Read b b'' r where
  channels := h'.channels.trans h.channels
  capacity := h'.capacity.trans h.capacity
  next := h'.next.trans h.next
  others r' hr := (h'.others r' hr).trans (h.others r' hr)
  seen hsome := h.seen (h'.seen hsome)

theorem receiveKept_read (b : Bus) (r : ReceiverId) : Read b (b.receiveKept r).1 r := by
  have hread := receive_read b r
  unfold receiveKept
  split
  next b' _ heq =>
    rw [heq] at hread
    exact hread.trans (receive_read b' r)
  · exact hread

/-- What every operation makes of a bus: receivers that it gives are new. -/
structure Grows (b b' : Bus) : Prop where
  tidy : b.Tidy → b'.Tidy
  capacity : b'.capacity = b.capacity
  next : b.nextReceiver ≤ b'.nextReceiver

namespace Grows

theorem refl (b : Bus) : b.Grows b := ⟨id, rfl, Nat.le_refl _⟩

theorem trans {b'' : Bus} (h : b.Grows b') (h' : b'.Grows b'') : b.Grows b'' :=
  ⟨h'.tidy ∘ h.tidy, h'.capacity.trans h.capacity, h.next.trans h'.next⟩

theorem emit (b : Bus) (s : Signal) : b.Grows (b.emit s).1 :=
  ⟨fun h => h.emit s, rfl, Nat.le_refl _⟩

theorem dropReceiver (b : Bus) (r : ReceiverId) : b.Grows (b.dropReceiver r) :=
  ⟨fun h => h.dropReceiver r, rfl, Nat.le_refl _⟩

end Grows

theorem Read.grows (h : Read b b' r) : b.Grows b' := ⟨h.tidy, h.capacity, h.next.ge⟩

theorem grows_of_subscribe (hb : b.subscribe name = some (b', r)) : b.Grows b' := by
  have hcapacity := capacity_of_subscribe hb
  obtain ⟨b₁, hb₁, hnext, hsame, -⟩ := subscribe_eq hcapacity name
  cases hb.symm.trans hb₁
  exact ⟨fun h => (subscribed_of_subscribe h hb).2.tidy, hsame, by rw [hnext]; exact Nat.le_succ _⟩

/-- The receiver is joined to the name and has read nothing; since it subscribed the given signals
of the name have been sent. -/
structure Queues (b : Bus) (name : String) (r : ReceiverId) (sent : List Signal) : Prop where
  tidy : b.Tidy
  joined : ∀ n, b.Joined n r ↔ n = name
  mailbox : b.mailbox? r = some ⟨sent.rtake b.retention, sent.length - b.retention⟩

/-- A new receiver has an empty mailbox. -/
theorem Subscribed.queues (h : b.Subscribed b' name r) : b'.Queues name r [] where
  tidy := h.tidy
  joined n := by
    rw [h.joined, or_iff_right (h.unjoined n), and_iff_left rfl]
  mailbox := by rw [h.mailbox, List.rtake_nil, List.length_nil, Nat.zero_sub]

namespace Queues

variable (h : b.Queues name r sent)

include h

theorem lt_next : r < b.nextReceiver := h.tidy.joined name r ((h.joined name).2 rfl)

/-- A signal of the name is queued, another one does not come here. -/
theorem emit (s : Signal) :
    (b.emit s).1.Queues name r (sent ++ if s.name = name then [s] else []) where
  tidy := h.tidy.emit s
  joined n := joined_emit.trans (h.joined n)
  mailbox := by
    have hmem : r ∈ b.membersOf s.name ↔ s.name = name :=
      (mem_membersOf h.tidy).trans (h.joined s.name)
    have hlength : (sent.rtake b.retention).length ≤ b.retention := by
      rw [List.rtake, List.length_drop]
      omega
    change (b.emit s).1.mailbox? r = some ⟨_, _ - b.retention⟩
    rw [mailbox?_emit, h.mailbox, Option.map_some]
    by_cases hname : s.name = name
    · rw [if_pos (hmem.2 hname), if_pos hname,
        Mailbox.push_eq_keep (one_le_retention b) hlength,
        Mailbox.keep_rtake (one_le_retention b)]
      rfl
    · rw [if_neg fun hr => hname (hmem.1 hr), if_neg hname, List.append_nil]
      rfl

/-- Somebody else subscribes. -/
theorem subscribe (hb : b.subscribe name' = some (b', r')) : b'.Queues name r sent := by
  obtain ⟨rfl, hsubscribed⟩ := subscribed_of_subscribe h.tidy hb
  have hne : r ≠ b.nextReceiver := Nat.ne_of_lt h.lt_next
  refine ⟨hsubscribed.tidy, fun n => ?_, ?_⟩
  · rw [hsubscribed.joined, or_iff_left fun hn => hne hn.2, h.joined]
  · rw [hsubscribed.others r hne, h.mailbox, retention, retention, hsubscribed.capacity]

/-- Somebody else reads. -/
theorem read (hread : Read b b' r') (hr : r ≠ r') : b'.Queues name r sent := by
  refine ⟨hread.tidy h.tidy, fun n => hread.joined.trans (h.joined n), ?_⟩
  rw [hread.others r hr, h.mailbox, retention, retention, hread.capacity]

/-- Somebody else leaves. -/
theorem dropReceiver (hr : r ≠ r') : (b.dropReceiver r').Queues name r sent where
  tidy := h.tidy.dropReceiver r'
  joined n := joined_dropReceiver.trans ((and_iff_left hr).trans (h.joined n))
  mailbox := (mailbox?_dropReceiver hr).trans h.mailbox

/-- The receiver gets the oldest signal that has been kept: the first one, or the first after those
that have been lost. -/
theorem receiveKept_signal (hsent : sent ≠ []) :
    ∃ s, sent[sent.length - b.retention]? = some s ∧
      (b.receiveKept r).2 = .signal s := by
  have hlength := List.length_pos_of_ne_nil hsent
  have hretention := one_le_retention b
  have hlost : sent.length - b.retention < sent.length := by omega
  refine ⟨sent[sent.length - b.retention], List.getElem?_eq_getElem hlost, ?_⟩
  obtain ⟨b', hb', -⟩ := Bus.receiveKept_signal h.mailbox (List.drop_eq_getElem_cons hlost)
  rw [hb']

end Queues

/-- As long as nothing has been sent the receiver looks in vain, and nothing changes. -/
theorem Queues.receiveKept_empty (h : b.Queues name r []) : b.receiveKept r = (b, .empty) := by
  have hmailbox : b.mailbox? r = some ⟨[], 0⟩ := by
    rw [h.mailbox, List.rtake_nil, List.length_nil, Nat.zero_sub]
  have hattached : b.attached r = true := attached_iff.2 ⟨name, (h.joined name).2 rfl⟩
  have hreceive : b.receive r = (b, .empty) := by
    rw [receive_eq hmailbox rfl]
    exact congrArg _ (if_pos hattached)
  unfold receiveKept
  rw [hreceive]

end Bus

end Rundown
