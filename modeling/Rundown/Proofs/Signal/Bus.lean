import Mathlib.Data.List.Nodup
import Rundown.Signal.Bus

/-!
# What the bus does for a receiver

Sending, subscribing and leaving are described by what becomes of one receiver: the names that it
gets signals of (`Bus.Joined`) and its mailbox (`Bus.mailbox?`).  A receiver that has an unread
signal gets the oldest one, and one that has none finds its mailbox empty as long as it is joined
(`Bus.receiveKept_signal`, `Bus.receiveKept_empty`).
-/

namespace Rundown

theorem Mailbox.push_ne_nil (retention : Nat) (s : Signal) (m : Mailbox) :
    (m.push retention s).unread ≠ [] := by
  unfold push
  split <;> simp

theorem Mailbox.mem_push {retention : Nat} {s s' : Signal} {m : Mailbox}
    (h : s' ∈ (m.push retention s).unread) : s' ∈ m.unread ∨ s' = s := by
  unfold push at h
  split at h
  · simpa using h
  · rcases List.mem_append.1 h with h | h
    · exact .inl (List.mem_of_mem_drop h)
    · exact .inr (List.mem_singleton.1 h)

namespace Bus

variable {b b' : Bus} {s : Signal} {r r' : ReceiverId} {name name' : String} {m : Mailbox}

/-- The receiver gets the signals of this name. -/
def Joined (b : Bus) (name : String) (r : ReceiverId) : Prop :=
  ∃ c ∈ b.channels, c.name = name ∧ r ∈ c.members

/-- The mailbox of a receiver. -/
def mailbox? (b : Bus) (r : ReceiverId) : Option Mailbox := b.mailboxes.lookup r

/-- No name has two channels, and the next receiver has not been on the bus. -/
structure Tidy (b : Bus) : Prop where
  names : (b.channels.map Channel.name).Nodup
  unjoined : ∀ name, ¬b.Joined name b.nextReceiver
  unseen : b.mailbox? b.nextReceiver = none
  joined : ∀ name r, b.Joined name r → r < b.nextReceiver
  seen : ∀ r, b.mailbox? r ≠ none → r < b.nextReceiver

theorem Tidy.of_lt (hnames : (b.channels.map Channel.name).Nodup)
    (hjoined : ∀ name r, b.Joined name r → r < b.nextReceiver)
    (hseen : ∀ r, b.mailbox? r ≠ none → r < b.nextReceiver) : b.Tidy where
  names := hnames
  unjoined name h := Nat.lt_irrefl _ (hjoined name _ h)
  unseen := by
    by_contra h
    exact Nat.lt_irrefl _ (hseen _ h)
  joined := hjoined
  seen := hseen

theorem tidy_ofCapacity (capacity : Nat) : (ofCapacity capacity).Tidy :=
  .of_lt List.nodup_nil (fun _ _ ⟨_, hc, _⟩ => by cases hc) fun _ h => absurd rfl h

theorem mem_membersOf (h : b.Tidy) : r ∈ b.membersOf name ↔ b.Joined name r := by
  unfold membersOf Joined
  generalize hchannels : b.channels = channels
  have hnames := h.names
  rw [hchannels] at hnames
  clear h hchannels
  induction channels with
  | nil => simp
  | cons c rest ih =>
    have ⟨hc, hrest⟩ := List.nodup_cons.1 hnames
    rw [List.find?_cons]
    by_cases hname : c.name = name
    · subst hname
      simp only [beq_self_eq_true, Option.map_some, Option.getD_some, List.mem_cons,
        exists_eq_or_imp, true_and]
      refine ⟨.inl, ?_⟩
      rintro (hr | ⟨c', hc', hname, -⟩)
      · exact hr
      · exact absurd (List.mem_map.2 ⟨c', hc', hname⟩) hc
    · rw [beq_eq_false_iff_ne.2 hname]
      simp only [List.mem_cons, exists_eq_or_imp, hname, false_and, false_or]
      exact ih hrest

theorem attached_iff : b.attached r = true ↔ ∃ name, b.Joined name r := by
  simp [attached, Joined]

/-! ## Mailboxes -/

theorem lookup_map (mailboxes : List (ReceiverId × Mailbox)) (f : ReceiverId → Mailbox → Mailbox)
    (r : ReceiverId) :
    (mailboxes.map fun entry => (entry.1, f entry.1 entry.2)).lookup r =
      (mailboxes.lookup r).map (f r) := by
  induction mailboxes with
  | nil => rfl
  | cons entry rest ih =>
    obtain ⟨r', m⟩ := entry
    rw [List.map_cons, List.lookup_cons, List.lookup_cons]
    by_cases hr : r = r'
    · subst hr
      simp only [beq_self_eq_true, Option.map_some]
    · simp only [beq_eq_false_iff_ne.2 hr, ih]

theorem lookup_filter_ne (mailboxes : List (ReceiverId × Mailbox)) (h : r' ≠ r) :
    (mailboxes.filter fun entry => entry.1 != r).lookup r' = mailboxes.lookup r' := by
  induction mailboxes with
  | nil => rfl
  | cons entry rest ih =>
    obtain ⟨r₀, m⟩ := entry
    by_cases hr : r₀ = r
    · subst hr
      rw [List.filter_cons_of_neg (by simp), ih, List.lookup_cons, beq_eq_false_iff_ne.2 h]
    · rw [List.filter_cons_of_pos (by simp [hr]), List.lookup_cons, List.lookup_cons, ih]

theorem lookup_filter_eq_none {mailboxes : List (ReceiverId × Mailbox)}
    (h : mailboxes.lookup r' = none) :
    (mailboxes.filter fun entry => entry.1 != r).lookup r' = none := by
  rw [List.lookup_eq_none_iff] at h ⊢
  exact fun entry hentry => h entry (List.mem_of_mem_filter hentry)

theorem mailbox?_emit : (b.emit s).1.mailbox? r = (b.mailbox? r).map fun m =>
    if r ∈ b.membersOf s.name then m.push b.retention s else m := by
  unfold mailbox? emit
  rw [← lookup_map b.mailboxes fun r m =>
    if r ∈ b.membersOf s.name then m.push b.retention s else m]
  congr 1
  refine List.map_congr_left fun entry _ => ?_
  by_cases hr : entry.1 ∈ b.membersOf s.name <;> simp [hr]

theorem mailbox?_setMailbox : (b.setMailbox r m).mailbox? r' =
    if r' = r then (b.mailbox? r).map fun _ => m else b.mailbox? r' := by
  unfold mailbox? setMailbox
  have hmap : (b.mailboxes.map fun entry => if entry.1 == r then (r, m) else entry) =
      b.mailboxes.map fun entry => (entry.1, if entry.1 = r then m else entry.2) := by
    refine List.map_congr_left fun entry _ => ?_
    by_cases hr : entry.1 = r <;> simp [hr]
  rw [hmap, lookup_map b.mailboxes fun r' m' => if r' = r then m else m']
  by_cases hr : r' = r
  · simp [hr]
  · simp [hr]

theorem mailbox?_dropReceiver (h : r' ≠ r) :
    (b.dropReceiver r).mailbox? r' = b.mailbox? r' :=
  lookup_filter_ne b.mailboxes h

/-! ## Sending and leaving -/

theorem joined_emit : (b.emit s).1.Joined name r ↔ b.Joined name r := by
  unfold Joined emit
  refine ⟨fun ⟨c, hc, h⟩ => ⟨c, List.mem_of_mem_filter hc, h⟩, fun ⟨c, hc, hname, hr⟩ => ?_⟩
  refine ⟨c, List.mem_filter.2 ⟨hc, ?_⟩, hname, hr⟩
  have hmembers : c.members.isEmpty = false := by
    cases hm : c.members with
    | nil => rw [hm] at hr; cases hr
    | cons => rfl
  simp [hmembers]

theorem joined_dropReceiver : (b.dropReceiver r).Joined name r' ↔ b.Joined name r' ∧ r' ≠ r := by
  unfold Joined dropReceiver
  constructor
  · rintro ⟨_, hmem, hname, hr⟩
    obtain ⟨c, hc, rfl⟩ := List.mem_map.1 hmem
    have hr := List.mem_filter.1 hr
    exact ⟨⟨c, hc, hname, hr.1⟩, by simpa using hr.2⟩
  · rintro ⟨⟨c, hc, hname, hr⟩, hne⟩
    exact ⟨_, List.mem_map.2 ⟨c, hc, rfl⟩, hname, List.mem_filter.2 ⟨hr, by simpa using hne⟩⟩

theorem Tidy.emit (h : b.Tidy) (s : Signal) : (b.emit s).1.Tidy := by
  refine .of_lt ?_ (fun name r hr => h.joined name r (joined_emit.1 hr)) fun r hr => h.seen r ?_
  · exact h.names.sublist (List.filter_sublist.map _)
  · rw [mailbox?_emit] at hr
    exact fun hnone => hr (by rw [hnone]; rfl)

theorem Tidy.dropReceiver (h : b.Tidy) (r : ReceiverId) : (b.dropReceiver r).Tidy := by
  refine .of_lt ?_ (fun name r' hr => h.joined name r' (joined_dropReceiver.1 hr).1)
    fun r' hr => h.seen r' fun hnone => hr (lookup_filter_eq_none hnone)
  simpa [Bus.dropReceiver, Function.comp_def] using h.names

/-! ## Subscribing -/

theorem subscribe_eq (h : b.capacity ≠ 0) (name : String) : ∃ b', b.subscribe name =
    some (b', b.nextReceiver) ∧ b'.nextReceiver = b.nextReceiver + 1 ∧
      b'.capacity = b.capacity ∧
      b'.channels = join name b.nextReceiver (b.channels.filter fun c => !c.members.isEmpty) ∧
      b'.mailboxes = b.mailboxes ++ [(b.nextReceiver, ⟨[], 0⟩)] := by
  unfold subscribe
  rw [if_neg h]
  exact ⟨_, rfl, rfl, rfl, rfl, rfl⟩

theorem subscribe_eq_none : b.subscribe name = none ↔ b.capacity = 0 := by
  unfold subscribe
  split <;> simp_all

theorem mem_join {channels : List Channel} :
    (∃ c ∈ join name r channels, c.name = name' ∧ r' ∈ c.members) ↔
      (∃ c ∈ channels, c.name = name' ∧ r' ∈ c.members) ∨ (name' = name ∧ r' = r) := by
  unfold join
  split
  next hany =>
    obtain ⟨c₀, hc₀, hname₀⟩ := List.any_eq_true.1 hany
    rw [beq_iff_eq] at hname₀
    constructor
    · rintro ⟨_, hmem, hname, hr⟩
      obtain ⟨c, hc, rfl⟩ := List.mem_map.1 hmem
      by_cases hcn : c.name = name
      · simp only [hcn, beq_self_eq_true, if_true] at hname hr
        rcases List.mem_append.1 hr with hr | hr
        · exact .inl ⟨c, hc, hcn.trans hname, hr⟩
        · exact .inr ⟨hname.symm, List.mem_singleton.1 hr⟩
      · simp only [beq_eq_false_iff_ne.2 hcn, Bool.false_eq_true, if_false] at hname hr
        exact .inl ⟨c, hc, hname, hr⟩
    · rintro (⟨c, hc, rfl, hr⟩ | ⟨rfl, rfl⟩)
      · refine ⟨_, List.mem_map.2 ⟨c, hc, rfl⟩, ?_⟩
        split
        · exact ⟨rfl, List.mem_append_left _ hr⟩
        · exact ⟨rfl, hr⟩
      · refine ⟨_, List.mem_map.2 ⟨c₀, hc₀, rfl⟩, ?_⟩
        simp [hname₀]
  next hany =>
    simp only [List.mem_append, List.mem_singleton, or_and_right, exists_or, exists_eq_left]
    simp [eq_comm]

theorem nodup_join {channels : List Channel} (h : (channels.map Channel.name).Nodup) :
    ((join name r channels).map Channel.name).Nodup := by
  unfold join
  split
  · have : (channels.map fun c =>
        if c.name == name then { c with members := c.members ++ [r] } else c).map Channel.name =
        channels.map Channel.name := by
      rw [List.map_map]
      refine List.map_congr_left fun c _ => ?_
      simp only [Function.comp_apply]
      split <;> rfl
    rwa [this]
  next hany =>
    rw [List.map_append]
    refine List.Nodup.append h (List.nodup_singleton _) ?_
    rw [List.map_singleton, List.disjoint_singleton]
    intro hmem
    obtain ⟨c, hc, hname⟩ := List.mem_map.1 hmem
    exact hany (List.any_eq_true.2 ⟨c, hc, beq_iff_eq.2 hname⟩)

/-- What a subscription does to the bus. -/
structure Subscribed (b b' : Bus) (name : String) (r : ReceiverId) : Prop where
  tidy : b'.Tidy
  capacity : b'.capacity = b.capacity
  joined : ∀ name' r', b'.Joined name' r' ↔ b.Joined name' r' ∨ (name' = name ∧ r' = r)
  mailbox : b'.mailbox? r = some ⟨[], 0⟩
  others : ∀ r', r' ≠ r → b'.mailbox? r' = b.mailbox? r'
  unjoined : ∀ name', ¬b.Joined name' r
  unseen : b.mailbox? r = none

theorem Tidy.subscribe (h : b.Tidy) (hcapacity : b.capacity ≠ 0) (name : String) :
    ∃ b', b.subscribe name = some (b', b.nextReceiver) ∧
      b.Subscribed b' name b.nextReceiver := by
  obtain ⟨b', hb', hnext, hcap, hchannels, hmailboxes⟩ := subscribe_eq hcapacity name
  have hjoined : ∀ name' r', b'.Joined name' r' ↔
      b.Joined name' r' ∨ (name' = name ∧ r' = b.nextReceiver) := by
    intro name' r'
    unfold Joined
    rw [hchannels, mem_join]
    refine or_congr_left ⟨fun ⟨c, hc, h⟩ => ⟨c, List.mem_of_mem_filter hc, h⟩, ?_⟩
    rintro ⟨c, hc, hname, hr⟩
    refine ⟨c, List.mem_filter.2 ⟨hc, ?_⟩, hname, hr⟩
    cases hm : c.members with
    | nil => rw [hm] at hr; cases hr
    | cons => rfl
  have hmailbox : ∀ r', b'.mailbox? r' =
      (b.mailbox? r').or (if r' = b.nextReceiver then some ⟨[], 0⟩ else none) := by
    intro r'
    unfold mailbox?
    rw [hmailboxes, List.lookup_append]
    by_cases hr : r' = b.nextReceiver
    · subst hr
      simp
    · simp only [List.lookup_cons, beq_eq_false_iff_ne.2 hr, List.lookup_nil, if_neg hr]
  refine ⟨b', hb', .of_lt ?_ ?_ ?_, hcap, hjoined, ?_, fun r' hr => ?_, h.unjoined, h.unseen⟩
  · rw [hchannels]
    exact nodup_join (h.names.sublist (List.filter_sublist.map _))
  · intro name' r' hr
    rw [hnext]
    rcases (hjoined name' r').1 hr with hr | ⟨-, rfl⟩
    · exact Nat.lt_succ_of_lt (h.joined name' r' hr)
    · exact Nat.lt_succ_self _
  · intro r' hr
    rw [hnext]
    by_cases heq : r' = b.nextReceiver
    · exact heq ▸ Nat.lt_succ_self _
    · rw [hmailbox, if_neg heq, Option.or_none] at hr
      exact Nat.lt_succ_of_lt (h.seen r' hr)
  · rw [hmailbox, h.unseen, if_pos rfl]
    rfl
  · rw [hmailbox, if_neg hr, Option.or_none]

/-! ## Receiving -/

/-- What reading leaves of the bus: at most the mailbox of the receiver has changed. -/
structure Read (b b' : Bus) (r : ReceiverId) : Prop where
  channels : b'.channels = b.channels
  capacity : b'.capacity = b.capacity
  next : b'.nextReceiver = b.nextReceiver
  others : ∀ r', r' ≠ r → b'.mailbox? r' = b.mailbox? r'
  seen : b'.mailbox? r ≠ none → b.mailbox? r ≠ none

theorem Read.refl (b : Bus) (r : ReceiverId) : Read b b r := ⟨rfl, rfl, rfl, fun _ _ => rfl, id⟩

theorem Read.joined (h : Read b b' r) : b'.Joined name r' ↔ b.Joined name r' := by
  unfold Joined
  rw [h.channels]

theorem Read.tidy (h : Read b b' r) (ht : b.Tidy) : b'.Tidy := by
  refine .of_lt (h.channels ▸ ht.names) (fun name r' hr => ?_) fun r' hr => ?_
  · exact h.next ▸ ht.joined name r' (h.joined.1 hr)
  · rw [h.next]
    by_cases heq : r' = r
    · exact ht.seen r' (heq ▸ h.seen (heq ▸ hr))
    · exact ht.seen r' (h.others r' heq ▸ hr)

theorem Read.setMailbox (h : Read b b' r) (m : Mailbox) : Read b (b'.setMailbox r m) r where
  channels := h.channels
  capacity := h.capacity
  next := h.next
  others r' hr := by rw [mailbox?_setMailbox, if_neg hr, h.others r' hr]
  seen hsome := h.seen fun hnone => hsome (by rw [mailbox?_setMailbox, if_pos rfl, hnone]; rfl)

theorem receive_eq (h : b.mailbox? r = some m) (hmissed : m.missed = 0) :
    b.receive r = match m.unread with
      | s :: rest => (b.setMailbox r { m with unread := rest }, .signal s)
      | [] => (b, if b.attached r then .empty else .closed) := by
  unfold receive
  rw [show b.mailboxes.lookup r = some m from h]
  exact if_neg (not_not.2 hmissed)

theorem receive_lagged (h : b.mailbox? r = some m) (hmissed : m.missed ≠ 0) :
    b.receive r = (b.setMailbox r { m with missed := 0 }, .lagged m.missed) := by
  unfold receive
  rw [show b.mailboxes.lookup r = some m from h]
  exact if_pos hmissed

/-- Reading twice clears what was missed and then takes the oldest signal. -/
theorem receiveKept_eq (h : b.mailbox? r = some m) :
    ∃ b₀ m₀, Read b b₀ r ∧ b₀.mailbox? r = some m₀ ∧ m₀.unread = m.unread ∧ m₀.missed = 0 ∧
      b.receiveKept r = b₀.receive r := by
  unfold receiveKept
  by_cases hmissed : m.missed = 0
  · refine ⟨b, m, .refl b r, h, rfl, hmissed, ?_⟩
    rw [receive_eq h hmissed]
    cases m.unread with
    | nil =>
      dsimp only
      split <;> first | rfl | (next heq => split at heq <;> cases heq)
    | cons s rest => rfl
  · refine ⟨b.setMailbox r { m with missed := 0 }, { m with missed := 0 },
      (Read.refl b r).setMailbox _, ?_, rfl, rfl, ?_⟩
    · rw [mailbox?_setMailbox, if_pos rfl, h]
      rfl
    · rw [receive_lagged h hmissed]

/-- A receiver with an unread signal gets the oldest one. -/
theorem receiveKept_signal {rest : List Signal} (h : b.mailbox? r = some m)
    (hunread : m.unread = s :: rest) :
    ∃ b', b.receiveKept r = (b', .signal s) ∧ Read b b' r := by
  obtain ⟨b₀, m₀, hread, hm₀, hsame, hmissed, heq⟩ := receiveKept_eq h
  rw [heq, receive_eq hm₀ hmissed, hsame, hunread]
  exact ⟨_, rfl, hread.setMailbox _⟩

/-- A receiver without an unread signal finds its mailbox empty while it is joined. -/
theorem receiveKept_empty (h : b.mailbox? r = some m) (hunread : m.unread = [])
    (hjoined : b.Joined name r) :
    ∃ b' m', b.receiveKept r = (b', .empty) ∧ Read b b' r ∧ b'.mailbox? r = some m' ∧
      m'.unread = [] := by
  obtain ⟨b₀, m₀, hread, hm₀, hsame, hmissed, heq⟩ := receiveKept_eq h
  rw [hunread] at hsame
  rw [heq, receive_eq hm₀ hmissed, hsame, attached_iff.2 ⟨name, hread.joined.2 hjoined⟩, if_pos rfl]
  exact ⟨b₀, m₀, rfl, hread, hm₀, hsame⟩

end Bus

end Rundown
