import Mathlib.Data.List.Induction
import Rundown.Proofs.Signal.Bus

/-!
# Histories of a bus

What has been done with a bus is a list of operations (`Bus.Op`).  It decides which receivers are
live: those that somebody got by subscribing and has not dropped (`Bus.Live`).  The channels hold
exactly these, each of them once and under its own name (`Bus.faithful`).
-/

namespace Rundown

namespace Bus

/-- What is done with a bus.  Publishing a completion or a failure is sending that signal. -/
inductive Op where
  | subscribe (name : String)
  | emit (s : Signal)
  | receive (r : ReceiverId)
  | drop (r : ReceiverId)
deriving DecidableEq

/-- The bus after one operation. -/
def step (b : Bus) : Op → Bus
  | .subscribe name => ((b.subscribe name).map Prod.fst).getD b
  | .emit s => (b.emit s).1
  | .receive r => (b.receive r).1
  | .drop r => b.dropReceiver r

/-- The bus after these operations. -/
def after (capacity : Nat) (ops : List Op) : Bus := ops.foldl step (ofCapacity capacity)

/-- In the history `ops` the receiver was obtained by subscribing to the name, and `later` is what
has been done since. -/
def Obtained (capacity : Nat) (ops : List Op) (name : String) (r : ReceiverId)
    (later : List Op) : Prop :=
  ∃ before b, ops = before ++ .subscribe name :: later ∧
    (after capacity before).subscribe name = some (b, r)

/-- The receiver was obtained by subscribing to the name and has not been dropped. -/
def Live (capacity : Nat) (ops : List Op) (name : String) (r : ReceiverId) : Prop :=
  ∃ later, Obtained capacity ops name r later ∧ .drop r ∉ later

/-- The signals sent under a name, in order. -/
def sent (name : String) (ops : List Op) : List Signal :=
  ops.filterMap fun
    | .emit s => if s.name = name then some s else none
    | _ => none

/-- The signal that the receiver reads in this operation. -/
def read? (b : Bus) (r : ReceiverId) : Op → Option Signal
  | .receive r' =>
    if r' = r then
      match (b.receive r).2 with
      | .signal s => some s
      | _ => none
    else none
  | _ => none

/-- The signals that the receiver reads in these operations, in order. -/
def readsFrom (r : ReceiverId) (b : Bus) : List Op → List Signal
  | [] => []
  | op :: rest => (b.read? r op).toList ++ readsFrom r (b.step op) rest

/-- The signals that the receiver reads in a history. -/
def reads (capacity : Nat) (ops : List Op) (r : ReceiverId) : List Signal :=
  readsFrom r (ofCapacity capacity) ops

variable {b b' : Bus} {c : Nat} {ops later later' : List Op} {op : Op} {s : Signal}
  {r r' : ReceiverId} {name name' : String}

theorem after_concat : after c (ops ++ [op]) = (after c ops).step op := by
  unfold after
  rw [List.foldl_append]
  rfl

theorem sent_append : sent name (ops ++ later) = sent name ops ++ sent name later :=
  List.filterMap_append

theorem readsFrom_concat :
    readsFrom r b (ops ++ [op]) = readsFrom r b ops ++ ((ops.foldl step b).read? r op).toList := by
  induction ops generalizing b with
  | nil => exact List.append_nil _
  | cons first rest ih =>
    rw [List.cons_append, readsFrom, ih, readsFrom, List.append_assoc]
    rfl

theorem reads_concat :
    reads c (ops ++ [op]) r = reads c ops r ++ ((after c ops).read? r op).toList :=
  readsFrom_concat

/-! ## Who is live -/

theorem not_obtained_nil : ¬Obtained c [] name r later := by
  rintro ⟨before, b, heq, -⟩
  exact absurd heq.symm (List.append_ne_nil_of_right_ne_nil before (List.cons_ne_nil _ _))

/-- A receiver was obtained before the last operation, or by it. -/
theorem obtained_concat : Obtained c (ops ++ [op]) name r later ↔
    (∃ earlier, later = earlier ++ [op] ∧ Obtained c ops name r earlier) ∨
      (later = [] ∧ op = .subscribe name ∧ ∃ b, (after c ops).subscribe name = some (b, r)) := by
  constructor
  · rintro ⟨before, b, heq, hb⟩
    rcases List.eq_nil_or_concat later with rfl | ⟨earlier, last, rfl⟩
    · obtain ⟨rfl, hop⟩ := List.append_inj' heq rfl
      exact .inr ⟨rfl, List.singleton_inj.1 hop, b, hb⟩
    · rw [List.concat_eq_append, ← List.cons_append, ← List.append_assoc] at heq
      obtain ⟨rfl, hop⟩ := List.append_inj' heq rfl
      cases List.singleton_inj.1 hop
      exact .inl ⟨earlier, List.concat_eq_append, before, b, rfl, hb⟩
  · rintro (⟨earlier, rfl, before, b, rfl, hb⟩ | ⟨rfl, rfl, b, hb⟩)
    · exact ⟨before, b, by rw [List.append_assoc, List.cons_append], hb⟩
    · exact ⟨ops, b, rfl, hb⟩

theorem live_concat : Live c (ops ++ [op]) name r ↔ (Live c ops name r ∧ op ≠ .drop r) ∨
    (op = .subscribe name ∧ ∃ b, (after c ops).subscribe name = some (b, r)) := by
  unfold Live
  constructor
  · rintro ⟨later, hobtained, hlive⟩
    rcases obtained_concat.1 hobtained with ⟨earlier, rfl, hearlier⟩ | ⟨-, hnew⟩
    · rw [List.mem_append, List.mem_singleton, not_or] at hlive
      exact .inl ⟨⟨earlier, hearlier, hlive.1⟩, fun h => hlive.2 h.symm⟩
    · exact .inr hnew
  · rintro (⟨⟨earlier, hearlier, hlive⟩, hop⟩ | hnew)
    · refine ⟨earlier ++ [op], obtained_concat.2 (.inl ⟨earlier, rfl, hearlier⟩), ?_⟩
      rw [List.mem_append, List.mem_singleton, not_or]
      exact ⟨hlive, fun h => hop h.symm⟩
    · exact ⟨[], obtained_concat.2 (.inr ⟨rfl, hnew⟩), List.not_mem_nil⟩

/-! ## What a single operation does -/

theorem receive_read (b : Bus) (r : ReceiverId) : Read b (b.receive r).1 r := by
  unfold receive
  split
  · exact .refl b r
  · split
    · exact (Read.refl b r).setMailbox _
    · split
      · exact (Read.refl b r).setMailbox _
      · exact .refl b r

theorem mailbox?_dropReceiver_self : (b.dropReceiver r).mailbox? r = none := by
  unfold mailbox? dropReceiver
  rw [List.lookup_eq_none_iff]
  intro entry hentry
  rw [bne_comm]
  exact (List.mem_filter.1 hentry).2

/-- No channel has a member twice. -/
def Once (b : Bus) : Prop := ∀ ch ∈ b.channels, ch.members.Nodup

theorem Once.membersOf (h : b.Once) (name : String) : (b.membersOf name).Nodup := by
  unfold Bus.membersOf
  cases hfind : b.channels.find? fun ch => ch.name == name with
  | none => exact List.nodup_nil
  | some ch => exact h ch (List.mem_of_find?_eq_some hfind)

theorem once_join {channels : List Channel} (hnew : ∀ ch ∈ channels, r ∉ ch.members)
    (h : ∀ ch ∈ channels, ch.members.Nodup) : ∀ ch ∈ join name r channels, ch.members.Nodup := by
  unfold join
  split
  · intro ch hmem
    obtain ⟨old, hold, rfl⟩ := List.mem_map.1 hmem
    split
    · exact (h old hold).append (List.nodup_singleton r)
        (List.disjoint_singleton.2 (hnew old hold))
    · exact h old hold
  · intro ch hmem
    rcases List.mem_append.1 hmem with hold | hnew
    · exact h ch hold
    · cases List.mem_singleton.1 hnew
      exact List.nodup_singleton r

/-! ## What every history leads to -/

/-- The channels hold the live receivers of their names, each once. -/
structure Faithful (c : Nat) (ops : List Op) : Prop where
  tidy : (after c ops).Tidy
  capacity : (after c ops).capacity = c
  once : (after c ops).Once
  joined : ∀ name r, (after c ops).Joined name r ↔ Live c ops name r
  known : ∀ name r later, Obtained c ops name r later → r < (after c ops).nextReceiver

/-- The empty bus. -/
theorem faithful_nil : Faithful c [] where
  tidy := tidy_ofCapacity c
  capacity := rfl
  once ch hch := by cases hch
  joined name r := by
    constructor
    · rintro ⟨ch, hch, -⟩
      cases hch
    · rintro ⟨later, hobtained, -⟩
      exact absurd hobtained not_obtained_nil
  known name r later hobtained := absurd hobtained not_obtained_nil

/-- An operation by which no receiver is obtained and at most the given one is dropped. -/
theorem Faithful.concat (h : Faithful c ops) (hop : ∀ name, op ≠ .subscribe name)
    (htidy : ((after c ops).step op).Tidy) (hcapacity : ((after c ops).step op).capacity = c)
    (hnext : ((after c ops).step op).nextReceiver = (after c ops).nextReceiver)
    (honce : ((after c ops).step op).Once)
    (hjoined : ∀ name r, ((after c ops).step op).Joined name r ↔
      (after c ops).Joined name r ∧ op ≠ .drop r) : Faithful c (ops ++ [op]) := by
  constructor <;> rw [after_concat]
  · exact htidy
  · exact hcapacity
  · exact honce
  · intro name r
    rw [hjoined, h.joined, live_concat, or_iff_left fun hnew => hop name hnew.1]
  · intro name r later hobtained
    rw [hnext]
    rcases obtained_concat.1 hobtained with ⟨earlier, -, hearlier⟩ | ⟨-, hnew, -⟩
    · exact h.known name r earlier hearlier
    · exact absurd hnew (hop name)

/-- What subscribing leads to. -/
theorem Faithful.subscribed (h : Faithful c ops) (hc : 1 ≤ c) (name : String) :
    (after c ops).subscribe name =
        some ((after c ops).step (.subscribe name), (after c ops).nextReceiver) ∧
      (after c ops).Subscribed ((after c ops).step (.subscribe name)) name
        (after c ops).nextReceiver ∧
      ((after c ops).step (.subscribe name)).nextReceiver = (after c ops).nextReceiver + 1 ∧
      ((after c ops).step (.subscribe name)).channels = join name (after c ops).nextReceiver
        ((after c ops).channels.filter fun ch => !ch.members.isEmpty) := by
  have hcapacity : (after c ops).capacity ≠ 0 := by
    rw [h.capacity]
    omega
  obtain ⟨b', hb', hsubscribed⟩ := h.tidy.subscribe hcapacity name
  obtain ⟨b, hb, hnext, -, hchannels, -⟩ := subscribe_eq hcapacity name
  cases hb.symm.trans hb'
  have hstep : (after c ops).step (.subscribe name) = b' := by
    show (((after c ops).subscribe name).map Prod.fst).getD _ = b'
    rw [hb]
    rfl
  rw [hstep]
  exact ⟨hb, hsubscribed, hnext, hchannels⟩

/-- Subscribing gives the next receiver, whatever the name. -/
theorem Faithful.subscribe_iff (h : Faithful c ops) (hc : 1 ≤ c) :
    (∃ b, (after c ops).subscribe name = some (b, r)) ↔ r = (after c ops).nextReceiver := by
  have hsubscribe := (h.subscribed hc name).1
  constructor
  · rintro ⟨b, hb⟩
    cases hsubscribe.symm.trans hb
    rfl
  · rintro rfl
    exact ⟨_, hsubscribe⟩

theorem Faithful.concat_subscribe (h : Faithful c ops) (hc : 1 ≤ c) (name : String) :
    Faithful c (ops ++ [.subscribe name]) := by
  obtain ⟨-, hsubscribed, hnext, hchannels⟩ := h.subscribed hc name
  constructor <;> rw [after_concat]
  · exact hsubscribed.tidy
  · rw [hsubscribed.capacity, h.capacity]
  · unfold Once
    rw [hchannels]
    refine once_join (fun ch hch hmem => ?_) fun ch hch => h.once ch (List.mem_of_mem_filter hch)
    exact h.tidy.unjoined ch.name ⟨ch, List.mem_of_mem_filter hch, rfl, hmem⟩
  · intro name' r
    have hop : Op.subscribe name ≠ .drop r := nofun
    rw [hsubscribed.joined, h.joined, live_concat, and_iff_left hop, h.subscribe_iff hc,
      Op.subscribe.injEq, eq_comm]
  · intro name' r later hobtained
    rw [hnext]
    rcases obtained_concat.1 hobtained with ⟨earlier, -, hearlier⟩ | ⟨-, -, hnew⟩
    · exact Nat.lt_succ_of_lt (h.known name' r earlier hearlier)
    · rw [(h.subscribe_iff hc).1 hnew]
      exact Nat.lt_succ_self _

theorem Faithful.concat_emit (h : Faithful c ops) (s : Signal) : Faithful c (ops ++ [.emit s]) :=
  h.concat nofun (h.tidy.emit s) h.capacity rfl
    (fun ch hch => h.once ch (List.mem_of_mem_filter hch))
    fun _ _ => joined_emit.trans (and_iff_left nofun).symm

theorem Faithful.concat_receive (h : Faithful c ops) (r : ReceiverId) :
    Faithful c (ops ++ [.receive r]) := by
  have hread := receive_read (after c ops) r
  refine h.concat nofun (hread.tidy h.tidy) (hread.capacity.trans h.capacity) hread.next ?_
    fun _ _ => hread.joined.trans (and_iff_left nofun).symm
  intro ch hch
  rw [show ((after c ops).step (.receive r)).channels = _ from hread.channels] at hch
  exact h.once ch hch

theorem Faithful.concat_drop (h : Faithful c ops) (r : ReceiverId) :
    Faithful c (ops ++ [.drop r]) := by
  refine h.concat nofun (h.tidy.dropReceiver r) h.capacity rfl ?_ fun name r' => ?_
  · intro ch hch
    obtain ⟨old, hold, rfl⟩ := List.mem_map.1 hch
    exact (h.once old hold).filter _
  · rw [show (after c ops).step (.drop r) = (after c ops).dropReceiver r from rfl,
      joined_dropReceiver, ne_eq, ne_eq, Op.drop.injEq, eq_comm]

/-- Whatever is done with a bus, its channels hold the live receivers of their names. -/
theorem faithful (hc : 1 ≤ c) (ops : List Op) : Faithful c ops := by
  induction ops using List.reverseRecOn with
  | nil => exact faithful_nil
  | append_singleton ops op ih =>
    cases op with
    | subscribe name => exact ih.concat_subscribe hc name
    | emit s => exact ih.concat_emit s
    | receive r => exact ih.concat_receive r
    | drop r => exact ih.concat_drop r

/-- A receiver is obtained once. -/
theorem obtained_unique (hc : 1 ≤ c) (h : Obtained c ops name r later)
    (h' : Obtained c ops name' r later') : name = name' ∧ later = later' := by
  induction ops using List.reverseRecOn generalizing later later' with
  | nil => exact absurd h not_obtained_nil
  | append_singleton ops op ih =>
    have hfaithful := faithful hc ops
    -- a receiver that was obtained earlier is not the one that subscribing gives now
    have hnew {name name' : String} {earlier : List Op} (hearlier : Obtained c ops name r earlier)
        (hb : ∃ b, (after c ops).subscribe name' = some (b, r)) : False := by
      rw [hfaithful.subscribe_iff hc] at hb
      exact Nat.ne_of_lt (hfaithful.known _ _ _ hearlier) hb
    rcases obtained_concat.1 h with ⟨earlier, rfl, hearlier⟩ | ⟨rfl, rfl, hb⟩ <;>
      rcases obtained_concat.1 h' with ⟨earlier', rfl, hearlier'⟩ | ⟨rfl, hop, hb'⟩
    · obtain ⟨rfl, rfl⟩ := ih hearlier hearlier'
      exact ⟨rfl, rfl⟩
    · exact (hnew hearlier hb').elim
    · exact (hnew hearlier' hb).elim
    · cases hop
      exact ⟨rfl, rfl⟩

end Bus

end Rundown
