import Mathlib.Data.Set.Card
import Rundown.Proofs.Signal.History

/-!
# Which names have a channel

A receiver leaves its channel without anybody noticing, so a bus may hold channels that nobody is in
any more.  Subscribing drops all of these, and sending drops the one of the signal's name.
`Bus.channels_spec` says what the bus holds then, and that nothing ever drops a channel that
somebody is in.
-/

namespace Rundown.Bus

variable {b : Bus} {c : Nat} {ops : List Op} {s : Signal} {r : ReceiverId} {name name' : String}

/-- The channel of a name. -/
def channel? (b : Bus) (name : String) : Option Channel :=
  b.channels.find? fun ch => ch.name == name

/-- Some receiver of the name is live. -/
def Attended (c : Nat) (ops : List Op) (name : String) : Prop := ∃ r, Live c ops name r

theorem channel?_isSome_iff :
    (b.channel? name).isSome = true ↔ ∃ ch ∈ b.channels, ch.name = name := by
  simp [channel?]

/-- A name that a receiver is joined to has a channel. -/
theorem Joined.channel? (h : b.Joined name r) : (b.channel? name).isSome = true := by
  obtain ⟨ch, hch, hname, -⟩ := h
  exact channel?_isSome_iff.2 ⟨ch, hch, hname⟩

/-- No channel is empty. -/
def Swept (b : Bus) : Prop := ∀ ch ∈ b.channels, ch.members ≠ []

theorem swept_join {channels : List Channel} (h : ∀ ch ∈ channels, ch.members ≠ []) :
    ∀ ch ∈ join name r channels, ch.members ≠ [] := by
  unfold join
  split
  · intro ch hmem
    obtain ⟨old, hold, rfl⟩ := List.mem_map.1 hmem
    split
    · exact List.append_ne_nil_of_right_ne_nil _ (List.cons_ne_nil _ _)
    · exact h old hold
  · intro ch hmem
    rcases List.mem_append.1 hmem with hold | hnew
    · exact h ch hold
    · cases List.mem_singleton.1 hnew
      exact List.cons_ne_nil _ _

/-- Sending leaves the channels of other names alone. -/
theorem channel?_emit_ne (h : name ≠ s.name) : (b.emit s).1.channel? name = b.channel? name := by
  unfold channel? emit
  rw [List.find?_filter]
  congr 1
  funext ch
  by_cases hname : ch.name = name
  · simp [hname, h]
  · simp [hname]

/-- The channel of the signal's name is left if somebody is in it. -/
theorem joined_of_channel?_emit (h : ((b.emit s).1.channel? s.name).isSome = true) :
    ∃ r, b.Joined s.name r := by
  obtain ⟨ch, hch, hname⟩ := channel?_isSome_iff.1 h
  obtain ⟨hch, hkept⟩ := List.mem_filter.1 hch
  cases hmembers : ch.members with
  | nil => simp [hname, hmembers] at hkept
  | cons r rest => exact ⟨r, ch, hch, hname, hmembers ▸ List.mem_cons_self⟩

section

variable (hc : 1 ≤ c)

include hc

/-- A name with a live receiver has a channel. -/
theorem channel?_of_attended (h : Attended c ops name) :
    ((after c ops).channel? name).isSome = true := by
  obtain ⟨r, hlive⟩ := h
  exact (((faithful hc ops).joined name r).2 hlive).channel?

/-- Subscribing leaves no empty channel. -/
theorem swept_subscribe (ops : List Op) (m : String) : (after c (ops ++ [.subscribe m])).Swept := by
  obtain ⟨-, -, -, hchannels⟩ := (faithful hc ops).subscribed hc m
  rw [after_concat, Swept, hchannels]
  refine swept_join fun ch hch => ?_
  have hmembers := (List.mem_filter.1 hch).2
  simpa using hmembers

/-- Of a bus without empty channels, the names with a channel are those with a live receiver. -/
theorem channel?_iff_of_swept (h : (after c ops).Swept) :
    ((after c ops).channel? name).isSome = true ↔ Attended c ops name := by
  refine ⟨fun hsome => ?_, channel?_of_attended hc⟩
  obtain ⟨ch, hch, hname⟩ := channel?_isSome_iff.1 hsome
  obtain ⟨r, hr⟩ := List.exists_mem_of_ne_nil _ (h ch hch)
  exact ⟨r, ((faithful hc ops).joined name r).1 ⟨ch, hch, hname, hr⟩⟩

/-- It has as many channels as there are such names. -/
theorem channelCount_of_swept (h : (after c ops).Swept) :
    (after c ops).channelCount = {name | Attended c ops name}.ncard := by
  have hset : {name | Attended c ops name} =
      (((after c ops).channels.map Channel.name).toFinset : Set String) := by
    ext name
    rw [Set.mem_ofPred_eq, ← channel?_iff_of_swept hc h, channel?_isSome_iff]
    simp
  rw [hset, Set.ncard_coe_finset, List.toFinset_card_of_nodup (faithful hc ops).tidy.names,
    List.length_map, channelCount]

theorem attended_subscribe (ops : List Op) (m : String) :
    Attended c (ops ++ [.subscribe m]) m :=
  ⟨_, live_concat.2 (.inr ⟨rfl, _, ((faithful hc ops).subscribed hc m).1⟩)⟩

end

theorem attended_emit : Attended c (ops ++ [.emit s]) name ↔ Attended c ops name := by
  refine exists_congr fun r => ?_
  rw [live_concat, and_iff_left nofun, or_iff_left]
  rintro ⟨h, -⟩
  cases h

/-- Whatever has been done with a bus: every name with a live receiver has a channel.  After a
subscription the names with a channel are those with a live receiver, the new one among them, and
the channels are counted as these names are.  After a signal has been sent, its name has a channel
exactly if it has a live receiver, and the channels of other names are as they were. -/
theorem channels_spec (c : Nat) (hc : 1 ≤ c) (ops : List Op) :
    (∀ name, Attended c ops name → ((after c ops).channel? name).isSome = true) ∧
    (∀ m, Attended c (ops ++ [.subscribe m]) m ∧
      (∀ name, ((after c (ops ++ [.subscribe m])).channel? name).isSome = true ↔
        Attended c (ops ++ [.subscribe m]) name) ∧
      (after c (ops ++ [.subscribe m])).channelCount =
        {name | Attended c (ops ++ [.subscribe m]) name}.ncard) ∧
    ∀ s, (((after c (ops ++ [.emit s])).channel? s.name).isSome = true ↔
        Attended c (ops ++ [.emit s]) s.name) ∧
      ∀ name, name ≠ s.name →
        (after c (ops ++ [.emit s])).channel? name = (after c ops).channel? name := by
  refine ⟨fun _ => channel?_of_attended hc, fun m => ?_, fun s => ?_⟩
  · have hswept := swept_subscribe hc ops m
    exact ⟨attended_subscribe hc ops m, fun _ => channel?_iff_of_swept hc hswept,
      channelCount_of_swept hc hswept⟩
  · refine ⟨⟨fun hsome => ?_, channel?_of_attended hc⟩, fun name hname => ?_⟩
    · rw [after_concat] at hsome
      obtain ⟨r, hjoined⟩ := joined_of_channel?_emit hsome
      exact attended_emit.2 ⟨r, ((faithful hc ops).joined s.name r).1 hjoined⟩
    · rw [after_concat]
      exact channel?_emit_ne hname

/-- Names whose receivers have gone, while nobody subscribed or sent. -/
def abandoned : List Op :=
  [.subscribe "north", .subscribe "south", .subscribe "north", .drop 0, .subscribe "east", .drop 1,
    .drop 3]

/-- Two of the three channels are empty.  A signal removes one of them, a subscription both. -/
theorem channels_spec_abandoned :
    (after 2 abandoned).channelCount = 3 ∧
      ((after 2 abandoned).channel? "north").isSome = true ∧
      ((after 2 (abandoned ++ [.emit ⟨"east", .fail "nobody"⟩])).channel? "south").isSome = true ∧
      ¬Attended 2 (abandoned ++ [.emit ⟨"east", .fail "nobody"⟩]) "east" ∧
      {name | Attended 2 (abandoned ++ [.subscribe "west"]) name}.ncard = 2 := by
  obtain ⟨hattended, hsubscribe, hemit⟩ := channels_spec 2 (by decide) abandoned
  have hnorth : Attended 2 abandoned "north" :=
    ⟨2, [.drop 0, .subscribe "east", .drop 1, .drop 3],
      ⟨[.subscribe "north", .subscribe "south"], _, rfl, rfl⟩, by decide⟩
  obtain ⟨heast, hothers⟩ := hemit ⟨"east", .fail "nobody"⟩
  refine ⟨by decide, hattended "north" hnorth, ?_, ?_, ?_⟩
  · rw [hothers "south" (by decide)]
    decide
  · rw [← heast]
    decide
  · rw [← (hsubscribe "west").2.2]
    decide

end Rundown.Bus
