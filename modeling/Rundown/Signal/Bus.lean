import Rundown.Signal.Basic

/-!
# The signal bus

Listeners subscribe to a name and get a receiver; a signal goes to every receiver of its name and to
no other, and is kept nowhere else.  A receiver's mailbox keeps the last signals up to the bus's
retention, the least power of two that is not below the capacity; older ones are dropped and
counted.  Receivers of one name form a channel.  Channels whose receivers are all gone are removed
when somebody subscribes, and the channel of a name when a signal of that name is sent.  A receiver
outside every channel gets no more signals: when its mailbox is empty it is closed.
-/

namespace Rundown

abbrev ReceiverId := Nat

/-- The signals that a receiver has not read, oldest first, and how many were dropped before. -/
structure Mailbox where
  unread : List Signal
  missed : Nat

/-- Puts a signal into a mailbox that keeps `retention` signals. -/
def Mailbox.push (retention : Nat) (s : Signal) (m : Mailbox) : Mailbox :=
  if m.unread.length < retention then ⟨m.unread ++ [s], m.missed⟩
  else ⟨m.unread.drop 1 ++ [s], m.missed + 1⟩

/-- The receivers of one name, in the order of subscription. -/
structure Channel where
  name : String
  members : List ReceiverId

/-- What a receiver finds. -/
inductive Received where
  | signal (s : Signal)
  | lagged (missed : Nat)
  | empty
  | closed

/-- The channels and the mailboxes of their receivers. -/
structure Bus where
  capacity : Nat
  channels : List Channel
  mailboxes : List (ReceiverId × Mailbox)
  nextReceiver : ReceiverId

namespace Bus

/-- Signals kept for each receiver when nothing else is said. -/
def defaultCapacity : Nat := 64

def ofCapacity (capacity : Nat) : Bus := ⟨capacity, [], [], 0⟩

/-- Signals kept for each receiver. -/
def retention (b : Bus) : Nat := b.capacity.nextPowerOfTwo

def membersOf (b : Bus) (name : String) : List ReceiverId :=
  ((b.channels.find? fun c => c.name == name).map Channel.members).getD []

def subscriberCount (b : Bus) (name : String) : Nat := (b.membersOf name).length

def channelCount (b : Bus) : Nat := b.channels.length

def attached (b : Bus) (r : ReceiverId) : Bool := b.channels.any fun c => c.members.contains r

/-- The channels with a receiver added under a name. -/
def join (name : String) (r : ReceiverId) (channels : List Channel) : List Channel :=
  if channels.any fun c => c.name == name then
    channels.map fun c => if c.name == name then { c with members := c.members ++ [r] } else c
  else channels ++ [⟨name, [r]⟩]

/-- A new receiver for a name.  A bus of capacity zero can have none. -/
def subscribe (b : Bus) (name : String) : Option (Bus × ReceiverId) :=
  if b.capacity = 0 then none
  else
    let live := b.channels.filter fun c => !c.members.isEmpty
    some ({ b with
      channels := join name b.nextReceiver live
      mailboxes := b.mailboxes ++ [(b.nextReceiver, ⟨[], 0⟩)]
      nextReceiver := b.nextReceiver + 1 }, b.nextReceiver)

/-- Sends a signal; the second part lists the receivers that got it. -/
def emit (b : Bus) (s : Signal) : Bus × List ReceiverId :=
  let reached := b.membersOf s.name
  ({ b with
    channels := b.channels.filter fun c => !(c.name == s.name && c.members.isEmpty)
    mailboxes := b.mailboxes.map fun (r, m) =>
      if reached.contains r then (r, m.push b.retention s) else (r, m) }, reached)

def setMailbox (b : Bus) (r : ReceiverId) (m : Mailbox) : Bus :=
  { b with mailboxes := b.mailboxes.map fun entry => if entry.1 == r then (r, m) else entry }

/-- Reads what comes next for a receiver.  Dropped signals are reported once, before the oldest kept
one. -/
def receive (b : Bus) (r : ReceiverId) : Bus × Received :=
  match b.mailboxes.lookup r with
  | none => (b, .closed)
  | some m =>
    if m.missed ≠ 0 then (b.setMailbox r { m with missed := 0 }, .lagged m.missed)
    else
      match m.unread with
      | s :: rest => (b.setMailbox r { m with unread := rest }, .signal s)
      | [] => (b, if b.attached r then .empty else .closed)

/-- Reads the oldest kept signal, whatever was dropped before it. -/
def receiveKept (b : Bus) (r : ReceiverId) : Bus × Received :=
  match b.receive r with
  | (b, .lagged _) => b.receive r
  | result => result

def dropReceiver (b : Bus) (r : ReceiverId) : Bus :=
  { b with
    channels := b.channels.map fun c => { c with members := c.members.filter (· != r) }
    mailboxes := b.mailboxes.filter fun entry => entry.1 != r }

/-- The end of the bus: mailboxes can still be read, but no signal can be sent. -/
def close (b : Bus) : Bus := { b with channels := [] }

end Bus

end Rundown
