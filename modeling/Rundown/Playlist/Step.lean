import Rundown.World.Basic
import Rundown.Descriptor.Classify

/-!
# Steps and groups

A compiled playlist is a tree of steps: actions at the leaves, groups inside.  Every group carries
where its own execution stands, so the tree is the whole state of a playlist.

A group is driven from two sides.  Its own task looks at it, and so does the group above it, which
awaits its outcome.  Whoever has looked at an unfinished group is one of its waiters, and waking the
group wakes its waiters in the order in which they first looked.  A group above passes the wake on
to its own waiters, so a wake travels from a leaf to the tasks of all groups around it that are
awaited by somebody.
-/

namespace Rundown

/-- Why a playlist could not be compiled or played, or how it failed. -/
inductive PlaylistError where
  | descriptor (error : DescriptorError)
  | action (error : ActionError)
  | alreadyPlayed
  | noRuntime
  | neverStarted
deriving DecidableEq, Repr

def PlaylistError.message : PlaylistError → String
  | descriptor error => error.message
  | action error => error.message
  | alreadyPlayed => "playlist already played"
  | noRuntime => "play() requires a running tokio runtime"
  | neverStarted => "playlist was dropped before it was played"

/-- What a step or a group ends with. -/
abbrev Outcome := Except PlaylistError Json

/-- What a parallel group does when a branch fails: end at the first failure it sees, or wait for
every branch and then fail. -/
inductive FailurePolicy where
  | failFast
  | settleAll
deriving DecidableEq, Repr

/-- How the group around a step sees it: not launched, launched and awaited, refused at its launch,
or done with an outcome. -/
inductive Slot where
  | idle
  | waiting
  | refused (error : PlaylistError)
  | done (outcome : Outcome)

/-- Who awaits a group. -/
inductive Waiter where
  | parent
  | task
deriving DecidableEq, Repr

/-- Steps one after another, or all together under keys. -/
inductive GroupKind where
  | sequence
  | parallel (keys : List String) (policy : FailurePolicy)
deriving DecidableEq

/-- Where a group stands: not played; given up before it was played; played with an input, but not
looked at since; launched; finished. -/
inductive Stage where
  | created
  | expired
  | triggered (input : Json)
  | running
  | finished (outcome : Outcome)

/-- A group without its steps.  `woken` holds the indices of the branches to look at, in the order
of their wakes, where the group does not look at all of them; `firstFailure` is what a group that
waits for every branch will fail with. -/
structure Group where
  kind : GroupKind
  stage : Stage
  waiters : List Waiter
  woken : List Nat
  firstFailure : Option PlaylistError

/-- A step of a compiled playlist. -/
inductive Step where
  | leaf (slot : Slot) (action : ActionId)
  | group (slot : Slot) (group : Group) (steps : List Step)

/-- What callers can see of a group's life. -/
inductive PlaylistState where
  | created
  | running
  | completed
  | failed
deriving DecidableEq, Repr

namespace PlaylistState

/-- Whether nothing can change any more. -/
def isTerminal : PlaylistState → Bool
  | completed | failed => true
  | _ => false

def word : PlaylistState → String
  | created => "created"
  | running => "running"
  | completed => "completed"
  | failed => "failed"

def inspect : PlaylistState → String
  | created => "Created"
  | running => "Running"
  | completed => "Completed"
  | failed => "Failed"

end PlaylistState

/-- The state that belongs to a stage.  Giving up a playlist leaves it as created. -/
def Stage.state : Stage → PlaylistState
  | created | expired => .created
  | triggered _ | running => .running
  | finished (.ok _) => .completed
  | finished (.error _) => .failed

/-- The outcome of a group that needs no further look. -/
def Stage.outcome? : Stage → Option Outcome
  | expired => some (.error .neverStarted)
  | finished outcome => some outcome
  | _ => none

namespace Group

/-- A group that has not been played. -/
def fresh (kind : GroupKind) : Group := ⟨kind, .created, [], [], none⟩

/-- Largest number of branches that a group ending at the first failure looks at one by one. -/
def smallWidth : Nat := 30

/-- Whether the group looks at woken branches only. -/
def tracksWakes (g : Group) (width : Nat) : Bool :=
  match g.kind with
  | .sequence => false
  | .parallel _ .settleAll => true
  | .parallel _ .failFast => smallWidth < width

def addWaiter (g : Group) (w : Waiter) : Group :=
  if w ∈ g.waiters then g else { g with waiters := g.waiters ++ [w] }

/-- The tasks that waking the group wakes, in order; `above` are those that its parent wakes. -/
def wakes (g : Group) (above : List Task) (own : Task) : List Task :=
  g.waiters.flatMap fun
    | .parent => above
    | .task => [own]

def wakesParent (g : Group) : Bool := g.waiters.contains .parent

/-- Notes that a branch is to be looked at. -/
def enqueue (g : Group) (index : Nat) : Group :=
  if index ∈ g.woken then g else { g with woken := g.woken ++ [index] }

/-- Notes that a branch of a running group has woken it, if the group keeps track of that. -/
def noteWake (g : Group) (index width : Nat) (signalled : Bool) : Group :=
  match g.stage with
  | .running => if signalled && g.tracksWakes width then g.enqueue index else g
  | _ => g

end Group

namespace Step

/-- How the group around the step sees it. -/
def slot : Step → Slot
  | leaf slot _ => slot
  | .group slot _ _ => slot

def withSlot (slot : Slot) : Step → Step
  | leaf _ a => leaf slot a
  | .group _ g steps => .group slot g steps

/-- Whether the group around the step still awaits it. -/
def isDone (s : Step) : Bool :=
  match s.slot with
  | .done _ => true
  | _ => false

/-- The step after the group around it has stopped awaiting it. -/
def forgotten : Step → Step
  | leaf slot a => leaf slot a
  | .group slot g steps =>
    .group slot { g with waiters := g.waiters.filter (· != .parent) } steps

mutual

/-- Number of steps on the longest way down. -/
def height : Step → Nat
  | leaf _ _ => 1
  | .group _ _ steps => heightList steps + 1

def heightList : List Step → Nat
  | [] => 0
  | s :: rest => max s.height (heightList rest)

end

mutual

def size : Step → Nat
  | leaf _ _ => 1
  | .group _ _ steps => sizeList steps + 1

def sizeList : List Step → Nat
  | [] => 0
  | s :: rest => s.size + sizeList rest

end

end Step

end Rundown
