import Rundown.Action.Basic
import Rundown.Descriptor.Basic
import Rundown.Signal.Bus

/-!
# The world in which actions run

The world holds every built action with its completion, the clock with its timers, the signal bus
with its listeners, and the tasks that are ready to run.  A task that is made ready by a running one
or by the clock waits in the queue `ready`; one that is made ready from outside, while no task runs,
waits in `arrivals` until `ready` is empty.  A task is queued at most once.  A task that is woken
while it runs goes to the end of `ready` when it stops.
-/

namespace Rundown

/-- A built action and its completion.  `started` tells whether the right to await the completion
has been taken; `holders` counts who could still settle it. -/
structure Instance where
  action : Action
  started : Bool
  settlement : Option Settlement
  holders : Nat

abbrev TimerId := Nat

/-- A delayed completion.  Its deadline is set when its task runs for the first time. -/
structure Timer where
  id : TimerId
  action : ActionId
  delay : Duration
  value : Json
  deadline : Option Nat

/-- An action that waits for a signal.  One that was told to end never looks at a signal again. -/
structure Listener where
  receiver : ReceiverId
  action : ActionId
  name : String
  ended : Bool

abbrev PlaylistId := Nat

/-- What can be ready to run: a timer, a listener, or the group of a playlist that is reached from
its root by the given indices. -/
inductive Task where
  | timer (id : TimerId)
  | listener (receiver : ReceiverId)
  | group (playlist : PlaylistId) (place : List Nat)
deriving DecidableEq, Repr

/-- Everything that actions can see or change. -/
structure World where
  clock : Nat
  /-- Tasks that running tasks or the clock made ready. -/
  ready : List Task
  /-- Tasks that were made ready while no task ran.  They wait until nothing else is ready. -/
  arrivals : List Task
  running : Option Task
  /-- Whether the running task has been woken meanwhile. -/
  rewoken : Bool
  instances : List Instance
  timers : List Timer
  nextTimer : TimerId
  /-- Listeners, those that have looked in vain in the order in which they did. -/
  listeners : List Listener
  bus : Bus
  busHolders : Nat
  /-- Every begin with its input, in order. -/
  begun : List (ActionId × Json)
  /-- Completions left for somebody outside, the latest first.  Each has a holder outside until a
  clone of it is dropped, also when a later one is left under its name. -/
  parked : List (String × ActionId)
  /-- Whether somebody subscribed to a bus of capacity zero. -/
  fault : Bool

namespace World

/-- A world without actions, at time zero, whose bus has the given capacity and one holder. -/
def ofCapacity (capacity : Nat) : World where
  clock := 0
  ready := []
  arrivals := []
  running := none
  rewoken := false
  instances := []
  timers := []
  nextTimer := 0
  listeners := []
  bus := Bus.ofCapacity capacity
  busHolders := 1
  begun := []
  parked := []
  fault := false

/-! ### Tasks -/

/-- Whether a task waits in one of the queues. -/
def isQueued (w : World) (t : Task) : Bool := t ∈ w.ready || t ∈ w.arrivals

/-- Puts a task at the end of `ready`, if it is not queued. -/
def enqueue (w : World) (t : Task) : World :=
  if w.isQueued t then w else { w with ready := w.ready ++ [t] }

/-- Puts a task at the end of `arrivals`, if it is not queued. -/
def arrive (w : World) (t : Task) : World :=
  if w.isQueued t then w else { w with arrivals := w.arrivals ++ [t] }

/-- Makes a task ready: among those of the running task if there is one, else among the arrivals.
The running task itself is only marked. -/
def schedule (w : World) (t : Task) : World :=
  match w.running with
  | none => w.arrive t
  | some current => if current = t then { w with rewoken := true } else w.enqueue t

def scheduleAll (w : World) (ts : List Task) : World := ts.foldl schedule w

/-! ### Completions -/

def settlement? (w : World) (a : ActionId) : Option Settlement :=
  w.instances[a]?.bind Instance.settlement

def isSettled (w : World) (a : ActionId) : Bool := (w.settlement? a).isSome

def inspectCompletion (w : World) (a : ActionId) : String :=
  "Completion \x7b settled: " ++ (if w.isSettled a then "true" else "false") ++ " \x7d"

def modifyInstance (w : World) (a : ActionId) (f : Instance → Instance) : World :=
  { w with instances := w.instances.modify a f }

/-- Settles a completion.  Only the first settlement counts; the second part tells whether this is
it. -/
def settle (w : World) (a : ActionId) (s : Settlement) : World × Bool :=
  if w.isSettled a then (w, false)
  else (w.modifyInstance a fun i => { i with settlement := some s }, true)

def addAction (w : World) (action : Action) : World × ActionId :=
  ({ w with
    instances := w.instances ++ [⟨action, false, none, 1⟩]
    busHolders := if action.holdsBus then w.busHolders + 1 else w.busHolders }, w.instances.length)

def retain (w : World) (a : ActionId) : World :=
  w.modifyInstance a fun i => { i with holders := i.holders + 1 }

/-- One holder of a completion less.  When the last one goes, an unsettled completion is
abandoned. -/
def release (w : World) (a : ActionId) : World :=
  w.modifyInstance a fun i =>
    { i with
      holders := i.holders - 1
      settlement :=
        if i.holders ≤ 1 then i.settlement.or (some (.error .abandoned)) else i.settlement }

/-! ### The bus -/

/-- The tasks of the listeners to which some of the receivers belong. -/
def listenerTasks (w : World) (receivers : List ReceiverId) : List Task :=
  (w.listeners.filter fun l => receivers.contains l.receiver).map fun l => .listener l.receiver

/-- Sends a signal; the number of receivers that got it. -/
def emit (w : World) (s : Signal) : World × Nat :=
  let (bus, reached) := w.bus.emit s
  let sent : World := { w with bus := bus }
  (sent.scheduleAll (w.listenerTasks reached), reached.length)

/-- Subscribes somebody who is not an action. -/
def subscribe (w : World) (name : String) : World × ReceiverId :=
  match w.bus.subscribe name with
  | some (bus, r) => ({ w with bus := bus }, r)
  | none => ({ w with fault := true }, 0)

/-- One holder of the bus less.  When the last one goes, the bus closes and its listeners notice. -/
def releaseBus (w : World) : World :=
  if w.busHolders ≤ 1 then
    let closed : World := { w with busHolders := 0, bus := w.bus.close }
    closed.scheduleAll (w.listeners.map fun l => .listener l.receiver)
  else { w with busHolders := w.busHolders - 1 }

/-! ### Beginning an action -/

/-- Carries out one effect of beginning an action. -/
def perform (a : ActionId) (w : World) : Effect → World
  | .settle s => (w.settle a s).1
  | .completeAfter delay value =>
    let held := w.retain a
    let waiting : World := { held with
      timers := w.timers ++ [⟨w.nextTimer, a, delay, value, none⟩]
      nextTimer := w.nextTimer + 1 }
    waiting.schedule (.timer w.nextTimer)
  | .listen name =>
    match w.bus.subscribe name with
    | none => { w with fault := true }
    | some (bus, r) =>
      let held := w.retain a
      let listening : World := { held with
        bus := bus
        listeners := w.listeners ++ [⟨r, a, name, false⟩] }
      listening.schedule (.listener r)
  | .emit s => (w.emit s).1
  | .park name =>
    let held := w.retain a
    { held with parked := (name, a) :: w.parked }

/-- Begins an action and takes the right to await its completion.  An action that has been begun is
refused, and nothing happens. -/
def beginAction (w : World) (a : ActionId) (input : Json) : World × Bool :=
  match w.instances[a]? with
  | none => (w, false)
  | some i =>
    if i.started then (w, false)
    else
      let w := w.modifyInstance a fun i => { i with started := true }
      ((i.action.onBegin input).foldl (perform a) { w with begun := w.begun ++ [(a, input)] }, true)

/-- Tells an action to stop listening.  An action that does not listen takes no notice. -/
def endAction (w : World) (a : ActionId) : World :=
  let ending := w.listeners.filter fun l => l.action == a && !l.ended
  let told : World := { w with
    listeners := w.listeners.map fun l => if l.action == a then { l with ended := true } else l }
  told.scheduleAll (ending.map fun l => .listener l.receiver)

/-- Gives up an action.  Its completion and the bus lose a holder. -/
def dropAction (w : World) (a : ActionId) : World :=
  let onBus := (w.instances[a]?.map fun i => i.action.holdsBus).getD false
  (if onBus then w.releaseBus else w).release a

/-! ### Tasks of timers and listeners

Both answer with the action whose completion they settled, so that whoever awaits it can be woken.
-/

/-- A timer that has run out completes its action; one that runs for the first time gets its
deadline. -/
def runTimer (w : World) (id : TimerId) : World × Option ActionId :=
  match w.timers.find? fun t => t.id == id with
  | none => (w, none)
  | some t =>
    let deadline := t.deadline.getD (w.clock + t.delay.timerMillis)
    let others := w.timers.filter fun t => t.id != id
    if deadline ≤ w.clock then
      let stopped : World := { w with timers := others }
      let (w, settled) := stopped.settle t.action (.ok t.value)
      (w.release t.action, if settled then some t.action else none)
    else if t.deadline.isSome then (w, none)
    else ({ w with timers := others ++ [{ t with deadline := some deadline }] }, none)

def dropListener (w : World) (l : Listener) : World :=
  { w with
    listeners := w.listeners.filter fun other => other.receiver != l.receiver
    bus := w.bus.dropReceiver l.receiver }

def settlementOf (s : Signal) : Settlement :=
  match s.kind with
  | .complete payload => .ok payload
  | .fail reason => .error (.failed reason)

/-- A listener settles its action with the oldest signal in its mailbox, or fails it when the bus is
closed.  If there is neither it waits behind the other listeners.  One that was told to end only
goes away. -/
def runListener (w : World) (r : ReceiverId) : World × Option ActionId :=
  match w.listeners.find? fun l => l.receiver == r with
  | none => (w, none)
  | some l =>
    let finish (w : World) (s : Settlement) : World × Option ActionId :=
      let (w, settled) := w.settle l.action s
      ((w.dropListener l).release l.action, if settled then some l.action else none)
    if l.ended then
      let pending := !w.isSettled l.action
      let w := (w.dropListener l).release l.action
      (w, if pending && w.isSettled l.action then some l.action else none)
    else
      let (bus, received) := w.bus.receiveKept r
      let w := { w with bus := bus }
      match received with
      | .signal s => finish w (settlementOf s)
      | .closed => finish w (.error (.failed ("signal bus closed while awaiting " ++ l.name)))
      | _ =>
        let others := w.listeners.filter fun other => other.receiver != r
        ({ w with listeners := others ++ [l] }, none)

/-! ### The clock -/

/-- The next deadline that is not later than `limit`. -/
def nextDeadline? (w : World) (limit : Nat) : Option Nat :=
  ((w.timers.filterMap Timer.deadline).filter (· ≤ limit)).min?

/-- Moves the clock and makes the timers that run out ready, in the order in which their deadlines
were set. -/
def moveClock (w : World) (now : Nat) : World :=
  let due := w.timers.filter fun t => match t.deadline with
    | some d => d ≤ now
    | none => false
  let moved : World := { w with clock := now }
  (due.map fun t => Task.timer t.id).foldl enqueue moved

end World

end Rundown
