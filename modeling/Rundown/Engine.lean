import Rundown.Playlist.Wake

/-!
# The engine

The engine holds the world and the playlists that have been compiled into it.  It runs one task at a
time: `Engine.runTask` is one step, `Engine.settle` runs tasks until none is ready, and
`Engine.advance` moves the clock and stops at every deadline on the way.  A task that runs goes on
until all that it looks at has to wait; the budget after which the runtime makes it yield has no
counterpart here.
-/

namespace Rundown

/-- A compiled playlist: what it was compiled from, its tree, and the number of its handles. -/
structure Playlist where
  descriptor : Descriptor
  root : Step
  handles : Nat

namespace Playlist

def stage (p : Playlist) : Stage :=
  match p.root with
  | .group _ g _ => g.stage
  | .leaf _ _ => .created

def withStage (p : Playlist) (stage : Stage) : Playlist :=
  match p.root with
  | .group slot g steps => { p with root := .group slot { g with stage := stage } steps }
  | .leaf _ _ => p

/-- The state that a handle shows. -/
def state (p : Playlist) : PlaylistState := p.stage.state

def stepCount (p : Playlist) : Nat :=
  match p.root with
  | .group _ _ steps => steps.length
  | .leaf _ _ => 0

def inspectHandle (p : Playlist) (id : String) : String :=
  "PlaylistHandle \x7b id: " ++ Text.inspect id ++ ", state: " ++ p.state.inspect ++ " \x7d"

def inspect (p : Playlist) (id : String) : String :=
  "Playlist \x7b id: " ++ Text.inspect id ++ ", steps: " ++ toString p.stepCount ++
    ", descriptor: " ++ p.descriptor.inspect ++ " \x7d"

end Playlist

/-- The world and the playlists in it. -/
structure Engine where
  world : World
  playlists : List Playlist

namespace Engine

def ofCapacity (capacity : Nat) : Engine := ⟨World.ofCapacity capacity, []⟩

def rootSite (id : PlaylistId) : Site := ⟨id, [], []⟩

/-! ### Settling from outside -/

/-- Wakes whoever awaits a completion, in the playlists from the given number on. -/
def wakeFrom (a : ActionId) : PlaylistId → List Playlist → World → List Playlist × World
  | _, [], w => ([], w)
  | id, p :: rest, w =>
    let (root, w, _) := p.root.wake a (rootSite id) w
    let (rest, w) := wakeFrom a (id + 1) rest w
    ({ p with root := root } :: rest, w)

/-- Wakes whoever awaits a completion. -/
def wake (e : Engine) (a : ActionId) : Engine :=
  let (playlists, w) := wakeFrom a 0 e.playlists e.world
  ⟨w, playlists⟩

/-- The engine with another world, in which a completion may have settled. -/
def withSettled (e : Engine) (result : World × Option ActionId) : Engine :=
  let e := { e with world := result.1 }
  match result.2 with
  | some a => e.wake a
  | none => e

/-- Settles a completion and wakes whoever awaits it. -/
def settleAction (e : Engine) (a : ActionId) (s : Settlement) : Engine × Bool :=
  let (w, settled) := e.world.settle a s
  (e.withSettled (w, if settled then some a else none), settled)

/-- Settles the completion that was parked last under a name. -/
def settleParked (e : Engine) (name : String) (s : Settlement) : Engine × Bool :=
  match e.world.parked.lookup name with
  | some a => e.settleAction a s
  | none => (e, false)

/-- Sends a signal; the number of receivers that got it. -/
def emit (e : Engine) (s : Signal) : Engine × Nat :=
  let (w, reached) := e.world.emit s
  ({ e with world := w }, reached)

/-! ### Handles -/

def addPlaylist (e : Engine) (descriptor : Descriptor) (root : Step) : Engine × PlaylistId :=
  ({ e with playlists := e.playlists ++ [⟨descriptor, root, 1⟩] }, e.playlists.length)

def modifyPlaylist (e : Engine) (id : PlaylistId) (f : Playlist → Playlist) : Engine :=
  { e with playlists := e.playlists.modify id f }

/-- Plays a playlist: hands the input to its first steps and makes its task ready.  Only the first
play inside the runtime counts. -/
def play (e : Engine) (id : PlaylistId) (input : Json) (inRuntime : Bool) :
    Engine × Except PlaylistError Unit :=
  if !inRuntime then (e, .error .noRuntime)
  else
    match e.playlists[id]?.map Playlist.stage with
    | some .created =>
      let e := e.modifyPlaylist id fun p => p.withStage (.triggered input)
      ({ e with world := e.world.schedule (rootSite id).task }, .ok ())
    | _ => (e, .error .alreadyPlayed)

def cloneHandle (e : Engine) (id : PlaylistId) : Engine :=
  e.modifyPlaylist id fun p => { p with handles := p.handles + 1 }

/-- One handle of a playlist less.  A playlist that has not been played when its last handle goes
can never be played. -/
def dropHandle (e : Engine) (id : PlaylistId) : Engine :=
  e.modifyPlaylist id fun p =>
    let p := { p with handles := p.handles - 1 }
    match p.stage with
    | .created => if p.handles = 0 then p.withStage .expired else p
    | _ => p

/-- The outcome of a playlist, as far as it is known without a look. -/
def outcome? (e : Engine) (id : PlaylistId) : Option Outcome :=
  e.playlists[id]?.bind fun p => p.stage.outcome?

/-- A look at a playlist's completion by somebody who does not wait for it. -/
def pollCompletion (e : Engine) (id : PlaylistId) : Engine × Option Outcome :=
  match e.playlists[id]? with
  | none => (e, none)
  | some p =>
    let polled := p.root.poll (rootSite id) none e.world
    let e := e.modifyPlaylist id fun p => { p with root := polled.step }
    ({ e with world := polled.world }, polled.outcome)

/-! ### Running tasks -/

/-- Runs one task; the second part tells whether the task is over. -/
def perform (e : Engine) : Task → Engine × Bool
  | .timer id =>
    let e := e.withSettled (e.world.runTimer id)
    (e, !(e.world.timers.any fun t => t.id == id))
  | .listener r =>
    let e := e.withSettled (e.world.runListener r)
    (e, !(e.world.listeners.any fun l => l.receiver == r))
  | .group id place =>
    match e.playlists[id]? with
    | none => (e, true)
    | some p =>
      let polled := p.root.pollPlace place (rootSite id) e.world
      let e := e.modifyPlaylist id fun p => { p with root := polled.step }
      ({ e with world := polled.world }, polled.outcome.isSome)

/-- Runs a task that has been taken from its queue.  If it was woken meanwhile and is not over, it
is queued again. -/
def runTask (e : Engine) (t : Task) : Engine :=
  let w : World := { e.world with running := some t, rewoken := false }
  let (e, ended) := { e with world := w }.perform t
  let w := { e.world with running := none, rewoken := false }
  { e with world := if e.world.rewoken && !ended then w.enqueue t else w }

/-- Runs the next task, if one is ready.  The arrivals have to wait for the others. -/
def next? (e : Engine) : Option Engine :=
  match e.world.ready, e.world.arrivals with
  | t :: rest, _ => some ({ e with world := { e.world with ready := rest } }.runTask t)
  | [], t :: rest => some ({ e with world := { e.world with arrivals := rest } }.runTask t)
  | [], [] => none

/-- Runs at most so many tasks. -/
def run : Nat → Engine → Engine
  | 0, e => e
  | rounds + 1, e =>
    match e.next? with
    | none => e
    | some e => run rounds e

/-- More rounds than the tasks of the engine can take before none is ready. -/
def rounds (e : Engine) : Nat :=
  let steps := e.playlists.foldl (fun n p => n + p.root.size) 0
  let queued := e.world.ready.length + e.world.arrivals.length
  16 * Nat.pow (steps + e.world.timers.length + e.world.listeners.length + queued + 4) 3

def settle (e : Engine) : Engine := run e.rounds e

/-- Moves the clock to the deadlines up to `target`, at most so many, and runs everything ready at
each of them. -/
def advanceTo (target : Nat) : Nat → Engine → Engine
  | 0, e => e
  | stops + 1, e =>
    match e.world.nextDeadline? target with
    | none => e
    | some now => advanceTo target stops ({ e with world := e.world.moveClock now }.settle)

/-- Moves the clock by some milliseconds.  Every stop is later than the one before, so there are no
more stops than milliseconds. -/
def advance (e : Engine) (ms : Nat) : Engine :=
  let target := e.world.clock + ms
  let e := advanceTo target (ms + 1) e.settle
  ({ e with world := e.world.moveClock target }).settle

end Engine

end Rundown
