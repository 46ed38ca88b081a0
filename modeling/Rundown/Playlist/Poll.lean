import Rundown.Playlist.Step

/-!
# Looking at a step

`Step.poll` looks at a step: a leaf is ready when its completion has settled, and a group goes on as
far as it can.  A sequence launches its next step when the current one is ready.  A parallel group
launches all its branches before it looks at any.  One that ends at the first failure and has at
most `Group.smallWidth` branches looks at every unfinished branch in order.  The other parallel
groups look at woken branches only, in the order of their wakes, and those of them that end at the
first failure take outcomes strictly in the order of their branches.
-/

namespace Rundown

/-- Where a step stands in its playlist, and the tasks that are woken with the group around it. -/
structure Site where
  playlist : PlaylistId
  place : List Nat
  above : List Task

namespace Site

/-- The task of the group at the site. -/
def task (site : Site) : Task := .group site.playlist site.place

/-- The site of a step of the group at the site; waking that group wakes `above`. -/
def child (site : Site) (above : List Task) (index : Nat) : Site :=
  ⟨site.playlist, site.place ++ [index], above⟩

end Site

/-- What a look at a step leaves behind.  `signalled` tells whether the group around it was woken
meanwhile. -/
structure Polled where
  step : Step
  world : World
  outcome : Option Outcome
  signalled : Bool

/-- What a look at the steps of a group leaves behind.  `signalled` tells whether the group itself
was woken meanwhile. -/
structure Drive where
  group : Group
  steps : List Step
  world : World
  outcome : Option Outcome
  signalled : Bool

def Drive.cons (s : Step) (signalled : Bool) (d : Drive) : Drive :=
  { d with steps := s :: d.steps, signalled := signalled || d.signalled }

/-- How a group looks at its step with the given index. -/
abbrev Look := Nat → Step → World → Polled

/-- How a group launches its step with the given index. -/
abbrev Launch := Nat → Json → Step → World → Step × World

namespace Step

/-- Launches a step.  A leaf begins at once.  A group only gets its input, and its own task is made
ready. -/
def launch (site : Site) (input : Json) (s : Step) (w : World) : Step × World :=
  match s with
  | leaf _ a =>
    let (w, begun) := w.beginAction a input
    (leaf (if begun then .waiting else .refused (.action .alreadyStarted)) a, w)
  | .group _ g steps =>
    match g.stage with
    | .created => (.group .waiting { g with stage := .triggered input } steps, w.schedule site.task)
    | _ => (.group (.refused .alreadyPlayed) g steps, w)

/-- Launches steps from the given index on, all with the same input. -/
def launchAll (launch : Launch) (input : Json) : Nat → List Step → World → List Step × World
  | _, [], w => ([], w)
  | index, s :: rest, w =>
    let (s, w) := launch index input s w
    let (rest, w) := launchAll launch input (index + 1) rest w
    (s :: rest, w)

/-- The outcome that the group around the step has taken from it. -/
def taken? (s : Step) : Option Outcome :=
  match s.slot with
  | .done outcome => some outcome
  | _ => none

/-- The values of steps that are all done, if none of them failed. -/
def takenValues : List Step → Option (List Json)
  | [] => some []
  | s :: rest =>
    match s.taken? with
    | some (.ok v) => (takenValues rest).map (v :: ·)
    | _ => none

/-- The outcome of branches taken in order: the failure of the first branch that is not done with
success, unless that branch is still to come. -/
def takenInOrder (keys : List String) (steps : List Step) : Option Outcome :=
  match steps.find? fun s => !(s.taken? matches some (.ok _)) with
  | some s => s.taken?
  | none => (takenValues steps).map fun values => .ok (Json.ofFields (keys.zip values))

end Step

namespace Group

/-- The outcome of a parallel group whose branches stand like this, if it has one. -/
def verdict (g : Group) (steps : List Step) : Option Outcome :=
  match g.kind with
  | .sequence => none
  | .parallel keys .failFast => Step.takenInOrder keys steps
  | .parallel keys .settleAll =>
    if steps.all Step.isDone then
      match g.firstFailure with
      | some e => some (.error e)
      | none => Step.takenInOrder keys steps
    else none

def note (g : Group) (outcome : Outcome) : Group :=
  match outcome with
  | .error e => { g with firstFailure := g.firstFailure.or (some e) }
  | .ok _ => g

/-- Drives a sequence.  Without a `carry` the first step that is not done is looked at; a `carry` is
the value with which the first of the steps is launched. -/
def driveSequence (g : Group) (look : Look) (launch : Launch) :
    Nat → Option Json → List Step → World → Drive
  | _, carry, [], w => ⟨g, [], w, some (.ok (carry.getD .null)), false⟩
  | index, carry, s :: rest, w =>
    if carry.isNone && s.isDone then
      (driveSequence g look launch (index + 1) none rest w).cons s false
    else
      let (s, w) := match carry with
        | some input => launch index input s w
        | none => (s, w)
      let p := look index s w
      match p.outcome with
      | none => ⟨g, p.step :: rest, p.world, none, p.signalled⟩
      | some (.error e) =>
        ⟨g, p.step.withSlot (.done (.error e)) :: rest, p.world, some (.error e), p.signalled⟩
      | some (.ok v) =>
        (driveSequence g look launch (index + 1) (some v) rest p.world).cons
          (p.step.withSlot (.done (.ok v))) p.signalled

/-- Looks at every branch that is not done, up to the first failure. -/
def driveEach (g : Group) (look : Look) : Nat → List Step → World → Drive
  | _, [], w => ⟨g, [], w, none, false⟩
  | index, s :: rest, w =>
    if s.isDone then (driveEach g look (index + 1) rest w).cons s false
    else
      let p := look index s w
      match p.outcome with
      | none => (driveEach g look (index + 1) rest p.world).cons p.step p.signalled
      | some (.error e) =>
        ⟨g, p.step.withSlot (.done (.error e)) :: rest, p.world, some (.error e), p.signalled⟩
      | some (.ok v) =>
        (driveEach g look (index + 1) rest p.world).cons
          (p.step.withSlot (.done (.ok v))) p.signalled

/-- Looks at woken branches.  A branch may be woken while it is looked at and is then queued again.
The group stops for now, and wakes itself, when two branches did so since the last outcome, or when
as many branches were looked at since then as were open at the time.  Every round either looks at a
branch or drops a stale entry, which bounds the rounds by the square of the width. -/
def driveWoken (look : Look) (tasks : List Task) :
    (fuel : Nat) → (live looked again : Nat) → Drive → Drive
  | 0, _, _, _, d => d
  | fuel + 1, live, looked, again, d =>
    match d.group.woken with
    | [] => d
    | index :: woken =>
      let group := { d.group with woken := woken }
      match d.steps[index]? with
      | none => driveWoken look tasks fuel live looked again { d with group := group }
      | some s =>
        if s.isDone then driveWoken look tasks fuel live looked again { d with group := group }
        else
          let p := look index s d.world
          let group := if p.signalled then group.enqueue index else group
          let signalled := d.signalled || p.signalled
          match p.outcome with
          | none =>
            let steps := d.steps.set index p.step
            let again := if p.signalled then again + 1 else again
            if 2 ≤ again ∨ looked + 1 = live then
              ⟨group, steps, p.world.scheduleAll tasks, none, true⟩
            else
              driveWoken look tasks fuel live (looked + 1) again
                ⟨group, steps, p.world, none, signalled⟩
          | some outcome =>
            let steps := d.steps.set index (p.step.withSlot (.done outcome))
            let group := group.note outcome
            match group.verdict steps with
            | some verdict => ⟨group, steps, p.world, some verdict, signalled⟩
            | none =>
              driveWoken look tasks fuel (live - 1) 0 0 ⟨group, steps, p.world, none, signalled⟩

/-- Drives a parallel group whose branches have been launched. -/
def driveParallel (g : Group) (look : Look) (tasks : List Task) (steps : List Step) (w : World) :
    Drive :=
  match g.verdict steps with
  | some verdict => ⟨g, steps, w, some verdict, false⟩
  | none =>
    if g.tracksWakes steps.length then
      let width := steps.length + 2
      let live := (steps.filter fun s => !s.isDone).length
      driveWoken look tasks (width * width + g.woken.length) live 0 0 ⟨g, steps, w, none, false⟩
    else
      let d := g.driveEach look 0 steps w
      { d with outcome := d.outcome.or (g.verdict d.steps) }

def drive (g : Group) (look : Look) (launch : Launch) (tasks : List Task) (steps : List Step)
    (w : World) : Drive :=
  match g.kind with
  | .sequence => g.driveSequence look launch 0 none steps w
  | .parallel _ _ => g.driveParallel look tasks steps w

def start (g : Group) (look : Look) (launch : Launch) (tasks : List Task) (input : Json)
    (steps : List Step) (w : World) : Drive :=
  let g := { g with stage := .running }
  match g.kind with
  | .sequence => g.driveSequence look launch 0 (some input) steps w
  | .parallel _ _ =>
    let (steps, w) := Step.launchAll launch input 0 steps w
    let woken := if g.tracksWakes steps.length then List.range steps.length else []
    { g with woken := woken }.driveParallel look tasks steps w

end Group

namespace Drive

/-- What the group's surroundings see of the drive.  A group that has an outcome wakes its waiters,
forgets them, and stops awaiting its steps. -/
def toPolled (slot : Slot) (tasks : List Task) (d : Drive) : Polled :=
  match d.outcome with
  | none => ⟨.group slot d.group d.steps, d.world, none, d.signalled && d.group.wakesParent⟩
  | some outcome =>
    let group := { d.group with stage := .finished outcome, waiters := [], woken := [] }
    ⟨.group slot group (d.steps.map Step.forgotten), d.world.scheduleAll tasks, some outcome,
      d.group.wakesParent⟩

end Drive

namespace Step

def leafOutcome (slot : Slot) (a : ActionId) (w : World) : Option Outcome :=
  match slot with
  | .refused e => some (.error e)
  | _ => (w.settlement? a).map fun s => s.mapError PlaylistError.action

/-- Looks at a step on behalf of a waiter, which a group remembers while it is unfinished.  The
first argument bounds the groups inside one another. -/
def pollWithin : (height : Nat) → Site → Option Waiter → Step → World → Polled
  | 0, _, _, s, w => ⟨s, w, none, false⟩
  | _ + 1, _, _, leaf slot a, w => ⟨leaf slot a, w, leafOutcome slot a w, false⟩
  | height + 1, site, waiter, .group slot g steps, w =>
    match g.stage.outcome? with
    | some outcome => ⟨.group slot g steps, w, some outcome, false⟩
    | none =>
      let g := waiter.elim g g.addWaiter
      let tasks := g.wakes site.above site.task
      let look : Look := fun index s w =>
        match s.slot with
        | .refused e => ⟨s, w, some (.error e), false⟩
        | _ => pollWithin height (site.child tasks index) (some .parent) s w
      let launch : Launch := fun index input s w => s.launch (site.child tasks index) input w
      match g.stage with
      | .triggered input => (g.start look launch tasks input steps w).toPolled slot tasks
      | .running => (g.drive look launch tasks steps w).toPolled slot tasks
      | _ => ⟨.group slot g steps, w, none, false⟩

/-- Looks at a step on behalf of a waiter. -/
def poll (site : Site) (waiter : Option Waiter) (s : Step) (w : World) : Polled :=
  pollWithin s.height site waiter s w

/-- The look that the task of the group at `place` takes.  A wake that leaves the group is noted by
the groups around it. -/
def pollPlace : (place : List Nat) → Site → Step → World → Polled
  | [], site, s, w => s.poll site (some .task) w
  | _ :: _, _, leaf slot a, w => ⟨leaf slot a, w, none, false⟩
  | index :: place, site, .group slot g steps, w =>
    match steps[index]? with
    | none => ⟨.group slot g steps, w, none, false⟩
    | some s =>
      let tasks := g.wakes site.above site.task
      let p := pollPlace place (site.child tasks index) s w
      ⟨.group slot (g.noteWake index steps.length p.signalled) (steps.set index p.step), p.world,
        p.outcome, p.signalled && g.wakesParent⟩

end Step

end Rundown
