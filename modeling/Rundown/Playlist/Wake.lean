import Rundown.Playlist.Poll

/-!
# Waking the step that awaits a completion

When a completion settles, the leaf that awaits it wakes the group around it.  At most one leaf of
all playlists awaits a given completion, so the trees are simply searched for it.
-/

namespace Rundown.Step

/-- Whether the leaf awaits the completion of its action. -/
def awaits (slot : Slot) (b a : ActionId) : Bool :=
  match slot with
  | .waiting => b == a
  | _ => false

mutual

/-- Wakes the groups around the leaf that awaits `a`; the last part tells whether the group around
the step was woken. -/
def wake (a : ActionId) (site : Site) : Step → World → Step × World × Bool
  | leaf slot b, w => (leaf slot b, if awaits slot b a then w.scheduleAll site.above else w,
      awaits slot b a)
  | .group slot g steps, w =>
    let (g, steps, w, signalled) :=
      wakeList a (site.child (g.wakes site.above site.task)) steps.length 0 g steps w
    (.group slot g steps, w, signalled && g.wakesParent)

/-- Wakes the group `g`, of the given width, around the leaf below one of its steps. -/
def wakeList (a : ActionId) (site : Nat → Site) (width : Nat) :
    Nat → Group → List Step → World → Group × List Step × World × Bool
  | _, g, [], w => (g, [], w, false)
  | index, g, s :: rest, w =>
    let (s, w, signalled) := wake a (site index) s w
    let (g, rest, w, later) :=
      wakeList a site width (index + 1) (g.noteWake index width signalled) rest w
    (g, s :: rest, w, signalled || later)

end

end Rundown.Step
