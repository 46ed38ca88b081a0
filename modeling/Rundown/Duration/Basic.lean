/-!
# Durations

Whole seconds and nanoseconds below a second.
-/

namespace Rundown

/-- A length of time. -/
structure Duration where
  seconds : Nat
  nanos : Nat
deriving DecidableEq, Repr

namespace Duration

def nanosPerSecond : Nat := 1000000000

def nanosPerMilli : Nat := 1000000

/-- Seconds must stay below this number. -/
def secondsBound : Nat := Nat.pow 2 64

def ofMillis (ms : Nat) : Duration := ⟨ms / 1000, ms % 1000 * nanosPerMilli⟩

/-- Milliseconds, a started one counting as a whole one. -/
def ceilMillis (d : Duration) : Nat :=
  d.seconds * 1000 + (d.nanos + (nanosPerMilli - 1)) / nanosPerMilli

/-- Thirty years, in milliseconds. -/
def farFutureMillis : Nat := 86400 * 365 * 30 * 1000

/-- How long a timer runs.  The clock counts its seconds in 63 bits; a timer beyond that is put off
for thirty years instead. -/
def timerMillis (d : Duration) : Nat :=
  if d.seconds < Nat.pow 2 63 then d.ceilMillis else farFutureMillis

end Duration

end Rundown
