import PoolScaling.Time.Instant

/-! Clocks that move only when told to, or by a fixed step at each reading.

A clock that is moved beyond the last instant or before the first one breaks. It
shows nothing from then on, and setting it does not mend it. -/
namespace PoolScaling

structure Clock where
  /-- What the clock shows; nothing when it is broken. -/
  now : Option Instant
  /-- By how many nanoseconds a reading moves the clock on. -/
  tick : Int

namespace Clock

def manual (start : Instant) : Clock := ⟨some start, 0⟩

def set (c : Clock) (now : Instant) : Clock := { c with now := c.now.map fun _ => now }

def move (c : Clock) (nanos : Int) : Clock := { c with now := c.now.bind fun t => t.shift? nanos }

/-- Moves the clock by a number of milliseconds, also back. -/
def advance (c : Clock) (ms : Int) : Clock := c.move (ms * 1000000)

/-- The time on the clock, and the clock after the reading. A reading that breaks the
clock tells no time. -/
def read (c : Clock) : Option Instant × Clock :=
  let after := c.move c.tick
  (after.now.bind fun _ => c.now, after)

end Clock

end PoolScaling
