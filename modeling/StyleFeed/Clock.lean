/-!
The monotonic clock. Its readings and the times between them are counted in nanoseconds; a reading holds
its whole seconds in a signed 64-bit word, so that not every time after a reading is a reading.
-/

namespace StyleFeed

abbrev Instant := Nat
abbrev Duration := Nat

namespace Clock

def second : Duration := 1000000000
def millisecond : Duration := 1000000

def seconds (n : Nat) : Duration := n * second
def milliseconds (n : Nat) : Duration := n * millisecond

/-- The clock can show the time. -/
def Shows (t : Instant) : Prop := t / second < 0x8000000000000000

instance (t : Instant) : Decidable (Shows t) := inferInstanceAs (Decidable (_ < _))

/-- The reading a time after another one, if there is such a reading. -/
def after? (now : Instant) (d : Duration) : Option Instant :=
  if Shows (now + d) then some (now + d) else none

/-- The time between two readings; none has passed if the first is the later one. -/
def elapsed (since now : Instant) : Duration := now - since

end Clock
end StyleFeed
