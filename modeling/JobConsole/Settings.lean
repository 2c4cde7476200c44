import JobConsole.Duration

namespace JobConsole

structure Settings where
  mailboxCapacity : Nat := 1000
  /-- The time between the end of a call to the job and the next call. -/
  reportInterval : Duration := .ofSeconds 2
  cancelKeyword : String := "cancel"
  watchSignals : Bool := true
  deriving DecidableEq, Repr

/-- Equality up to the case of ASCII letters; other letters keep their case. -/
def equalIgnoringCase (s t : String) : Bool :=
  s.toList.map Char.toLower = t.toList.map Char.toLower

namespace Settings

def shortestInterval : Duration := .ofMilliseconds 1

def capacity (s : Settings) : Nat :=
  max s.mailboxCapacity 1

def interval (s : Settings) : Duration :=
  s.reportInterval.max shortestInterval

def isCancelKeyword (s : Settings) (line : String) : Bool :=
  equalIgnoringCase line s.cancelKeyword

theorem one_le_capacity (s : Settings) : 1 ≤ s.capacity :=
  Nat.le_max_right ..

theorem one_le_ceilMilliseconds_interval (s : Settings) :
    1 ≤ s.interval.ceilMilliseconds := by
  have : 1000000 ≤ s.interval.nanoseconds := Nat.le_max_right ..
  unfold Duration.ceilMilliseconds
  omega

end Settings

end JobConsole
