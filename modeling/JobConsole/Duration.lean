namespace JobConsole

structure Duration where
  nanoseconds : Nat
  deriving DecidableEq, Repr

namespace Duration

def ofMilliseconds (n : Nat) : Duration :=
  ⟨n * 1000000⟩

def ofSeconds (n : Nat) : Duration :=
  ⟨n * 1000000000⟩

def ofParts? (seconds nanoseconds : Nat) : Option Duration :=
  let n := seconds * 1000000000 + nanoseconds
  if n / 1000000000 < UInt64.size then some ⟨n⟩ else none

def seconds (d : Duration) : Nat :=
  d.nanoseconds / 1000000000

def rest (d : Duration) : Nat :=
  d.nanoseconds % 1000000000

/-- Milliseconds, a fraction counting as a whole one: a timer never fires early. -/
def ceilMilliseconds (d : Duration) : Nat :=
  (d.nanoseconds + 999999) / 1000000

theorem ceilMilliseconds_ofMilliseconds (n : Nat) : (ofMilliseconds n).ceilMilliseconds = n := by
  dsimp only [ceilMilliseconds, ofMilliseconds]
  omega

def max (d e : Duration) : Duration :=
  ⟨Nat.max d.nanoseconds e.nanoseconds⟩

/-- The decimals of `n` parts of `10 ^ width`, without trailing zeros; empty if there are none. -/
def decimals (width n : Nat) : List Char :=
  let digits := Nat.toDigits 10 n
  ((List.replicate (width - digits.length) '0' ++ digits).reverse.dropWhile (· = '0')).reverse

def scaled (unit : String) (whole width part : Nat) : String :=
  match decimals width part with
  | [] => toString whole ++ unit
  | ds => toString whole ++ "." ++ String.ofList ds ++ unit

/-- In seconds from one second on, else in the largest unit that leaves a whole part. -/
def text (d : Duration) : String :=
  let n := d.nanoseconds
  if 1000000000 ≤ n then scaled "s" (n / 1000000000) 9 (n % 1000000000)
  else if 1000000 ≤ n then scaled "ms" (n / 1000000) 6 (n % 1000000)
  else if 1000 ≤ n then scaled "µs" (n / 1000) 3 (n % 1000)
  else scaled "ns" n 0 0

end Duration

end JobConsole
