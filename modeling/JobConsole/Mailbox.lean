import JobConsole.Message

/-!
A bounded queue of messages. Three things are taken over from the library's queue as they are: it is
first come, first served; a send that finds room, or that goes on with the room it was granted, puts
its message in by one atomic step; and room that becomes free is granted at once to the sender who
has waited longest.
-/

namespace JobConsole

structure Mailbox (ι : Type) where
  capacity : Nat
  items : List Message := []
  /-- Senders that have been granted room and have not used it. -/
  granted : List ι := []
  waiting : List ι := []
  closed : Bool := false

namespace Mailbox

def largestCapacity : Nat := (UInt64.size - 1) / 8

def capacityMessage : String :=
  s!"a semaphore may not have more than MAX_PERMITS permits ({largestCapacity})"

def empty? (ι : Type) (capacity : Nat) : Option (Mailbox ι) :=
  if capacity ≤ largestCapacity then some { capacity } else none

variable {ι : Type} [DecidableEq ι]

def room (m : Mailbox ι) : Nat :=
  m.capacity - (m.items.length + m.granted.length)

def push (m : Mailbox ι) (x : Message) : Mailbox ι :=
  { m with items := m.items ++ [x] }

def redeem (m : Mailbox ι) (i : ι) (x : Message) : Mailbox ι :=
  { m with items := m.items ++ [x], granted := m.granted.erase i }

def join (m : Mailbox ι) (i : ι) : Mailbox ι :=
  { m with waiting := m.waiting ++ [i] }

def grant (m : Mailbox ι) : Mailbox ι × Option ι :=
  match m.waiting with
  | [] => (m, none)
  | i :: rest => ({ m with granted := m.granted ++ [i], waiting := rest }, some i)

structure Taken (ι : Type) where
  message : Message
  mailbox : Mailbox ι
  woken : Option ι

def take? (m : Mailbox ι) : Option (Taken ι) :=
  match m.items with
  | [] => none
  | x :: rest =>
    let (mailbox, woken) := { m with items := rest }.grant
    some ⟨x, mailbox, woken⟩

def leave (m : Mailbox ι) (i : ι) : Mailbox ι × Option ι :=
  if i ∈ m.granted then { m with granted := m.granted.erase i }.grant
  else ({ m with waiting := m.waiting.erase i }, none)

/-- A closed mailbox accepts nothing: all who wait are turned away, also those granted room. -/
def close (m : Mailbox ι) : Mailbox ι :=
  { m with closed := true, granted := [], waiting := [] }

def drain (m : Mailbox ι) : Mailbox ι :=
  { m with items := [] }

end Mailbox

end JobConsole
