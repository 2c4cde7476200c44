import JobConsole.Console.State

/-!
The workload of a console: a bound on the small steps that can be taken before time must pass. It
is weighed so that every small step lowers it. Each part weighs more than what it can turn into: a
statement more than the message that it sends, a message more than the tasks that it wakes.
-/

namespace JobConsole

def total {α : Type} (weight : α → Nat) (xs : List α) : Nat :=
  xs.foldr (weight · + ·) 0

def Wait.load : Wait → Nat
  | .fresh => 30
  | .room _ => 28
  | .reply _ => 10
  | .replied _ | .hungUp | .termination => 8
  | .alarm _ => 4
  | .forever => 0

/-- What a statement may still turn into. -/
def Statement.reserve : Statement → Nat
  | .ask _ | .confirm .. => 31
  | _ => 0

def Statement.load (s : Statement) : Nat :=
  s.reserve + Wait.fresh.load

def Program.load (p : Program) : Nat :=
  total Statement.load p

def Activity.load (a : Activity) : Nat :=
  match a.program with
  | [] => 0
  | s :: rest => s.reserve + a.wait.load + Program.load rest

def Piece.load : Piece → Nat
  | .bytes data => 3 * data.length
  | .fault _ => 3

/-- What the next call of a job may come to, whichever kind it will be. -/
def Job.load (j : Job) (t : Tally) : Nat :=
  Program.load (j.report (t.next none)) + Program.load (j.cancel (t.next (some .signal)))

namespace Console

def taskCount (c : Console) : Nat :=
  c.producers.length + 4

def printerLoad (c : Console) : Nat :=
  match c.printer with
  | .receiving => 4 * c.taskCount + 10
  | .reading _ => 4 * c.taskCount + 16
  | .leaving => 4 * c.taskCount + 5
  | .stopped | .crashed => 0

def nextCallLoad (c : Console) : Nat :=
  match c.supervision with
  | none => 0
  | some s => (c.job s.job).load s.tally

def tickerLoad (c : Console) : Nat :=
  match c.ticker with
  | .absent => 0
  | .checking => 20 + c.nextCallLoad
  | .calling _ a => 10 + a.load
  | .sleeping deadline => if deadline ≤ c.now then 21 + c.nextCallLoad else 6

def signalWatchLoad (c : Console) : Nat :=
  match c.signalWatch with
  | .absent => 0
  | .registering => 3
  | .listening pending => 2 + 3 * pending.length

def startLoad (c : Console) : Nat :=
  match c.supervision with
  | some _ => 0
  | none => 40 + total (Job.load · {}) c.jobs

def inputLoad (c : Console) : Nat :=
  total Piece.load c.reader.source.pieces + 3 * c.reader.taken.length

def producerLoad : Option Activity → Nat
  | none => 0
  | some a => 2 + a.load

def workload (c : Console) : Nat :=
  c.ready.length + c.printerLoad + 12 * c.mailbox.items.length + c.tickerLoad +
    c.signalWatchLoad + (if c.keywordWatch then 4 else 0) + c.startLoad + c.inputLoad +
    total producerLoad c.producers

end Console

end JobConsole
