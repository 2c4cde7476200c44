import JobConsole.Console.Supervision
import JobConsole.Console.Workload

namespace JobConsole.Console

def turn (c : Console) : TaskId → Console × Bool
  | .printer => c.printerTurn
  | .signalWatch => c.signalWatchTurn
  | .keywordWatch => c.keywordWatchTurn
  | .ticker => c.tickerTurn
  | .producer n => c.producerTurn n

/-- One small step of a task, which keeps its place among those that can run if it goes on. -/
def step (c : Console) (id : TaskId) : Console :=
  let t := c.turn id
  if t.2 then t.1 else { t.1 with ready := t.1.ready.erase id }

/-- Up to `n` small steps, always of the task that is first. -/
def run : Nat → Console → Console
  | 0, c => c
  | n + 1, c =>
    match c.ready with
    | [] => c
    | id :: _ => run n (c.step id)

def settle (c : Console) : Console :=
  run c.workload c

def ring (c : Console) (time : Nat) : Console :=
  wakeAll { c with now := time, timers := c.timers.filter (time < ·.deadline) }
    ((c.timers.filter (·.deadline ≤ time)).map Timer.task)

def passUntil (time : Nat) : Nat → Console → Console
  | 0, c => { c with now := time }
  | n + 1, c =>
    match c.timers with
    | [] => { c with now := time }
    | t :: _ =>
      if t.deadline ≤ time then passUntil time n (c.ring t.deadline).settle
      else { c with now := time }

/-- Lets milliseconds pass. Timers fire in the order of their deadlines, and all that can run then
runs before time goes on. No two stops fall on the same millisecond. -/
def elapse (c : Console) (milliseconds : Nat) : Console :=
  passUntil (c.now + milliseconds) milliseconds c

/-! What comes from outside. -/

def spawn (c : Console) (p : Program) : Console :=
  wake { c with producers := c.producers ++ [some { program := p }] }
    (.producer c.producers.length)

def kill (c : Console) (n : Nat) : Console :=
  match c.activity? (.producer n) with
  | none => c
  | some _ => (c.withdraw (.producer n)).endProducer n

def wakeReader (c : Console) : Console :=
  c.wakeAll c.reader.owner.toList

def feed (c : Console) (p : Piece) : Console :=
  wakeReader { c with reader.source := c.reader.source.feed p }

def closeInput (c : Console) : Console :=
  wakeReader { c with reader.source := c.reader.source.close }

/-- Raises a signal. Of the signals that wait to be seen, one that is raised again counts once. -/
def raise (c : Console) (s : Signal) : Console :=
  match c.signalWatch with
  | .listening pending =>
    wake { c with signalWatch := .listening (if s ∈ pending then pending else pending ++ [s]) }
      .signalWatch
  | _ => c

def setSink (c : Console) (s : Sink) : Console :=
  record { c with display.sink := s } (.sinkChanged s)

def release (c : Console) : Console :=
  letGo { c with hosted := false }

end JobConsole.Console
