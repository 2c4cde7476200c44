import JobConsole.Console.Schedule

namespace JobConsole.Script

open Console (supervise)

inductive Step
  | spawn (programs : List Program)
  | kill (producer : Nat)
  | feed (piece : Piece)
  | close
  | sink (sink : Sink)
  | advance (milliseconds : Nat)
  | signals (raised : List Signal)
  | release
  | startDeaf (job : Nat) (interactive : Bool) (cause : String)

/-- What a step does before anything runs. A host that has let go can neither spawn nor start. -/
def act (c : Console) : Step → Console
  | .spawn programs => if c.hosted then programs.foldl Console.spawn c else c
  | .kill n => c.kill n
  | .feed piece => c.feed piece
  | .close => c.closeInput
  | .sink sink => c.setSink sink
  | .advance milliseconds => c.elapse milliseconds
  | .signals raised => raised.foldl Console.raise c
  | .release => c.release
  | .startDeaf k interactive cause =>
    if c.hosted then
      let s := supervise { c with signalFault := some cause } k interactive
      s.1.record (.hostStarted k s.2)
    else c

def perform (c : Console) (s : Step) : Console :=
  (act c s).settle

inductive CallKind
  | report
  | cancel
  | start
  deriving DecidableEq, Repr

def CallKind.label : CallKind → String
  | report => "report"
  | cancel => "cancel"
  | start => "start"

inductive CallResult
  | began
  | ended
  | returned (outcome : Outcome)
  deriving DecidableEq, Repr

structure CallLine where
  time : Nat
  job : Nat
  kind : CallKind
  number : Nat
  result : CallResult

structure ProducerLine where
  producer : Nat
  index : Nat
  outcome : Outcome

structure Account where
  now : Nat
  bytes : List UInt8
  flushes : Nat
  endings : List Ending
  producers : List ProducerLine
  calls : List CallLine
  diagnostics : List (Nat × Diagnostic)
  terminated : Bool
  reporting : Bool
  hosted : Bool

def producerLine? (e : Entry) : Option ProducerLine :=
  match e.event with
  | .finished producer index outcome => some { producer, index, outcome }
  | _ => none

/-- What is told of a note: nothing of statements that are merely done, nor of a crash. -/
def CallResult.ofNote? : CallNote → Option CallResult
  | .began => some .began
  | .ended => some .ended
  | .finished .done | .crashed => none
  | .finished outcome => some (.returned outcome)

def callLine? (c : Console) (e : Entry) : Option CallLine :=
  match e.event with
  | .call k request number note =>
    if (c.job k).listed then
      (CallResult.ofNote? note).map fun result =>
        { time := e.time, job := k, kind := request.elim .report fun _ => .cancel, number, result }
    else none
  | .hostStarted k first =>
    some {
      time := e.time, job := k, kind := .start, number := 0
      result := .returned (.started first) }
  | _ => none

def account (c : Console) (past : Nat) : Account :=
  let entries := (c.journal.take (c.journal.length - past)).reverse
  { now := c.now
    bytes := entries.flatMap (·.event.bytes)
    flushes := entries.countP fun e => match e.event with | .flushed => true | _ => false
    endings := entries.filterMap (·.event.ending?)
    producers := entries.filterMap producerLine?
    calls := entries.filterMap (callLine? c)
    diagnostics := entries.filterMap fun e => e.event.diagnostic?.map (e.time, ·)
    terminated := c.terminated
    reporting := c.isReporting
    hosted := c.hosted }

def run (c : Console) : List Step → List Account
  | [] => []
  | s :: steps => account (perform c s) c.journal.length :: run (perform c s) steps

end JobConsole.Script
