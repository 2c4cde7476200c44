import JobConsole.Diagnostic

namespace JobConsole

inductive Ending
  | exit (code : ExitCode)
  | abort (failure : Failure)
  deriving DecidableEq

inductive CallNote
  | began
  | finished (outcome : Outcome)
  | ended
  | crashed
  deriving DecidableEq, Repr

inductive Event
  | wrote (bytes : List UInt8)
  | flushed
  | ending (task : TaskId) (ending : Ending)
  | finished (producer index : Nat) (outcome : Outcome)
  /-- Calls are told apart by kind, a request making it a call to cancel, and number. -/
  | call (job : Nat) (request : Option Request) (number : Nat) (note : CallNote)
  /-- The host itself put a job under supervision, or tried to. -/
  | hostStarted (job : Nat) (first : Bool)
  | logged (diagnostic : Diagnostic)
  | accepted (sender : TaskId) (message : Message)
  | refused (sender : TaskId) (message : Message)
  | handled (message : Message)
  | discarded (message : Message)
  | read (reader : TaskId) (result : Except Failure String)
  | sinkChanged (sink : Sink)

structure Entry where
  time : Nat
  event : Event

namespace Event

def bytes : Event → List UInt8
  | wrote bs => bs
  | _ => []

def ending? : Event → Option Ending
  | ending _ e => some e
  | _ => none

def diagnostic? : Event → Option Diagnostic
  | logged d => some d
  | _ => none

end Event

end JobConsole
