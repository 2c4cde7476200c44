import JobConsole.Console.Schedule
import JobConsole.Diagnostic.Filter

namespace JobConsole

inductive Status
  | code (n : Nat)
  | signal (n : Nat)
  deriving DecidableEq, Repr

namespace Session

inductive Action
  | type (text : String)
  | close
  | signal (signal : Signal)

/-- An action, to be taken once the output ends with a text. -/
structure Cue where
  expect : String
  action : Action

structure Setup where
  settings : Settings := {}
  jobs : List Job := []
  program : Program
  source : Source := {}
  cues : List Cue := []

structure Outcome where
  output : List UInt8
  diagnostics : List Diagnostic
  /-- `none` if the process goes on as far as it was followed. -/
  status : Option Status

def abortSignal : Nat := 6

def statusOf : Ending → Status
  | .exit code => .code code.status
  | .abort _ => .signal abortSignal

end Session

namespace Console

/-- The first request that the process end: it goes no further. -/
def ending? (c : Console) : Option Ending :=
  (c.journal.filterMap (·.event.ending?)).getLast?

def output (c : Console) : List UInt8 :=
  c.journal.reverse.flatMap (·.event.bytes)

def diagnostics (c : Console) : List Diagnostic :=
  c.journal.reverse.filterMap (·.event.diagnostic?)

def runToEnding : Nat → Console → Console
  | 0, c => c
  | n + 1, c =>
    match c.ending?, c.ready with
    | some _, _ | none, [] => c
    | none, id :: _ => runToEnding n (c.step id)

end Console

namespace Session

def outcome (c : Console) (status : Option Status) : Outcome :=
  { output := c.output, diagnostics := c.diagnostics, status }

def Cue.isGiven (cue : Cue) (c : Console) : Bool :=
  (Utf8.encode cue.expect.toList).isSuffixOf c.output

/-- A signal that nobody listens for kills the process. -/
def act (c : Console) : Action → Console × Option Status
  | .type text => (c.feed (.bytes (Utf8.encode text.toList)), none)
  | .close => (c.closeInput, none)
  | .signal s =>
    match c.signalWatch with
    | .absent => (c, some (.signal s.number))
    | _ => (c.raise s, none)

/-- Follows a process for up to `n` rounds. A round runs what can run, and then takes the next cue
if it is given, or else waits for the next timer. -/
def follow : Nat → List Cue → Console → Outcome
  | 0, _, c => outcome c none
  | n + 1, cues, c =>
    let c := c.runToEnding c.workload
    let wait (cues : List Cue) : Outcome :=
      match c.timers with
      | [] => outcome c none
      | t :: _ => follow n cues (c.ring t.deadline)
    match c.ending?, cues with
    | some ending, _ => outcome c (some (statusOf ending))
    | none, [] => wait []
    | none, cue :: rest =>
      if cue.isGiven c then
        match act c cue.action with
        | (c, none) => follow n rest c
        | (c, some status) => outcome c (some status)
      else wait (cue :: rest)

def patience : Nat := 100000

def run (s : Setup) : Option Outcome :=
  (Console.new? s.settings s.jobs s.source {}).map fun c =>
    follow patience s.cues ((c.spawn s.program).release)

def setupLines (attempts : Nat) : List String :=
  (List.range attempts).map fun k =>
    if k = 0 then "init: ok"
    else "init: a global default trace dispatcher has already been set"

def logLines (filter : Diagnostic.Filter) (paths : Diagnostic.Paths) (o : Outcome) :
    List String :=
  (o.diagnostics.filter (filter.enables paths)).map Diagnostic.line

end Session

end JobConsole
