import JobConsole.Console.State

namespace JobConsole.Console

inductive Stage
  | blocked (wait : Wait)
  | moving (wait : Wait)
  | finished (outcome : Outcome)
  | crashed

def afterSend (accepted : Bool) : Message → Stage
  | .progress _ | .info _ => .finished .done
  | .prompt _ slot => .moving (if accepted then .reply slot.number else .hungUp)
  | .exit _ _ => .moving .termination

def refuse (c : Console) (id : TaskId) (m : Message) : Console × Stage :=
  ((c.record (.refused id m)).log (.dropped m.kind), afterSend false m)

def accept (c : Console) (id : TaskId) (m : Message) : Console × Stage :=
  ((c.record (.accepted id m)).wakeReceiver, afterSend true m)

def send (c : Console) (id : TaskId) (m : Message) : Console × Stage :=
  if c.mailbox.closed then c.refuse id m
  else if 0 < c.mailbox.room then accept { c with mailbox := c.mailbox.push m } id m
  else ({ c with mailbox := c.mailbox.join id }, .blocked (.room m))

/-- Goes on with a message for which there was no room. -/
def resend (c : Console) (id : TaskId) (m : Message) : Console × Stage :=
  if c.mailbox.closed then c.refuse id m
  else if id ∈ c.mailbox.granted then accept { c with mailbox := c.mailbox.redeem id m } id m
  else (c, .blocked (.room m))

def question (c : Console) (id : TaskId) (text : String) : Console × Stage :=
  send { c with slots := c.slots + 1 } id (.prompt text ⟨c.slots, id⟩)

def park (c : Console) (id : TaskId) : Console :=
  if id ∈ c.parked then c else { c with parked := c.parked ++ [id] }

def awaitTermination (c : Console) (id : TaskId) (wait : Wait) (outcome : Outcome) :
    Console × Stage :=
  if c.terminated then (c, .finished outcome) else (c.park id, .blocked wait)

/-- Puts a job under supervision, once for a console: starts the watches and the ticker. -/
def supervise (c : Console) (k : Nat) (interactive : Bool) : Console × Bool :=
  match c.supervision with
  | some _ => (c.log (.alreadyStarted (c.job k).name), false)
  | none =>
    let c := { c with supervision := some { job := k } }
    let c := if c.settings.watchSignals then
        wake { c with signalWatch := .registering } .signalWatch
      else c
    let c := if interactive then c else wake { c with keywordWatch := true } .keywordWatch
    let c := c.log (.started (c.job k).name c.settings.interval interactive)
    (wake { c with ticker := .checking } .ticker, true)

def sleep (c : Console) (id : TaskId) (milliseconds : Nat) : Console × Stage :=
  if milliseconds = 0 then (c, .finished .done)
  else (c.setTimer ⟨c.now + milliseconds, id⟩, .blocked (.alarm (c.now + milliseconds)))

def begin (c : Console) (id : TaskId) : Statement → Console × Stage
  | .progress text => c.send id (.progress text)
  | .info text => c.send id (.info text)
  | .prompt text | .ask text | .confirm text _ _ => c.question id text
  | .exit text code => c.send id (.exit text code)
  | .park => (c, .moving .termination)
  | .start k interactive =>
    let s := c.supervise k interactive
    (s.1, .finished (.started s.2))
  | .state => (c, .finished (.observed c.isReporting c.terminated))
  | .sleep milliseconds => c.sleep id milliseconds
  | .hang => (c, .blocked .forever)
  | .crash _ => (c, .crashed)

def perform (c : Console) (id : TaskId) (s : Statement) : Wait → Console × Stage
  | .fresh => c.begin id s
  | .room m => c.resend id m
  | .reply n => (c, .blocked (.reply n))
  | .replied line => (c, .finished (.answered line))
  | .hungUp => c.awaitTermination id .hungUp (.answered "")
  | .termination => c.awaitTermination id .termination .returned
  | .alarm deadline =>
    if deadline ≤ c.now then (c, .finished .done) else (c, .blocked (.alarm deadline))
  | .forever => (c, .blocked .forever)

inductive Pace
  | resting
  | moving
  | ended
  | crashed
  deriving DecidableEq, Repr

/-- One small step of an activity; `note` tells how a finished statement is recorded. -/
def pursue (c : Console) (id : TaskId) (a : Activity) (note : Outcome → Event) :
    Console × Pace :=
  match a.program with
  | [] => (c, .ended)
  | s :: rest =>
    match c.perform id s a.wait with
    | (c, .blocked w) => (c.setActivity id { a with wait := w }, .resting)
    | (c, .moving w) => (c.setActivity id { a with wait := w }, .moving)
    | (c, .crashed) => (c, .crashed)
    | (c, .finished outcome) =>
      match s.followUp outcome with
      | some next =>
        (c.setActivity id { a with program := next :: rest, wait := .fresh }, .moving)
      | none =>
        let c := c.record (note outcome)
        (c.setActivity id { program := rest, index := a.index + 1 }, .moving)

def endProducer (c : Console) (n : Nat) : Console :=
  letGo { c with producers := c.producers.set n none }

def producerTurn (c : Console) (n : Nat) : Console × Bool :=
  match c.activity? (.producer n) with
  | none => (c, false)
  | some a =>
    match c.pursue (.producer n) a (.finished n a.index) with
    | (c, .resting) => (c, false)
    | (c, .moving) => (c, true)
    | (c, .ended) | (c, .crashed) => (c.endProducer n, false)

end JobConsole.Console
