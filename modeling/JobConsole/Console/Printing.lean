import JobConsole.Console.Reply

/-!
The printer: one task draws all messages, in the order in which they were accepted. Behind a prompt
it draws nothing until a line has been read, and with an exit it ends.
-/

namespace JobConsole.Console

def draw? (c : Console) (m : Message) : Option Console :=
  (c.display.draw m.kind m.text).map fun d =>
    let c := record { c with display := d.display } (.wrote d.bytes)
    match d.fault with
    | none => c.record .flushed
    | some fault => c.log (.terminalFailed fault m.kind)

def closeMailbox (c : Console) : Console :=
  wakeAll { c with mailbox := c.mailbox.close } c.mailbox.waiting

def watchers : List TaskId :=
  [.signalWatch, .keywordWatch, .ticker]

def terminate (c : Console) : Console :=
  wakeAll { c with terminated := true, parked := [] } (c.parked ++ watchers)

def stopPrinter (c : Console) : Console :=
  ({ c.closeMailbox.terminate with printer := .stopped }.log .printerStopped).discard

/-- A printer that crashes over a message closes the mailbox and does not terminate the console. -/
def crashPrinter (c : Console) (m : Message) : Console :=
  { c.hangUpOn m with printer := .crashed }.closeMailbox.discard

/-- Handles one message. The second part tells whether the printer goes on at once. -/
def handle (c : Console) (m : Message) : Console × Bool :=
  match c.draw? m, m with
  | none, _ => (c.crashPrinter m, false)
  | some c, .prompt _ slot => ({ c with printer := .reading slot }, true)
  | some c, .exit _ code =>
    let c := (c.log (.exiting code)).record (.ending .printer (.exit code))
    ({ c with printer := .leaving }, true)
  | some c, _ => (c, true)

def receive (c : Console) : Console × Bool :=
  match c.mailbox.take? with
  | some t =>
    ((wakeAll { c with mailbox := t.mailbox } t.woken.toList).record (.handled t.message)).handle
      t.message
  | none => if c.isHeld then (c, false) else (c.stopPrinter, false)

def readLine (c : Console) (id : TaskId) : Console × Option (Except Failure String) :=
  let p := c.reader.resume id
  let c := wakeAll { c with reader := p.reader } p.woken.toList
  match p.result with
  | none => (c, none)
  | some result => (c.record (.read id result), some result)

/-- Goes on reading the answer to a prompt. Without input there is nothing to go on with. -/
def readAnswer (c : Console) (slot : ReplySlot) : Console × Bool :=
  match c.readLine .printer with
  | (c, none) => (c, false)
  | (c, some (.ok line)) => ({ c.answer slot line with printer := .receiving }, true)
  | (c, some (.error failure)) =>
    let c := (c.log (.answerFailed failure)).record (.ending .printer (.abort failure))
    ({ c.hangUp slot with printer := .leaving }, true)

def printerTurn (c : Console) : Console × Bool :=
  match c.printer with
  | .receiving => c.receive
  | .reading slot => c.readAnswer slot
  | .leaving => (c.stopPrinter, false)
  | .stopped | .crashed => (c, false)

end JobConsole.Console
