import JobConsole.FileCopy
import JobConsole.Session

/-!
The command line: asks for leave and then pretends to copy files, on the real terminal and by the
real clock. Signals keep their usual effect here.
-/

namespace JobConsole.Main

def filterVariable : String := "JOBCONSOLE_LOG"

def paths : Diagnostic.Paths
  | .supervision => "jobconsole::supervision"
  | .printing => "jobconsole::printing"
  | .sending => "jobconsole::sending"

def exitStatus : Status → UInt32
  | .code n => n.toUInt32
  | .signal n => (128 + n).toUInt32

structure Inbox where
  pieces : List Piece := []
  closed : Bool := false

structure Surroundings where
  filter : Diagnostic.Filter
  interactive : Bool
  input : IO.FS.Stream
  inbox : IO.Ref Inbox
  start : Nat

def Surroundings.read (s : Surroundings) : IO Bool := do
  try
    let bytes ← s.input.read 1
    if bytes.isEmpty then
      s.inbox.modify fun i => { i with closed := true }
      return false
    s.inbox.modify fun i => { i with pieces := i.pieces ++ [.bytes bytes.toList] }
  catch e =>
    s.inbox.modify fun i => { i with pieces := i.pieces ++ [.fault (toString e)] }
  return true

partial def Surroundings.listen (s : Surroundings) : IO Unit := do
  if ← s.read then s.listen

def Surroundings.enact (s : Surroundings) : Event → IO Unit
  | .wrote bytes => do (← IO.getStdout).write bytes.toByteArray
  | .flushed => do (← IO.getStdout).flush
  | .logged d => do
    if s.filter.enables paths d then (← IO.getStderr).putStrLn d.line
  | _ => pure ()

/-- Runs what can run and waits for input or for the next timer, until the process is to end. The
first `past` entries of the journal have been enacted. -/
partial def Surroundings.live (s : Surroundings) (past : Nat) (c : Console) : IO UInt32 := do
  let c := c.runToEnding c.workload
  for e in (c.journal.take (c.journal.length - past)).reverse do
    s.enact e.event
  let past := c.journal.length
  if let some ending := c.ending? then return exitStatus (Session.statusOf ending)
  let now := (← IO.monoMsNow) - s.start
  match c.timers with
  | t :: _ => if t.deadline ≤ now then return ← s.live past (c.ring t.deadline)
  | [] => pure ()
  let c := { c with now }
  let news ← s.inbox.modifyGet fun i => (i, { i with pieces := [] })
  if !news.pieces.isEmpty then s.live past (news.pieces.foldl Console.feed c)
  else if news.closed && !c.reader.source.closed then s.live past c.closeInput
  else
    if s.interactive && c.reader.owner.isSome then let _ ← s.read
    else IO.sleep 5
    s.live past c

def run (arguments : List String) : IO UInt32 := do
  let filter := Diagnostic.Filter.ofSetting (← IO.getEnv filterVariable)
  let input ← IO.getStdin
  let interactive := !arguments.contains "--non-interactive" && (← input.isTty)
  let settings := { FileCopy.settings with watchSignals := false }
  match Console.new? settings [FileCopy.sessionJob] {} {} with
  | none => return 1
  | some c =>
    let s : Surroundings :=
      { filter, interactive, input, inbox := ← IO.mkRef {}, start := ← IO.monoMsNow }
    if !interactive then let _ ← IO.asTask s.listen .dedicated
    s.live 0 ((c.spawn (FileCopy.session interactive)).release)

end JobConsole.Main

def main (arguments : List String) : IO UInt32 :=
  JobConsole.Main.run arguments
