import JobConsole.Display.Sink
import JobConsole.Duration
import JobConsole.Failure
import JobConsole.Job

namespace JobConsole

inductive Diagnostic
  | started (job : String) (interval : Duration) (interactive : Bool)
  | alreadyStarted (job : String)
  | stopped (job : String)
  | signalReceived
  | keywordReceived
  | cancelling (job : String) (request : Request)
  | callCrashed (job : String) (duringCancel : Bool)
  | watchFailed (failure : Failure)
  | signalsDisabled (failure : Failure)
  | answerFailed (failure : Failure)
  | terminalFailed (fault : Sink.Fault) (kind : Kind)
  | askerGone
  | exiting (code : ExitCode)
  | printerStopped
  | dropped (kind : Kind)
  deriving DecidableEq

namespace Diagnostic

inductive Level
  | error
  | warn
  | info
  | debug
  | trace
  deriving DecidableEq, Repr

def Level.label : Level → String
  | error => "ERROR"
  | warn => "WARN"
  | info => "INFO"
  | debug => "DEBUG"
  | trace => "TRACE"

/-- Greater for levels that say more. -/
def Level.rank : Level → Nat
  | error => 1
  | warn => 2
  | info => 3
  | debug => 4
  | trace => 5

inductive Origin
  | supervision
  | printing
  | sending
  deriving DecidableEq, Repr

structure Field where
  name : String
  value : String
  /-- Whether the value stands in quotes on a log line. -/
  quoted : Bool := false
  deriving DecidableEq, Repr

def level : Diagnostic → Level
  | callCrashed .. | watchFailed _ | answerFailed _ => .error
  | signalsDisabled _ | terminalFailed .. => .warn
  | signalReceived | keywordReceived | cancelling .. => .info
  | _ => .debug

def origin : Diagnostic → Origin
  | answerFailed _ | terminalFailed .. | askerGone | exiting _ | printerStopped => .printing
  | dropped _ => .sending
  | _ => .supervision

def message : Diagnostic → String
  | started .. => "progress reporting started"
  | alreadyStarted _ => "progress reporting already started"
  | stopped _ => "progress reporting stopped"
  | signalReceived => "termination signal received"
  | keywordReceived => "cancel keyword received on stdin"
  | cancelling .. => "cancelling job"
  | callCrashed .. => "work controller panicked: Any \x7b .. \x7d"
  | watchFailed _ => "cannot watch stdin for cancel keyword"
  | signalsDisabled _ => "signal cancellation disabled"
  | answerFailed _ => "cannot read prompt answer"
  | terminalFailed .. => "terminal write failed"
  | askerGone => "prompt caller went away before the answer arrived"
  | exiting _ => "exiting"
  | printerStopped => "output serializer stopped"
  | dropped _ => "serializer stopped; message dropped"

def failureFields (f : Failure) : List Field :=
  [⟨"error", f.message, false⟩, ⟨"label", f.label, true⟩]

def jobField (job : String) : Field := ⟨"controller", job, true⟩

def kindField (kind : Kind) : Field := ⟨"kind", kind.label, true⟩

def fields : Diagnostic → List Field
  | started job interval interactive =>
    [jobField job, ⟨"interval", interval.text, false⟩,
      ⟨"is_interactive", toString interactive, false⟩]
  | alreadyStarted job | stopped job => [jobField job]
  | cancelling job request => [⟨"source", request.label, false⟩, jobField job]
  | callCrashed job duringCancel => [jobField job, ⟨"cancelling", toString duringCancel, false⟩]
  | watchFailed f | signalsDisabled f | answerFailed f => failureFields f
  | terminalFailed fault kind => [⟨"error", fault.message, false⟩, kindField kind]
  | exiting code => [⟨"code", code.text, false⟩]
  | dropped kind => [kindField kind]
  | signalReceived | keywordReceived | askerGone | printerStopped => []

def Field.text (f : Field) : String :=
  if f.quoted then f.name ++ "=\"" ++ f.value ++ "\"" else f.name ++ "=" ++ f.value

def line (d : Diagnostic) : String :=
  " ".intercalate (d.level.label :: d.message :: d.fields.map Field.text)

end Diagnostic

end JobConsole
