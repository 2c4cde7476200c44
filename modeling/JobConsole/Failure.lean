namespace JobConsole

inductive Failure
  | inputClosed
  | inputRead (cause : String)
  | signalRegistration (cause : String)
  deriving DecidableEq, Repr

namespace Failure

def label : Failure → String
  | inputClosed => "input_closed"
  | inputRead _ => "input_read"
  | signalRegistration _ => "signal_registration"

def message : Failure → String
  | inputClosed => "standard input closed"
  | inputRead cause => s!"failed to read from standard input: {cause}"
  | signalRegistration cause => s!"failed to register signal listeners: {cause}"

def cause? : Failure → Option String
  | inputClosed => none
  | inputRead cause => some cause
  | signalRegistration cause => some cause

end Failure

end JobConsole
