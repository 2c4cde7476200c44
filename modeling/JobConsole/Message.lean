import JobConsole.Task

namespace JobConsole

structure ExitCode where
  value : Int32
  deriving DecidableEq

namespace ExitCode

def text (c : ExitCode) : String :=
  toString c.value.toInt

def describe (c : ExitCode) : String :=
  s!"ExitCode({c.text})"

/-- The status that a process reports: the low byte of the code. -/
def status (c : ExitCode) : Nat :=
  (c.value.toInt % 256).toNat

end ExitCode

inductive Kind
  | progress
  | info
  | prompt
  | exit
  deriving DecidableEq, Repr

def Kind.label : Kind → String
  | progress => "progress"
  | info => "info"
  | prompt => "prompt"
  | exit => "exit"

/-- Where the answer to a prompt goes. No two prompts share a number. -/
structure ReplySlot where
  number : Nat
  asker : TaskId
  deriving DecidableEq, Repr

inductive Message
  | progress (text : String)
  | info (text : String)
  | prompt (text : String) (slot : ReplySlot)
  | exit (text : String) (code : ExitCode)
  deriving DecidableEq

namespace Message

def kind : Message → Kind
  | progress _ => .progress
  | info _ => .info
  | prompt _ _ => .prompt
  | exit _ _ => .exit

def text : Message → String
  | progress t => t
  | info t => t
  | prompt t _ => t
  | exit t _ => t

def slot? : Message → Option ReplySlot
  | prompt _ slot => some slot
  | _ => none

def code? : Message → Option ExitCode
  | exit _ code => some code
  | _ => none

end Message

end JobConsole
