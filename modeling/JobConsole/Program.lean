import JobConsole.Message

namespace JobConsole

inductive Statement
  | progress (text : String)
  | info (text : String)
  | prompt (text : String)
  | exit (text : String) (code : ExitCode)
  | park
  | start (job : Nat) (interactive : Bool)
  | state
  | sleep (milliseconds : Nat)
  | hang
  | crash (text : String)
  /-- Prompts and repeats the answer as an info. -/
  | ask (text : String)
  /-- Prompts and exits unless the answer is yes. -/
  | confirm (question refusal : String) (code : ExitCode)
  deriving DecidableEq

abbrev Program := List Statement

inductive Outcome
  | done
  | answered (line : String)
  | returned
  | started (first : Bool)
  | observed (reporting terminated : Bool)
  deriving DecidableEq, Repr

namespace Statement

def message? (slot : ReplySlot) : Statement → Option Message
  | progress text => some (.progress text)
  | info text => some (.info text)
  | prompt text => some (.prompt text slot)
  | ask text => some (.prompt text slot)
  | confirm question _ _ => some (.prompt question slot)
  | exit text code => some (.exit text code)
  | _ => none

def followUp : Statement → Outcome → Option Statement
  | ask _, .answered line => some (.info ("<" ++ line ++ ">"))
  | confirm _ refusal code, .answered line =>
    if line = "y" || line = "Y" then none else some (.exit refusal code)
  | _, _ => none

end Statement

end JobConsole
