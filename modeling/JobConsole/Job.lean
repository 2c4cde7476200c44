import JobConsole.Program

namespace JobConsole

inductive Request
  | signal
  | keyword
  deriving DecidableEq, Repr

def Request.label : Request → String
  | signal => "Signal"
  | keyword => "Keyword"

/-- How often a job has been called, by kind of call, the current call included. -/
structure Tally where
  reports : Nat := 0
  cancels : Nat := 0
  deriving DecidableEq, Repr

namespace Tally

def next (t : Tally) : Option Request → Tally
  | none => { t with reports := t.reports + 1 }
  | some _ => { t with cancels := t.cancels + 1 }

def number (t : Tally) : Option Request → Nat
  | none => t.reports
  | some _ => t.cancels

end Tally

structure Job where
  name : String
  report : Tally → Program
  cancel : Tally → Program
  listed : Bool := true

namespace Job

def call (j : Job) (t : Tally) : Option Request → Program
  | none => j.report t
  | some _ => j.cancel t

/-- The `k`-th program counted from one, the last one repeating; nothing if there are none. -/
def nth (programs : List Program) (k : Nat) : Program :=
  (programs[k - 1]?.or programs.getLast?).getD []

def scripted (name : String) (reports cancels : List Program) : Job where
  name
  report t := nth reports t.reports
  cancel t := nth cancels t.cancels

def idle : Job := scripted "job" [] []

end Job

end JobConsole
