namespace JobConsole

structure Sink where
  /-- How many more bytes are accepted; `none` if there is no limit. -/
  budget : Option Nat := none
  failFlush : Bool := false
  deriving DecidableEq, Repr

namespace Sink

inductive Fault
  | write
  | flush
  deriving DecidableEq, Repr

def Fault.message : Fault → String
  | write => "write failed"
  | flush => "flush failed"

def accepted (s : Sink) (bytes : List UInt8) : List UInt8 :=
  match s.budget with
  | none => bytes
  | some n => bytes.take n

/-- A write that does not fit is accepted as far as it fits; one of no bytes always fits. -/
def fits (s : Sink) (bytes : List UInt8) : Bool :=
  match s.budget with
  | none => true
  | some n => bytes.length ≤ n

def after (s : Sink) (bytes : List UInt8) : Sink :=
  { s with budget := s.budget.map (· - bytes.length) }

theorem accepted_of_fits {s : Sink} {bytes : List UInt8} (h : s.fits bytes) :
    s.accepted bytes = bytes := by
  unfold fits at h
  unfold accepted
  split
  · rfl
  · simp_all [List.take_of_length_le]

end Sink

end JobConsole
