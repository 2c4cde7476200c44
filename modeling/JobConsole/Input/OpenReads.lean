import JobConsole.Input.LineReader

namespace JobConsole

/-- The reads in progress are numbered; `none` stands for a read that is not kept. -/
structure OpenReads where
  reader : LineReader (Option Nat) := {}
  /-- The reads that were begun and have not been resumed. -/
  begun : List Nat := []

namespace OpenReads

inductive Step
  | feed (piece : Piece)
  | close
  /-- Resumes a fresh read once and abandons it if it is not done. -/
  | read
  | begin (number : Nat)
  | resume (number : Nat)
  | abandon (number : Nat)

inductive Answer
  | done
  | taken
  | absent
  | pending
  | line (text : String)
  | failed (failure : Failure)

def isOpen (o : OpenReads) (n : Nat) : Bool :=
  n ∈ o.begun || o.reader.isReading (some n)

def Answer.ofResult : Option (Except Failure String) → Answer
  | none => .pending
  | some (.ok text) => .line text
  | some (.error failure) => .failed failure

def resumeOnce (o : OpenReads) (i : Option Nat) : OpenReads × Answer :=
  let p := o.reader.resume i
  ({ o with reader := p.reader }, .ofResult p.result)

def step (o : OpenReads) : Step → OpenReads × Answer
  | .feed piece => ({ o with reader.source := o.reader.source.feed piece }, .done)
  | .close => ({ o with reader.source := o.reader.source.close }, .done)
  | .read =>
    let (o, answer) := o.resumeOnce none
    ({ o with reader := (o.reader.abandon none).1 }, answer)
  | .begin n =>
    if o.isOpen n then (o, .taken) else ({ o with begun := n :: o.begun }, .done)
  | .resume n =>
    if o.isOpen n then { o with begun := o.begun.erase n }.resumeOnce (some n) else (o, .absent)
  | .abandon n =>
    if o.isOpen n then
      ({ reader := (o.reader.abandon (some n)).1, begun := o.begun.erase n }, .done)
    else (o, .absent)

def run (o : OpenReads) : List Step → List Answer
  | [] => []
  | s :: steps => (o.step s).2 :: (o.step s).1.run steps

end OpenReads

end JobConsole
