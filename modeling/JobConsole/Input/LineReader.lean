import JobConsole.Input.Line
import JobConsole.Input.Source

/-!
A line reader that many readers share. One of them at a time holds the lock and collects a line;
the others wait in the order in which they first asked.
-/

namespace JobConsole

structure LineReader (ι : Type) where
  source : Source := {}
  owner : Option ι := none
  /-- What the owner has taken from the source of a line that has not ended. -/
  taken : List UInt8 := []
  waiting : List ι := []
  deriving DecidableEq, Repr

structure Gathered where
  pieces : List Piece
  taken : List UInt8
  result : Option (Except Failure String)

/-- Collects one line from the pieces, behind the bytes already taken. An error loses those bytes,
and at the end of the input they are the last line, if there are any. -/
def gather (closed : Bool) (taken : List UInt8) : List Piece → Gathered
  | [] =>
    if closed then
      ⟨[], [], some (if taken = [] then .error .inputClosed else Line.ofBytes taken)⟩
    else ⟨[], taken, none⟩
  | .fault cause :: pieces => ⟨pieces, [], some (.error (.inputRead cause))⟩
  | .bytes data :: pieces =>
    match Line.cut? data with
    | none => gather closed (taken ++ data) pieces
    | some (line, []) => ⟨pieces, [], some (Line.ofBytes (taken ++ line))⟩
    | some (line, rest) => ⟨.bytes rest :: pieces, [], some (Line.ofBytes (taken ++ line))⟩

namespace LineReader

variable {ι : Type} [DecidableEq ι]

def release (r : LineReader ι) : LineReader ι × Option ι :=
  ({ r with owner := r.waiting.head?, taken := [], waiting := r.waiting.tail }, r.waiting.head?)

structure Resumed (ι : Type) where
  reader : LineReader ι
  result : Option (Except Failure String)
  woken : Option ι

def collect (r : LineReader ι) (i : ι) : Resumed ι :=
  let g := gather r.source.closed r.taken r.source.pieces
  let r := { r with source.pieces := g.pieces, owner := some i, taken := g.taken }
  match g.result with
  | none => ⟨r, none, none⟩
  | some result => ⟨r.release.1, some result, r.release.2⟩

def resume (r : LineReader ι) (i : ι) : Resumed ι :=
  match r.owner with
  | none => r.collect i
  | some j =>
    if j = i then r.collect i
    else if i ∈ r.waiting then ⟨r, none, none⟩
    else ⟨{ r with waiting := r.waiting ++ [i] }, none, none⟩

/-- Gives up the read of `i`. What it has taken is lost; a lock that it holds is passed on. -/
def abandon (r : LineReader ι) (i : ι) : LineReader ι × Option ι :=
  if r.owner = some i then r.release
  else ({ r with waiting := r.waiting.erase i }, none)

def isReading (r : LineReader ι) (i : ι) : Bool :=
  r.owner = some i || i ∈ r.waiting

end LineReader

end JobConsole
