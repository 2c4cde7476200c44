namespace JobConsole

inductive Piece
  | bytes (data : List UInt8)
  | fault (cause : String)
  deriving DecidableEq, Repr

structure Source where
  pieces : List Piece := []
  /-- Whether the end is reported once the pieces are drained; otherwise the reader waits. -/
  closed : Bool := false
  deriving DecidableEq, Repr

namespace Source

/-- Bytes and errors that come later, also after the end was reported. Empty data is no piece. -/
def feed (s : Source) : Piece → Source
  | .bytes [] => s
  | p => { s with pieces := s.pieces ++ [p] }

def close (s : Source) : Source :=
  { s with closed := true }

def ofPieces (pieces : List Piece) (closed : Bool) : Source :=
  pieces.foldl feed { closed }

end Source

end JobConsole
