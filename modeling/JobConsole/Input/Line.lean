import JobConsole.Failure
import JobConsole.Text.Utf8

namespace JobConsole.Line

def newline : UInt8 := 10

def cut? (bytes : List UInt8) : Option (List UInt8 × List UInt8) :=
  match bytes.dropWhile (· ≠ newline) with
  | [] => none
  | b :: rest => some (bytes.takeWhile (· ≠ newline) ++ [b], rest)

theorem append_of_cut? {bytes line rest : List UInt8} (h : cut? bytes = some (line, rest)) :
    line ++ rest = bytes := by
  unfold cut? at h
  split at h
  · simp at h
  · rename_i b tail hb
    simp only [Option.some.injEq, Prod.mk.injEq] at h
    obtain ⟨rfl, rfl⟩ := h
    rw [List.append_assoc, List.singleton_append, ← hb, List.takeWhile_append_dropWhile]

def isMargin (c : Char) : Bool :=
  c = '\n' || c = '\r' || c = ' '

/-- Without the line ends and blanks on both sides; tabs and other spaces are content. -/
def trim (text : List Char) : List Char :=
  ((text.dropWhile isMargin).reverse.dropWhile isMargin).reverse

def ofBytes (bytes : List UInt8) : Except Failure String :=
  match Utf8.decode bytes with
  | .ok text => .ok (String.ofList (trim text.toList))
  | .error fault => .error (.inputRead fault.message)

end JobConsole.Line
