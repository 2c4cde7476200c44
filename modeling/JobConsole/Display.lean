import JobConsole.Display.Sink
import JobConsole.Message
import JobConsole.Text.Utf8

namespace JobConsole

structure Display where
  /-- The progress line, empty if there is none. -/
  line : String := ""
  sink : Sink := {}

namespace Display

def widestPad : Nat := 65535

def overflowMessage : String := "Formatting argument out of range"

/-- How many blanks hide what is left of `line` behind `text`, counted in characters. -/
def pad (line text : List Char) : Nat :=
  line.length - text.length

def overwrite (line text : List Char) : Option (List Char) :=
  if pad line text ≤ widestPad then
    some ('\r' :: text ++ List.replicate (pad line text) ' ')
  else none

def layout (line text : List Char) : Kind → Option (List Char)
  | .progress => overwrite line text
  | .info =>
    if line = [] then some (text ++ ['\n'])
    else (overwrite line text).map (· ++ '\n' :: line)
  | .prompt => if line = [] then some text else overwrite line text
  | .exit => some ('\n' :: text ++ ['\n'])

def lead (line : List Char) : Kind → List Char
  | .progress => ['\r']
  | .info | .prompt => if line = [] then [] else ['\r']
  | .exit => ['\n']

def trail (line text : List Char) : Kind → List Char
  | .progress | .prompt => List.replicate (pad line text) ' '
  | .info => List.replicate (pad line text) ' ' ++ '\n' :: line
  | .exit => ['\n']

theorem eq_of_overwrite {line text cells : List Char} (h : overwrite line text = some cells) :
    cells = '\r' :: text ++ List.replicate (pad line text) ' ' := by
  unfold overwrite at h
  split at h
  · exact (Option.some.inj h).symm
  · cases h

theorem eq_of_layout {line text cells : List Char} {kind : Kind}
    (h : layout line text kind = some cells) :
    cells = lead line kind ++ text ++ trail line text kind := by
  cases kind with
  | progress => exact eq_of_overwrite h
  | info =>
    by_cases hl : line = []
    · simp only [layout, hl, if_true, Option.some.injEq] at h
      simp [← h, lead, trail, pad, hl]
    · simp only [layout, hl, if_false, Option.map_eq_some_iff] at h
      obtain ⟨front, hf, rfl⟩ := h
      simp [eq_of_overwrite hf, lead, trail, hl]
  | prompt =>
    by_cases hl : line = []
    · simp only [layout, hl, if_true, Option.some.injEq] at h
      simp [← h, lead, trail, pad, hl]
    · simp only [layout, hl, if_false] at h
      simp [eq_of_overwrite h, lead, trail, hl]
  | exit => exact (Option.some.inj h).symm

structure Drawn where
  display : Display
  bytes : List UInt8
  fault : Option Sink.Fault

def Drawn.flushed (d : Drawn) : Bool :=
  d.fault.isNone

/-- The progress line once a text has been written completely. -/
def nextLine (line text : String) : Kind → String
  | .progress => text
  | _ => line

/-- Writes and flushes one text. After a failed write nothing is flushed and the progress line is
what it was; `none` if the text cannot be laid out, and then nothing has changed. -/
def draw (d : Display) (kind : Kind) (text : String) : Option Drawn :=
  (layout d.line.toList text.toList kind).map fun cells =>
    let bytes := Utf8.encode cells
    let sink := d.sink.after bytes
    if d.sink.fits bytes then
      { display := ⟨nextLine d.line text kind, sink⟩, bytes,
        fault := if sink.failFlush then some .flush else none }
    else { display := { d with sink }, bytes := d.sink.accepted bytes, fault := some .write }

end Display

end JobConsole
