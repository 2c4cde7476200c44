import JobConsole.Script
import Mathlib.Dynamics.FixedPoints.Basic

/-!
Solo: a lone producer at a console without a mailbox. Each message is drawn the moment it is sent, so
there is never more than one thing that can happen next.
-/

namespace JobConsole

def soloist : TaskId :=
  .producer 0

namespace Solo

inductive Mode
  | taking
  | asking
  | leaving
  | gone
  deriving DecidableEq

/-- A printer that has drawn all that it was sent. -/
structure Front where
  display : Display
  mode : Mode
  shown : List Event

def Mode.behind : Message → Mode
  | .progress _ | .info _ => .taking
  | .prompt .. => .asking
  | .exit .. => .leaving

def sights (m : Message) (r : Display.Drawn) : List Event :=
  m.code?.toList.map (.ending .printer <| .exit ·) ++
    (if r.flushed then [.flushed] else []) ++ [.wrote r.bytes]

def Front.draw (f : Front) (m : Message) : Front :=
  match f.mode with
  | .taking =>
    match f.display.draw m.kind m.text with
    | none => { f with mode := .gone }
    | some r => { display := r.display, mode := .behind m, shown := sights m r ++ f.shown }
  | _ => f

end Solo

open Solo

structure Solo where
  front : Front
  reader : LineReader TaskId
  now : Nat
  timers : List Timer
  terminated : Bool
  hosted : Bool
  activity : Option Activity
  results : List Script.ProducerLine

namespace Solo

def setTimer (timers : List Timer) (t : Timer) : List Timer :=
  timers.takeWhile (·.deadline ≤ t.deadline) ++ t :: timers.dropWhile (·.deadline ≤ t.deadline)

def rest (s : Solo) (a : Activity) (w : Wait) : Solo :=
  { s with activity := some { a with wait := w } }

def finish (s : Solo) (a : Activity) (x : Statement) (rest : Program) (o : Outcome) : Solo :=
  match x.followUp o with
  | some next => { s with activity := some { a with program := next :: rest, wait := .fresh } }
  | none =>
    { s with
      activity := some { program := rest, index := a.index + 1 }
      results := ⟨0, a.index, o⟩ :: s.results }

/-- The wait for a reply that may never come. -/
def awaitReply (mode : Mode) : Wait :=
  if mode = .asking then .reply 0 else .hungUp

def send (s : Solo) (a : Activity) (x : Statement) (rest : Program) (m : Message) : Solo :=
  let s := { s with front := s.front.draw m }
  match m with
  | .progress _ | .info _ => s.finish a x rest .done
  | .prompt .. => s.rest a (awaitReply s.front.mode)
  | .exit .. => s.rest a .termination

def begin (s : Solo) (a : Activity) (x : Statement) (rest : Program) : Solo :=
  match x with
  | .progress text => s.send a x rest (.progress text)
  | .info text => s.send a x rest (.info text)
  | .prompt text | .ask text | .confirm text _ _ => s.send a x rest (.prompt text ⟨0, soloist⟩)
  | .exit text code => s.send a x rest (.exit text code)
  | .park => s.rest a .termination
  | .start .. => s
  | .state => s.finish a x rest (.observed false s.terminated)
  | .sleep n =>
    if n = 0 then s.finish a x rest .done
    else { s.rest a (.alarm (s.now + n)) with timers := setTimer s.timers ⟨s.now + n, soloist⟩ }
  | .hang => s.rest a .forever
  | .crash _ => { s with activity := none }

def goOn (s : Solo) (a : Activity) (x : Statement) (rest : Program) : Wait → Solo
  | .fresh => s.begin a x rest
  | .replied line => s.finish a x rest (.answered line)
  | .hungUp => if s.terminated then s.finish a x rest (.answered "") else s
  | .termination => if s.terminated then s.finish a x rest .returned else s
  | .alarm deadline => if deadline ≤ s.now then s.finish a x rest .done else s
  | .room _ | .reply _ | .forever => s

def proceed (s : Solo) : Solo :=
  match s.activity with
  | none => s
  | some a =>
    match a.program with
    | [] => { s with activity := none }
    | x :: rest => s.goOn a x rest a.wait

def hear (s : Solo) : Solo :=
  let p := s.reader.resume .printer
  match p.result with
  | none => { s with reader := p.reader }
  | some (.ok line) =>
    { s with
      reader := p.reader
      front.mode := .taking
      activity := s.activity.map ({ · with wait := .replied line }) }
  | some (.error failure) =>
    { s with
      reader := p.reader
      front.mode := .leaving
      front.shown := .ending .printer (.abort failure) :: s.front.shown
      activity := s.activity.map ({ · with wait := .hungUp }) }

def stop (s : Solo) : Solo :=
  { s with front.mode := .gone, terminated := true }

def step (s : Solo) : Solo :=
  match s.front.mode with
  | .taking => if s.hosted || s.activity.isSome then s.proceed else s.stop
  | .asking => s.hear
  | .leaving => s.stop
  | .gone => s.proceed

def Follows (s t : Solo) : Prop :=
  ∃ n, t = step^[n] s

variable {s t u : Solo}

theorem Follows.refl (s : Solo) : Follows s s :=
  ⟨0, rfl⟩

theorem Follows.next (h : t = s.step) : Follows s t :=
  ⟨1, h⟩

theorem Follows.trans (h : Follows s t) (g : Follows t u) : Follows s u := by
  obtain ⟨m, rfl⟩ := h
  obtain ⟨n, rfl⟩ := g
  exact ⟨n + m, (Function.iterate_add_apply ..).symm⟩

theorem Follows.meet (h : Follows s t) (g : Follows s u) : Follows t u ∨ Follows u t := by
  obtain ⟨m, rfl⟩ := h
  obtain ⟨n, rfl⟩ := g
  rcases Nat.le_total m n with hle | hle
  · obtain ⟨k, rfl⟩ := Nat.exists_eq_add_of_le' hle
    exact .inl ⟨k, Function.iterate_add_apply ..⟩
  · obtain ⟨k, rfl⟩ := Nat.exists_eq_add_of_le' hle
    exact .inr ⟨k, Function.iterate_add_apply ..⟩

theorem Follows.eq_of_fixed (h : Follows s t) (hs : s.step = s) : t = s := by
  obtain ⟨n, rfl⟩ := h
  exact Function.iterate_fixed hs n

def Meets (s t : Solo) : Prop :=
  ∃ u, Follows s u ∧ Follows t u

theorem Follows.meets (h : Follows s t) : Meets s t :=
  ⟨t, h, .refl t⟩

theorem Meets.refl (s : Solo) : Meets s s :=
  (Follows.refl s).meets

theorem Meets.symm (h : Meets s t) : Meets t s := by
  obtain ⟨u, hs, ht⟩ := h
  exact ⟨u, ht, hs⟩

theorem Meets.trans (h : Meets s t) (g : Meets t u) : Meets s u := by
  obtain ⟨v, hs, ht⟩ := h
  obtain ⟨w, ht', hu⟩ := g
  rcases ht.meet ht' with hv | hw
  · exact ⟨w, hs.trans hv, hu⟩
  · exact ⟨v, hs, hu.trans hw⟩

theorem Meets.eq_of_fixed (h : Meets s t) (hs : s.step = s) (ht : t.step = t) : s = t := by
  obtain ⟨u, hs', ht'⟩ := h
  exact (hs'.eq_of_fixed hs).symm.trans (ht'.eq_of_fixed ht)

end Solo

end JobConsole
