import JobConsole.Proofs.Screen

/-!
Truncation: a display whose sink accepts only so many bytes shows the front of what it would show
otherwise. Once a write has failed the progress line may be an old one, so that later calls are laid
out differently, but by then the sink takes nothing more.
-/

namespace JobConsole.Display

variable {d e : Display} {calls : List Message} {m : Message} {n k : Nat} {failFlush : Bool}

def received (d : Display) (calls : List Message) : List UInt8 :=
  d.transcript (calls.map .message)

def demand (d : Display) (m : Message) : List UInt8 :=
  ((layout d.line.toList m.text.toList m.kind).map Utf8.encode).getD []

def fault? (d : Display) (m : Message) : Option Sink.Fault :=
  (d.draw m.kind m.text).bind Drawn.fault

theorem received_concat (d : Display) (calls : List Message) (m : Message) :
    d.received (calls ++ [m]) = d.received calls ++ (d.afterCalls calls).written (.message m) := by
  unfold received afterCalls
  rw [List.map_append, List.map_singleton, transcript_concat]

theorem demand_congr (h : d.line = e.line) (m : Message) : d.demand m = e.demand m := by
  rw [demand, demand, h]

/-! One call. -/

theorem written_free (h : d.sink.budget = none) (m : Message) :
    d.written (.message m) = d.demand m := by
  unfold demand
  cases hl : layout d.line.toList m.text.toList m.kind with
  | none => simp [written, draw, hl]
  | some cells => exact (after_message h hl).2

def lineAfter (d : Display) (m : Message) : String :=
  (layout d.line.toList m.text.toList m.kind).elim d.line fun _ => nextLine d.line m.text m.kind

theorem lineAfter_congr (h : d.line = e.line) (m : Message) : d.lineAfter m = e.lineAfter m := by
  rw [lineAfter, lineAfter, h]

theorem line_after_free (h : d.sink.budget = none) (m : Message) :
    (d.after (.message m)).line = d.lineAfter m := by
  unfold lineAfter
  cases hl : layout d.line.toList m.text.toList m.kind with
  | none => rw [after_of_overrun hl, Option.elim_none]
  | some cells => rw [(after_message h hl).1, Option.elim_some]

structure Limited (d : Display) (k : Nat) (m : Message) : Prop where
  written : d.written (.message m) = (d.demand m).take k
  budget : (d.after (.message m)).sink.budget = some (k - (d.demand m).length)
  fails : d.fault? m = some .write ↔ k < (d.demand m).length
  line : (d.demand m).length ≤ k → (d.after (.message m)).line = d.lineAfter m

theorem demand_of_layout {cells : List Char}
    (hl : layout d.line.toList m.text.toList m.kind = some cells) :
    d.demand m = Utf8.encode cells := by
  rw [demand, hl, Option.map_some, Option.getD_some]

theorem limited_of_overrun (h : d.sink.budget = some k)
    (hl : layout d.line.toList m.text.toList m.kind = none) : d.Limited k m := by
  have hdraw : d.draw m.kind m.text = none := by simp [draw, hl]
  have hdemand : d.demand m = [] := by simp [demand, hl]
  refine ⟨?_, ?_, ?_, fun _ => ?_⟩
  · simp [Display.written, hdraw, hdemand]
  · simp [after_of_overrun hl, h, hdemand]
  · simp [fault?, hdraw, hdemand]
  · simp [after_of_overrun hl, lineAfter, hl]

theorem limited_of_fits {cells : List Char} (h : d.sink.budget = some k)
    (hl : layout d.line.toList m.text.toList m.kind = some cells)
    (hfit : (d.demand m).length ≤ k) : d.Limited k m := by
  have hdemand := demand_of_layout hl
  have hf : d.sink.fits (Utf8.encode cells) = true := by
    rw [← hdemand]
    simp [Sink.fits, h, hfit]
  have hdraw : d.draw m.kind m.text = some
      { display := ⟨nextLine d.line m.text m.kind, d.sink.after (Utf8.encode cells)⟩
        bytes := Utf8.encode cells
        fault := if (d.sink.after (Utf8.encode cells)).failFlush then some .flush else none } := by
    simp [draw, hl, hf]
  have hflush : d.fault? m ≠ some .write := by
    rw [fault?, hdraw, Option.bind_some]
    split <;> simp
  refine ⟨?_, ?_, ?_, fun _ => ?_⟩
  · rw [List.take_of_length_le hfit, hdemand]
    simp [Display.written, hdraw]
  · simp [after, hdraw, Sink.after, h, hdemand]
  · simp [hflush, hfit]
  · simp [after, hdraw, lineAfter, hl]

theorem limited_of_exceeds {cells : List Char} (h : d.sink.budget = some k)
    (hl : layout d.line.toList m.text.toList m.kind = some cells)
    (hfit : k < (d.demand m).length) : d.Limited k m := by
  have hdemand := demand_of_layout hl
  have hf : d.sink.fits (Utf8.encode cells) = false := by
    rw [← hdemand]
    simp [Sink.fits, h, hfit]
  have hdraw : d.draw m.kind m.text = some
      { display := { d with sink := d.sink.after (Utf8.encode cells) }
        bytes := d.sink.accepted (Utf8.encode cells)
        fault := some .write } := by
    simp [draw, hl, hf]
  refine ⟨?_, ?_, ?_, fun hle => absurd hle (Nat.not_le_of_lt hfit)⟩
  · simp [Display.written, hdraw, Sink.accepted, h, hdemand]
  · simp [after, hdraw, Sink.after, h, hdemand]
  · simp [fault?, hdraw, hfit]

theorem limited_of_budget (h : d.sink.budget = some k) (m : Message) : d.Limited k m := by
  cases hl : layout d.line.toList m.text.toList m.kind with
  | none => exact limited_of_overrun h hl
  | some cells =>
    rcases Nat.lt_or_ge k (d.demand m).length with hfit | hfit
    · exact limited_of_exceeds h hl hfit
    · exact limited_of_fits h hl hfit

/-! A display with a limit beside one without. -/

/-- How far two displays have come with the same calls: no write of the first one has failed yet, or
it accepts nothing more. -/
inductive Abreast (n : Nat) (d e : Display) (sent : List UInt8) : List UInt8 → Prop
  | whole (hline : d.line = e.line) (hfits : sent.length ≤ n)
      (hbudget : d.sink.budget = some (n - sent.length)) : Abreast n d e sent sent
  | spent (hover : n < sent.length) (hbudget : d.sink.budget = some 0) :
      Abreast n d e sent (sent.take n)

theorem Abreast.eq_take {sent received : List UInt8} (h : Abreast n d e sent received) :
    received = sent.take n := by
  cases h with
  | whole _ hfits => exact (List.take_of_length_le hfits).symm
  | spent => rfl

theorem Abreast.budget {sent received : List UInt8} (h : Abreast n d e sent received) :
    d.sink.budget = some (n - received.length) := by
  cases h with
  | whole _ _ hbudget => exact hbudget
  | spent hover hbudget =>
    rw [hbudget, List.length_take, Nat.min_eq_left (Nat.le_of_lt hover), Nat.sub_self]

theorem Abreast.line_eq {sent received : List UInt8} (h : Abreast n d e sent received)
    (hfits : sent.length ≤ n) : d.line = e.line := by
  cases h with
  | whole hline => exact hline
  | spent hover => exact absurd hfits (Nat.not_le_of_lt hover)

theorem Abreast.call {sent received : List UInt8} (h : Abreast n d e sent received)
    (he : e.sink.budget = none) (m : Message) :
    Abreast n (d.after (.message m)) (e.after (.message m)) (sent ++ e.written (.message m))
      (received ++ d.written (.message m)) := by
  cases h with
  | spent hover hbudget =>
    obtain ⟨hwritten, hafter, -, -⟩ := limited_of_budget hbudget m
    rw [hwritten, List.take_zero, List.append_nil]
    have htake : (sent ++ e.written (.message m)).take n = sent.take n :=
      List.take_append_of_le_length (Nat.le_of_lt hover)
    rw [← htake]
    refine .spent ?_ ?_
    · rw [List.length_append]
      omega
    · rw [hafter, Nat.zero_sub]
  | whole hline hfits hbudget =>
    obtain ⟨hwritten, hafter, -, hlast⟩ := limited_of_budget hbudget m
    have hdemand : e.written (.message m) = d.demand m := by
      rw [written_free he, demand_congr hline]
    rw [hdemand, hwritten]
    by_cases hle : (d.demand m).length ≤ n - sent.length
    · rw [List.take_of_length_le hle]
      refine .whole ?_ ?_ ?_
      · rw [hlast hle, line_after_free he, lineAfter_congr hline]
      · rw [List.length_append]
        omega
      · rw [hafter, List.length_append, Nat.sub_sub]
    · have htake : (sent ++ d.demand m).take n =
          sent ++ (d.demand m).take (n - sent.length) := by
        rw [List.take_append, List.take_of_length_le hfits]
      rw [← htake]
      refine .spent ?_ ?_
      · rw [List.length_append]
        omega
      · rw [hafter]
        congr 1
        omega

theorem abreast_of_calls (n : Nat) (failFlush failFlush' : Bool) (calls : List Message) :
    Abreast n (afterCalls { sink := ⟨some n, failFlush⟩ } calls)
      (afterCalls { sink := ⟨none, failFlush'⟩ } calls)
      (received { sink := ⟨none, failFlush'⟩ } calls)
      (received { sink := ⟨some n, failFlush⟩ } calls) := by
  induction calls using List.reverseRecOn with
  | nil => exact .whole rfl (Nat.zero_le n) rfl
  | append_singleton calls m ih =>
    rw [received_concat, received_concat, afterCalls_concat, afterCalls_concat]
    exact ih.call (budget_afterCalls rfl calls) m

structure Truncates (n : Nat) (d e : Display) (calls : List Message) : Prop where
  received : d.received calls = (e.received calls).take n
  fails : ∀ m, (d.afterCalls calls).fault? m = some .write ↔
    n < (d.received calls).length + ((d.afterCalls calls).demand m).length
  /-- The first call that fails is the one with which the display without a limit exceeds it. -/
  first : (e.received calls).length ≤ n → ∀ m,
    (d.afterCalls calls).fault? m = some .write ↔ n < (e.received (calls ++ [m])).length

/-- A sink that fills up receives the front of what it would receive without a limit, whichever of
the two can be flushed. -/
theorem truncates_of_calls (n : Nat) (failFlush failFlush' : Bool) (calls : List Message) :
    Truncates n { sink := ⟨some n, failFlush⟩ } { sink := ⟨none, failFlush'⟩ } calls := by
  have h := abreast_of_calls n failFlush failFlush' calls
  have hfails (m : Message) := (limited_of_budget h.budget m).fails
  have hle : (received { sink := ⟨some n, failFlush⟩ } calls).length ≤ n := by
    rw [h.eq_take]
    exact List.length_take_le ..
  refine ⟨h.eq_take, fun m => (hfails m).trans (by omega), fun hfits m => (hfails m).trans ?_⟩
  have hwhole := h.eq_take.trans (List.take_of_length_le hfits)
  rw [received_concat, List.length_append, written_free (budget_afterCalls rfl calls),
    ← demand_congr (h.line_eq hfits), ← hwhole]
  omega

/-- The sink is full in the middle of a character, and the progress line stays empty. An empty
prompt then has nothing to write, and does not fail. -/
example :
    let d : Display := { sink := ⟨some 2, false⟩ }
    d.received [.progress "é"] = [0x0D, 0xC3] ∧ d.fault? (.progress "é") = some .write ∧
      (d.afterCalls [.progress "é"]).fault? (.prompt "" ⟨0, .ticker⟩) = none := by
  decide +kernel

end JobConsole.Display
