import Mathlib.Data.List.TakeDrop
import JobConsole.Proofs.Truncation

/-!
Retention: whatever becomes of writes and flushes, the progress line is the latest progress text
that was written completely. Calls whose texts cannot be laid out leave no trace.
-/

namespace JobConsole

theorem Sink.fits_iff {s : Sink} {bytes : List UInt8} :
    s.fits bytes = true ↔ s.accepted bytes = bytes := by
  refine ⟨accepted_of_fits, fun h => ?_⟩
  unfold accepted at h
  unfold fits
  split at h
  · rfl
  · rename_i n
    rw [List.take_eq_self_iff] at h
    exact decide_eq_true h

namespace Display

variable {d : Display} {ps : List Print} {m : Message} {p : Print} {cells : List Char}

def takes (d : Display) (m : Message) : Bool :=
  !d.isOverrun (.message m) && decide (d.written (.message m) =
    Utf8.encode (lead d.line.toList m.kind ++ m.text.toList ++
      trail d.line.toList m.text.toList m.kind))

def completed? (d : Display) : Print → Option String
  | .message (.progress text) => if d.takes (.progress text) then some text else none
  | _ => none

def completed (d : Display) : List Print → List String
  | [] => []
  | p :: ps => (d.completed? p).toList ++ (d.after p).completed ps

/-- The prints without the calls that cannot be laid out at their turn. -/
def sober (d : Display) : List Print → List Print
  | [] => []
  | p :: ps => (if d.isOverrun p then [] else [p]) ++ (d.after p).sober ps

def outcomes (d : Display) : List Print → List (Option Drawn)
  | [] => []
  | .message m :: ps => d.draw m.kind m.text :: (d.after (.message m)).outcomes ps
  | .sink s :: ps => (d.after (.sink s)).outcomes ps

/-! One call. -/

/-- A text that was laid out is written completely and may change the progress line, or its write
fails and leaves the progress line alone. -/
theorem written_or_failed (hl : layout d.line.toList m.text.toList m.kind = some cells) :
    d.written (.message m) = Utf8.encode cells ∧
        (d.after (.message m)).line = nextLine d.line m.text m.kind ∧ d.fault? m ≠ some .write ∨
      d.written (.message m) ≠ Utf8.encode cells ∧
        (d.after (.message m)).line = d.line ∧ d.fault? m = some .write := by
  simp only [written, after, fault?, draw, hl, Option.map_some, Option.elim_some, Option.bind_some]
  cases h : d.sink.fits (Utf8.encode cells) with
  | true =>
    refine .inl ⟨rfl, rfl, ?_⟩
    change (if _ then _ else _) ≠ _
    split <;> simp
  | false => exact .inr ⟨fun he => by simp [Sink.fits_iff.2 he] at h, rfl, rfl⟩

theorem takes_of_layout (hl : layout d.line.toList m.text.toList m.kind = some cells) :
    d.takes m = decide (d.written (.message m) = Utf8.encode cells) := by
  rw [takes, isOverrun_eq_false_iff.2 ⟨cells, hl⟩, ← eq_of_layout hl]
  rfl

theorem takes_of_isOverrun (h : d.isOverrun (.message m) = true) : d.takes m = false := by
  rw [takes, h]
  rfl

theorem takes_iff : d.takes m = true ↔
    d.isOverrun (.message m) = false ∧ d.fault? m ≠ some .write := by
  cases h : d.isOverrun (.message m) with
  | true => simp [takes_of_isOverrun h]
  | false =>
    obtain ⟨cells, hl⟩ := isOverrun_eq_false_iff.1 h
    rw [takes_of_layout hl]
    rcases written_or_failed hl with ⟨hw, -, hf⟩ | ⟨hw, -, hf⟩ <;> simp [hw, hf]

theorem after_of_isOverrun (h : d.isOverrun p = true) : d.after p = d ∧ d.written p = [] := by
  cases p with
  | sink s => cases h
  | message m =>
    have hd := draw_eq_none_iff.2 h
    exact ⟨by simp [after, hd], by simp [written, hd]⟩

theorem line_after_message : (d.after (.message m)).line =
    if d.takes m then nextLine d.line m.text m.kind else d.line := by
  cases h : d.isOverrun (.message m) with
  | true => simp [takes_of_isOverrun h, (after_of_isOverrun h).1]
  | false =>
    obtain ⟨cells, hl⟩ := isOverrun_eq_false_iff.1 h
    rw [takes_of_layout hl]
    rcases written_or_failed hl with ⟨hw, hline, -⟩ | ⟨hw, hline, -⟩ <;> simp [hw, hline]

theorem line_after (d : Display) (p : Print) : (d.after p).line = (d.completed? p).getD d.line := by
  cases p with
  | sink s => rfl
  | message m =>
    rw [line_after_message]
    cases m with
    | progress text =>
      simp only [completed?]
      split <;> rfl
    | _ => exact ite_self _

/-! Any number of prints. -/

theorem line_afterAll (d : Display) (ps : List Print) :
    (d.afterAll ps).line = (d.completed ps).getLast?.getD d.line := by
  induction ps generalizing d with
  | nil => rfl
  | cons p ps ih =>
    change ((d.after p).afterAll ps).line = _
    rw [ih, line_after, completed, List.getLast?_append]
    cases (d.after p).completed ps |>.getLast? <;> cases d.completed? p <;> rfl

theorem sober_cons (d : Display) (p : Print) (ps : List Print) :
    d.isOverrun p = true ∧ d.sober (p :: ps) = d.sober ps ∨
      d.isOverrun p = false ∧ d.sober (p :: ps) = p :: (d.after p).sober ps := by
  cases h : d.isOverrun p with
  | true => exact .inl ⟨rfl, by simp [sober, h, (after_of_isOverrun h).1]⟩
  | false => exact .inr ⟨rfl, by simp [sober, h]⟩

theorem afterAll_sober (d : Display) (ps : List Print) :
    d.afterAll (d.sober ps) = d.afterAll ps := by
  induction ps generalizing d with
  | nil => rfl
  | cons p ps ih =>
    change _ = (d.after p).afterAll ps
    rcases d.sober_cons p ps with ⟨h, hs⟩ | ⟨-, hs⟩
    · rw [hs, ih, (after_of_isOverrun h).1]
    · rw [hs]
      exact ih (d.after p)

theorem transcript_sober (d : Display) (ps : List Print) :
    d.transcript (d.sober ps) = d.transcript ps := by
  induction ps generalizing d with
  | nil => rfl
  | cons p ps ih =>
    rcases d.sober_cons p ps with ⟨h, hs⟩ | ⟨-, hs⟩
    · obtain ⟨ha, hw⟩ := after_of_isOverrun h
      rw [hs, ih, transcript, ha, hw, List.nil_append]
    · rw [hs, transcript, transcript, ih]

theorem outcomes_sober (d : Display) (ps : List Print) :
    d.outcomes (d.sober ps) = (d.outcomes ps).filter Option.isSome := by
  induction ps generalizing d with
  | nil => rfl
  | cons p ps ih =>
    cases p with
    | sink s =>
      rcases d.sober_cons (.sink s) ps with ⟨h, -⟩ | ⟨-, hs⟩
      · cases h
      · rw [hs, outcomes, outcomes, ih]
    | message m =>
      rw [outcomes]
      rcases d.sober_cons (.message m) ps with ⟨h, hs⟩ | ⟨h, hs⟩
      · rw [hs, ih, draw_eq_none_iff.2 h, (after_of_isOverrun h).1]
        rfl
      · have hd : (d.draw m.kind m.text).isSome = true := by
          rw [Option.isSome_iff_ne_none, ne_eq, draw_eq_none_iff, h]
          exact Bool.false_ne_true
        rw [hs, outcomes, ih, List.filter_cons_of_pos hd]

structure Retentive (d : Display) (ps : List Print) : Prop where
  line : (d.afterAll ps).line = (d.completed ps).getLast?.getD ""
  /-- A failed flush is no failed write. -/
  renewed : ∀ text, (d.afterAll ps).isOverrun (.message (.progress text)) = false →
    (d.afterAll ps).fault? (.progress text) ≠ some .write →
      ((d.afterAll ps).after (.message (.progress text))).line = text
  kept : ∀ m, m.kind ≠ .progress ∨ (d.afterAll ps).fault? m = some .write ∨
    (d.afterAll ps).isOverrun (.message m) = true →
      ((d.afterAll ps).after (.message m)).line = (d.afterAll ps).line
  unwritten : ∀ m, (d.afterAll ps).isOverrun (.message m) = true →
    (d.afterAll ps).draw m.kind m.text = none ∧ (d.afterAll ps).written (.message m) = []
  outcomes : d.outcomes (d.sober ps) = (d.outcomes ps).filter Option.isSome
  transcript : d.transcript (d.sober ps) = d.transcript ps
  display : d.afterAll (d.sober ps) = d.afterAll ps

/-- The progress line is the text of the last progress call that was written completely. No other
call changes it, and those that cannot be laid out can be left out. -/
theorem retentive_of_prints (sink : Sink) (ps : List Print) : Retentive { sink } ps := by
  let d : Display := afterAll { sink } ps
  constructor
  case line => exact line_afterAll { sink } ps
  case renewed =>
    intro text hpad hfault
    rw [line_after_message, if_pos (takes_iff.2 ⟨hpad, hfault⟩)]
    rfl
  case kept =>
    intro m h
    rw [line_after_message]
    rcases h with h | h | h
    · have hn : nextLine d.line m.text m.kind = d.line := by
        cases m <;> first | rfl | exact absurd rfl h
      rw [hn, ite_self]
    · rw [if_neg fun ht => (takes_iff.1 ht).2 h]
    · rw [if_neg fun ht => by simp [(takes_iff.1 ht).1] at h]
  case unwritten => exact fun m h => ⟨draw_eq_none_iff.2 h, (after_of_isOverrun h).2⟩
  case outcomes => exact outcomes_sober _ _
  case transcript => exact transcript_sober _ _
  case display => exact afterAll_sober _ _

example :
    let ps : List Print := [.message (.progress "50%"), .sink ⟨some 3, false⟩,
      .message (.progress "51%"), .sink ⟨none, true⟩, .message (.progress "52%"),
      .message (.prompt "?" ⟨0, .ticker⟩), .message (.info "")]
    completed {} ps = ["50%", "52%"] ∧ (afterAll {} ps).line = "52%" := by
  decide +kernel

end Display

end JobConsole
