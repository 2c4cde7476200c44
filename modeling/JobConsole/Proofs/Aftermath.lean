import JobConsole.Proofs.Staffing

namespace JobConsole.Console

variable {c d : Console} {id : TaskId} {more : Bool}

/-- A console that has wound down. Only naps and hung tasks go on. -/
structure WoundDown (c : Console) : Prop where
  calls : ∀ id a, c.standing id = .busy a → ∃ s rest, a.program = s :: rest ∧
    ((∃ n, s = .sleep n) ∨ s = .hang)
  signalWatch : c.signalWatch = .absent
  keywordWatch : c.keywordWatch = false
  ticker : c.ticker = .absent
  lock : c.reader.owner = none ∧ c.reader.waiting = []
  mailbox : c.mailbox.items = [] ∧ c.mailbox.granted = [] ∧ c.mailbox.waiting = []

theorem napping_of_placed {s : Statement} {rest : Program} {w : Wait}
    (h : Placed c.mailbox .stopped true c.parked False id (s :: rest) w) (hb : c.mailbox.IsShut)
    (hs : Suits s w) : (∃ n, s = .sleep n) ∨ s = .hang := by
  have hparked (h : False ∨ true = false ∧ id ∈ c.parked) : False := by simp at h
  cases h with
  | fresh h => exact h.elim
  | called _ _ h => exact h.elim
  | inLine _ h => rw [hb.waiting] at h; cases h
  | asking h => rw [hb.items] at h; cases h
  | answering h => cases h
  | replied h => exact h.elim
  | hungUp _ h => exact (hparked h).elim
  | parked _ h => exact (hparked h).elim
  | alarm =>
    cases hs with
    | alarm hs => exact .inl ⟨_, hs⟩
  | hung =>
    cases hs with
    | forever hs => exact .inr hs

theorem woundDown_of_quiescent (h : c.Attainable) (ht : c.terminated = true)
    (hq : c.ready = []) : WoundDown c := by
  have hp := h.staged.terminated_iff.1 ht
  have hn (i : TaskId) (hi : i ∈ c.ready) : False := by simp [hq] at hi
  have hc : c.Coheres fun _ => False := (h.coheres (by simp [hp])).mono hn
  have hgone (i : TaskId) (hi : c.Serves i) : False := hn i (h.awake ht i hi)
  have hshut : c.mailbox.IsShut := by
    cases h.staged with
    | running hs => exact absurd hp hs
    | stopped _ hb => exact hb
    | crashed hs => rw [hp] at hs; cases hs
  have hwatch : c.keywordWatch = false := by simpa [Serves] using hgone .keywordWatch
  have hreaders (i : TaskId) (hi : c.reader.owner = some i ∨ i ∈ c.reader.waiting) : False := by
    have hr := hc.attended.readers i hi
    cases i with
    | printer =>
      obtain ⟨slot, hs⟩ := hr
      rw [hp] at hs
      cases hs
    | keywordWatch => exact hgone .keywordWatch hr
    | _ => exact hr
  constructor
  case signalWatch =>
    cases hs : c.signalWatch with
    | absent => rfl
    | _ => exact (hgone .signalWatch (by simp [Serves, hs])).elim
  case keywordWatch => exact hwatch
  case ticker =>
    cases hk : c.ticker with
    | absent => rfl
    | _ => exact (hgone .ticker (by simp [Serves, hk, Ticker.isAlive])).elim
  case lock =>
    constructor
    · cases ho : c.reader.owner with
      | none => rfl
      | some i => exact (hreaders i (.inl ho)).elim
    · exact List.eq_nil_iff_forall_not_mem.2 fun i hi => hreaders i (.inr hi)
  case mailbox => exact ⟨hshut.items, hshut.granted, hshut.waiting⟩
  case calls =>
    intro id a hb
    have hs := h.suited id
    have hplaced := hc.placed id a hb
    obtain ⟨program, index, wait⟩ := a
    rw [hb] at hs
    rw [hp, ht] at hplaced
    cases program with
    | nil =>
      cases hplaced with
      | spent h => exact h.elim
    | cons s rest => exact ⟨s, rest, rfl, napping_of_placed hplaced hshut hs⟩

def windDown : List Move :=
  [.spawn [.exit "bye" ⟨0⟩], .spawn [.prompt "?"], .spawn [.start 0 false], .step (.producer 0),
    .step (.producer 1), .step .printer, .step (.producer 0), .step .printer, .step (.producer 2),
    .step (.producer 2), .step (.producer 1), .step (.producer 1), .step (.producer 1),
    .step (.producer 0), .step (.producer 0), .step .signalWatch, .step .signalWatch,
    .step .keywordWatch, .step .ticker]

theorem woundDown_of_windDown : ∃ c₀, new? { mailboxCapacity := 1 } [] {} {} = some c₀ ∧
    (c₀.play windDown).terminated = true ∧ (c₀.play windDown).ready = [] ∧
      WoundDown (c₀.play windDown) := by
  refine ⟨_, rfl, by decide, by decide, ?_⟩
  have hr : Reachable (play _ windDown) :=
    ⟨{ mailboxCapacity := 1 }, [], {}, {}, _, windDown, rfl, .of_legal (by decide)⟩
  exact woundDown_of_quiescent hr.attainable (by decide) (by decide)

end JobConsole.Console
