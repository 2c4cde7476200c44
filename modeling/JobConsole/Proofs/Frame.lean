import JobConsole.Proofs.Turn

namespace JobConsole.Console

variable (c : Console)

/-- What has happened, the earliest first. -/
def events : List Event :=
  (c.journal.map Entry.event).reverse

@[simp]
theorem events_record (e : Event) : (c.record e).events = c.events ++ [e] := by
  simp [events, record]

@[simp]
theorem events_log (d : Diagnostic) : (c.log d).events = c.events ++ [.logged d] :=
  events_record c _

theorem turn_eq_step (id : TaskId) :
    ∃ ready, c.step id = { (c.turn id).1 with ready } := by
  unfold step
  dsimp only
  split <;> exact ⟨_, rfl⟩

theorem mem_foldl_enlist {i : TaskId} {ids : List TaskId} : ∀ {ready : List TaskId},
    i ∈ ids.foldl enlist ready ↔ i ∈ ready ∨ i ∈ ids := by
  induction ids with
  | nil => simp
  | cons j ids ih =>
    intro ready
    rw [List.foldl_cons, ih, mem_enlist, List.mem_cons, or_assoc]

theorem mem_wakeAll {i : TaskId} {ids : List TaskId} :
    i ∈ (c.wakeAll ids).ready ↔ i ∈ c.ready ∨ i ∈ ids :=
  mem_foldl_enlist

theorem setActivity_eq (id : TaskId) (a : Activity) :
    ∃ producers ticker, c.setActivity id a = { c with producers, ticker } := by
  cases id <;> exact ⟨_, _, rfl⟩

theorem setWait_eq (id : TaskId) (w : Wait) :
    ∃ producers ticker, c.setWait id w = { c with producers, ticker } := by
  unfold setWait
  split
  · exact c.setActivity_eq _ _
  · exact ⟨_, _, rfl⟩

theorem hangUp_eq (slot : ReplySlot) :
    ∃ producers ticker ready, c.hangUp slot = { c with producers, ticker, ready } := by
  unfold hangUp
  split
  · obtain ⟨producers, ticker, h⟩ := c.setWait_eq slot.asker .hungUp
    exact ⟨producers, ticker, _, by rw [h]; rfl⟩
  · exact ⟨_, _, _, rfl⟩

theorem hangUpOn_eq (m : Message) :
    ∃ producers ticker ready, c.hangUpOn m = { c with producers, ticker, ready } := by
  cases m with
  | prompt text slot => exact c.hangUp_eq slot
  | _ => exact ⟨_, _, _, rfl⟩

theorem answer_eq (slot : ReplySlot) (line : String) :
    (∃ producers ticker ready, c.answer slot line = { c with producers, ticker, ready }) ∨
      c.answer slot line = c.log .askerGone := by
  unfold answer
  split
  · obtain ⟨producers, ticker, h⟩ := c.setWait_eq slot.asker (.replied line)
    exact .inl ⟨producers, ticker, _, by rw [h]; rfl⟩
  · exact .inr rfl

theorem answer_fields (slot : ReplySlot) (line : String) :
    ∃ producers ticker ready journal,
      c.answer slot line = { c with producers, ticker, ready, journal } := by
  rcases c.answer_eq slot line with ⟨producers, ticker, ready, h⟩ | h <;> rw [h] <;>
    exact ⟨_, _, _, _, rfl⟩

theorem shown_eq (kind : Kind) (r : Display.Drawn) :
    ∃ display journal, c.shown kind r = { c with display, journal } := by
  unfold shown
  split <;> exact ⟨_, _, rfl⟩

theorem discardAll_eq (ms : List Message) : ∀ c : Console, ∃ producers ticker ready,
    ms.foldl (fun c m => (c.record (.discarded m)).hangUpOn m) c =
      { c with
        producers, ticker, ready
        journal := ms.reverse.map (⟨c.now, .discarded ·⟩) ++ c.journal } := by
  induction ms with
  | nil => exact fun c => ⟨_, _, _, rfl⟩
  | cons m ms ih =>
    intro c
    obtain ⟨p, t, r, h⟩ := (c.record (.discarded m)).hangUpOn_eq m
    obtain ⟨p', t', r', h'⟩ := ih ((c.record (.discarded m)).hangUpOn m)
    refine ⟨p', t', r', ?_⟩
    rw [List.foldl_cons, h', h]
    simp [record]

theorem discard_eq : ∃ producers ticker ready, c.discard =
    { c with
      mailbox := c.mailbox.drain
      producers, ticker, ready
      journal := c.mailbox.items.reverse.map (⟨c.now, .discarded ·⟩) ++ c.journal } :=
  discardAll_eq c.mailbox.items _

theorem stopPrinter_eq : ∃ producers ticker ready, c.stopPrinter =
    { c with
      mailbox := c.mailbox.close.drain
      terminated := true
      parked := []
      printer := .stopped
      producers, ticker, ready
      journal := c.mailbox.items.reverse.map (⟨c.now, .discarded ·⟩) ++
        ⟨c.now, .logged .printerStopped⟩ :: c.journal } :=
  discard_eq _

theorem crashPrinter_eq (m : Message) : ∃ producers ticker ready, c.crashPrinter m =
    { c with
      mailbox := c.mailbox.close.drain
      printer := .crashed
      producers, ticker, ready
      journal := c.mailbox.items.reverse.map (⟨c.now, .discarded ·⟩) ++ c.journal } := by
  obtain ⟨p, t, r, h⟩ := c.hangUpOn_eq m
  obtain ⟨p', t', r', h'⟩ := ({ c.hangUpOn m with printer := .crashed }.closeMailbox).discard_eq
  refine ⟨p', t', r', ?_⟩
  unfold crashPrinter
  rw [h', h]
  rfl

theorem events_discarded (ms : List Message) :
    events { c with journal := ms.reverse.map (⟨c.now, .discarded ·⟩) ++ c.journal } =
      c.events ++ ms.map Event.discarded := by
  simp [events, Function.comp_def]

theorem events_stopPrinter : c.stopPrinter.events =
    c.events ++ [.logged .printerStopped] ++ c.mailbox.items.map Event.discarded := by
  have he := (c.log .printerStopped).events_discarded c.mailbox.items
  obtain ⟨producers, ticker, ready, h⟩ := c.stopPrinter_eq
  rw [h, ← events_log]
  exact he

theorem events_crashPrinter (m : Message) :
    (c.crashPrinter m).events = c.events ++ c.mailbox.items.map Event.discarded := by
  have he := c.events_discarded c.mailbox.items
  obtain ⟨producers, ticker, ready, h⟩ := c.crashPrinter_eq m
  rw [h]
  exact he

inductive Supervised (c : Console) (k : Nat) (interactive : Bool) : Console → Bool → Prop
  | already {s : Supervision} (h : c.supervision = some s) :
      Supervised c k interactive (c.log (.alreadyStarted (c.job k).name)) false
  | started {ready : List TaskId} (h : c.supervision = none)
      (hr : ∀ i, i ∈ ready ↔ i ∈ c.ready ∨ i = .ticker ∨
        (c.settings.watchSignals ∧ i = .signalWatch) ∨ (interactive = false ∧ i = .keywordWatch)) :
      Supervised c k interactive
        { c.log (.started (c.job k).name c.settings.interval interactive) with
          supervision := some { job := k }
          signalWatch := if c.settings.watchSignals then .registering else c.signalWatch
          keywordWatch := c.keywordWatch || !interactive
          ticker := .checking
          ready } true

theorem supervise_cases (k : Nat) (interactive : Bool) :
    Supervised c k interactive (c.supervise k interactive).1 (c.supervise k interactive).2 := by
  unfold supervise
  cases h : c.supervision with
  | some s => exact .already h
  | none =>
    have hs := @Supervised.started c k interactive
    cases hw : c.settings.watchSignals <;> cases interactive <;>
      simp only [hw, if_true, if_false, Bool.false_eq_true, Bool.not_true, Bool.not_false,
        Bool.or_true, Bool.or_false] at hs ⊢
    all_goals
      apply hs h
      intro i
      simp only [wake, log, record, mem_enlist]
      grind

def startNews (s : Supervision) : List Event :=
  (c.request.toList.map fun r => .logged (.cancelling (c.job s.job).name r)) ++
    [.call s.job c.request ((s.tally.next c.request).number c.request) .began]

theorem events_beginCall (s : Supervision) :
    (c.beginCall s).events = c.events ++ c.startNews s := by
  unfold beginCall startNews
  dsimp only
  cases c.request with
  | none => exact events_record _ _
  | some r =>
    rw [events_record, events_log, List.append_assoc]
    rfl

theorem beginCall_eq (s : Supervision) : ∃ request supervision ticker journal,
    c.beginCall s = { c with request, supervision, ticker, journal } := by
  unfold beginCall
  cases c.request <;> exact ⟨_, _, _, _, rfl⟩

theorem beginCall_spec (s : Supervision) : (c.beginCall s).request = none ∧
    (c.beginCall s).supervision = some { s with tally := s.tally.next c.request } ∧
      (c.beginCall s).ticker = .calling c.request
        { program := (c.job s.job).call (s.tally.next c.request) c.request } := by
  unfold beginCall
  cases c.request <;> exact ⟨rfl, rfl, rfl⟩

theorem endKeywordWatch_eq : ∃ reader ready,
    c.endKeywordWatch = { c with reader, ready, keywordWatch := false } :=
  ⟨_, _, rfl⟩

/-! Turns as a whole. -/

variable {c} {d : Console} {more : Bool}

theorem PrinterTurn.frame (h : PrinterTurn c d more) :
    ∃ mailbox display reader ready terminated parked printer producers ticker journal, d =
      { c with
        mailbox, display, reader, ready, terminated, parked, printer, producers, ticker, journal } := by
  cases h with
  | gone | idle | pending => exact ⟨_, _, _, _, _, _, _, _, _, _, rfl⟩
  | deserted | left =>
    obtain ⟨producers, ticker, ready, he⟩ := c.stopPrinter_eq
    exact ⟨_, _, _, _, _, _, _, _, _, _, he⟩
  | @choked t =>
    obtain ⟨producers, ticker, ready, he⟩ := (c.take t).crashPrinter_eq t.message
    exact ⟨_, _, _, _, _, _, _, _, _, _, he⟩
  | @told t r | @asked t r | @exited t r =>
    obtain ⟨display, journal, he⟩ := (c.take t).shown_eq t.message.kind r
    rw [he]
    exact ⟨_, _, _, _, _, _, _, _, _, _, rfl⟩
  | @heard slot line =>
    obtain ⟨producers, ticker, ready, journal, he⟩ :=
      ((c.resumeRead .printer).record (.read .printer (.ok line))).answer_fields slot line
    rw [he]
    exact ⟨_, _, _, _, _, _, _, _, _, _, rfl⟩
  | @failed slot failure =>
    obtain ⟨producers, ticker, ready, he⟩ :=
      ((((c.resumeRead .printer).record (.read .printer (.error failure))).log
        (.answerFailed failure)).record (.ending .printer (.abort failure))).hangUp_eq slot
    rw [he]
    exact ⟨_, _, _, _, _, _, _, _, _, _, rfl⟩

theorem KeywordWatchTurn.frame (h : KeywordWatchTurn c d more) :
    ∃ reader ready request keywordWatch journal, d =
      { c with reader, ready, request, keywordWatch, journal } := by
  cases h with
  | off | pending | other => exact ⟨_, _, _, _, _, rfl⟩
  | stop =>
    obtain ⟨reader, ready, he⟩ := c.endKeywordWatch_eq
    rw [he]
    exact ⟨_, _, _, _, _, rfl⟩
  | @keyword line =>
    obtain ⟨reader, ready, he⟩ := ((((c.resumeRead .keywordWatch).record
      (.read .keywordWatch (.ok line))).log .keywordReceived).offer .keyword).endKeywordWatch_eq
    rw [he]
    exact ⟨_, _, _, _, _, rfl⟩
  | @failed failure =>
    obtain ⟨reader, ready, he⟩ := ((((c.resumeRead .keywordWatch).record
      (.read .keywordWatch (.error failure))).log (.watchFailed failure)).record
        (.ending .keywordWatch (.abort failure))).endKeywordWatch_eq
    rw [he]
    exact ⟨_, _, _, _, _, rfl⟩

theorem SignalWatchTurn.frame (h : SignalWatchTurn c d more) :
    ∃ request signalWatch journal, d = { c with request, signalWatch, journal } := by
  cases h <;> exact ⟨_, _, _, rfl⟩

end JobConsole.Console
