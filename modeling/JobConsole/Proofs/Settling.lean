import JobConsole.Proofs.Effort

namespace JobConsole

theorem Job.load_call_le (j : Job) (t : Tally) (request : Option Request) :
    Program.load (j.call (t.next request) request) ≤ j.load t := by
  cases request with
  | none => exact Nat.le_add_right ..
  | some r => exact Nat.le_add_left ..

namespace Console

variable {c d : Console} {id : TaskId} {a : Activity} {note : Outcome → Event} {pace : Pace}
  {more : Bool} {ids : List TaskId} {t : Mailbox.Taken TaskId}

/-- The task has lowered the workload, or it has come to rest and is still to be taken off those
that can run. -/
def Eases (c : Console) (id : TaskId) (d : Console) (more : Bool) : Prop :=
  d.workload < c.workload ∨
    more = false ∧ d.workload ≤ c.workload ∧ (id ∈ c.ready → id ∈ d.ready)

theorem Eases.refl (c : Console) (id : TaskId) : Eases c id c false :=
  .inr ⟨rfl, Nat.le_refl _, fun h => h⟩

theorem Eases.workload_le (h : Eases c id d more) : d.workload ≤ c.workload :=
  h.elim Nat.le_of_lt fun h => h.2.1

theorem Pursuit.eases (h : Pursuit c id a note d pace) (ha : c.standing id = .busy a)
    (hp : pace = .resting ∨ pace = .moving) : Eases c id d (pace = .moving) := by
  obtain ⟨hle, hlt⟩ := h.workload_le ha hp
  rcases hp with rfl | rfl
  · refine .inr ⟨rfl, hle, fun hi => ?_⟩
    cases h with
    | rested _ he =>
      rw [ready_setActivity]
      exact (deed_of_perform he).mem_ready hi
  · exact .inl (hlt rfl)

/-! Producers. -/

theorem workload_endProducer_lt {n : Nat} (ha : c.activity? (.producer n) = some a) :
    (c.endProducer n).workload < c.workload := by
  have hn : c.producers[n]? = some (some a) := Option.join_eq_some_iff.1 ha
  have ht := c.toil_setProducers (c.producers.set n none) (List.length_set ..)
  have hs := total_set (f := producerLoad) hn none
  have hl := workload_letGo_le { c with producers := c.producers.set n none }
  simp only [workload_eq { c with producers := c.producers.set n none }, producerLoad] at hl hs
  rw [c.workload_eq, endProducer]
  omega

theorem ProducerTurn.eases {n : Nat} (h : ProducerTurn c n d more) :
    Eases c (.producer n) d more := by
  cases h with
  | off => exact .refl c _
  | on ha hd hp => exact hd.eases (standing_producer.2 ha) hp
  | quit ha hd hp =>
    rw [hd.stop_eq hp]
    exact .inl (workload_endProducer_lt ha)

/-! The ticker. -/

theorem workload_withdraw_le (c : Console) (id : TaskId) :
    (c.withdraw id).workload ≤ c.workload + 1 := by
  have hitems : (c.mailbox.leave id).1.items = c.mailbox.items := (c.mailbox.leave_items id).1
  have hm := c.toil_setMailbox (c.mailbox.leave id).1
  have hready : (c.ready.erase id).length ≤ c.ready.length := List.length_erase_le
  have hw := workload_wakeOne_le { c with
    mailbox := (c.mailbox.leave id).1
    parked := c.parked.erase id
    timers := c.timers.filter (·.task ≠ id)
    ready := c.ready.erase id } (c.mailbox.leave id).2
  have he : workload { c with
      mailbox := (c.mailbox.leave id).1
      parked := c.parked.erase id
      timers := c.timers.filter (·.task ≠ id)
      ready := c.ready.erase id } =
    (c.ready.erase id).length + toil { c with mailbox := (c.mailbox.leave id).1 } := workload_eq _
  rw [hitems] at hm
  rw [c.workload_eq, withdraw]
  omega

theorem workload_setTicker (c : Console) (t : Ticker) :
    workload { c with ticker := t } + c.tickerLoad =
      c.workload + tickerLoad { c with ticker := t } := by
  have ht := c.toil_setTicker t
  simp only [workload_eq]
  omega

theorem workload_pause (c : Console) : c.pause.workload + c.tickerLoad = c.workload + 6 := by
  have hpos : 1 ≤ c.intervalMilliseconds := c.settings.one_le_ceilMilliseconds_interval
  have ht := c.workload_setTicker (.sleeping (c.now + c.intervalMilliseconds))
  have hl : tickerLoad { c with ticker := .sleeping (c.now + c.intervalMilliseconds) } = 6 :=
    if_neg (by dsimp only; omega)
  rw [hl] at ht
  exact ht

theorem workload_beginCall_lt {s : Supervision} (hs : c.supervision = some s)
    (hk : c.ticker = .checking) : (c.beginCall s).workload < c.workload := by
  obtain ⟨-, hv, ht⟩ := c.beginCall_spec s
  obtain ⟨request, supervision, ticker, journal, he⟩ := c.beginCall_eq s
  have hload : c.tickerLoad = 20 + (c.job s.job).load s.tally := by
    rw [tickerLoad, hk]
    simp only [nextCallLoad, hs]
  have hcall : (c.beginCall s).tickerLoad ≤ 10 + (c.job s.job).load s.tally := by
    rw [tickerLoad, ht]
    dsimp only
    rw [Activity.load_fresh]
    exact Nat.add_le_add_left (Job.load_call_le ..) 10
  have hstart : c.startLoad = 0 := by rw [startLoad, hs]
  have hstart' : (c.beginCall s).startLoad = 0 := by rw [startLoad, hv]
  have hrest : (c.beginCall s).workload + c.tickerLoad + c.startLoad =
      c.workload + (c.beginCall s).tickerLoad + (c.beginCall s).startLoad := by
    rw [he]
    simp only [workload, printerLoad, taskCount, signalWatchLoad, inputLoad]
    omega
  omega

theorem load_recover (c : Console) (s : Supervision) (request : Option Request) :
    (c.recover s request).workload = c.workload ∧
      (c.recover s request).tickerLoad = c.tickerLoad := by
  cases request <;> exact ⟨rfl, rfl⟩

theorem CallTurn.eases {s : Supervision} {request : Option Request}
    (h : CallTurn c s request a d more) (hs : c.supervision = some s)
    (hk : c.ticker = .calling request a) : Eases c .ticker d more := by
  have hload : c.tickerLoad = 10 + a.load := by rw [tickerLoad, hk]
  cases h with
  | on hd hp => exact hd.eases (standing_calling hs hk) hp
  | ended hd =>
    rw [hd.stop_eq (.inl rfl)]
    have hp : (c.record (.call s.job request (s.tally.number request) .ended)).pause.workload +
        c.tickerLoad = c.workload + 6 := workload_pause _
    exact .inl (by omega)
  | crashed hd =>
    rw [hd.stop_eq (.inr rfl)]
    have hp := workload_pause
      ((c.record (.call s.job request (s.tally.number request) .crashed)).recover s request)
    obtain ⟨hw, hl⟩ := load_recover
      (c.record (.call s.job request (s.tally.number request) .crashed)) s request
    have hr : (c.record (.call s.job request (s.tally.number request) .crashed)).workload =
      c.workload := rfl
    have ht : (c.record (.call s.job request (s.tally.number request) .crashed)).tickerLoad =
      c.tickerLoad := rfl
    exact .inl (by omega)

theorem workload_stopTicker_lt (hk : c.ticker ≠ .absent) (s : Supervision) :
    (c.stopTicker s).workload < c.workload := by
  have hload : 6 ≤ c.tickerLoad := by
    unfold tickerLoad
    cases hc : c.ticker with
    | absent => exact absurd hc hk
    | sleeping deadline => dsimp only; split <;> omega
    | _ => dsimp only; omega
  have hstop := c.workload_setTicker .absent
  have habsent : tickerLoad { c with ticker := .absent } = 0 := rfl
  have hw := workload_withdraw_le { c with ticker := .absent } .ticker
  have hl := workload_letGo_le ((log { c.withdraw .ticker with ticker := .absent }
    (.stopped (c.job s.job).name)))
  have he : (log { c.withdraw .ticker with ticker := .absent }
      (.stopped (c.job s.job).name)).workload =
    (withdraw { c with ticker := .absent } .ticker).workload := rfl
  rw [stopTicker]
  omega

theorem TickerTurn.eases (h : TickerTurn c d more) : Eases c .ticker d more := by
  cases h with
  | off | asleep => exact .refl c _
  | stop _ hk => exact .inl (workload_stopTicker_lt hk _)
  | call hs hk => exact .inl (workload_beginCall_lt hs hk)
  | on hs hk _ hd hp => exact hd.eases (standing_calling hs hk) hp
  | ended hs hk _ hd => exact CallTurn.eases (.ended hd) hs hk
  | crashed hs hk _ hd => exact CallTurn.eases (.crashed hd) hs hk
  | @due deadline hk _ h =>
    have ht := c.workload_setTicker .checking
    have hl : c.tickerLoad = 21 + c.nextCallLoad := by rw [tickerLoad, hk]; exact if_pos h
    have hn : tickerLoad { c with ticker := .checking } = 20 + c.nextCallLoad := rfl
    exact .inl (by omega)

/-! The watches. -/

theorem workload_setSignalWatch (c : Console) (w : SignalWatch) :
    workload { c with signalWatch := w } + c.signalWatchLoad =
      c.workload + signalWatchLoad { c with signalWatch := w } := by
  have ht := c.toil_setSignalWatch w
  simp only [workload_eq]
  omega

theorem SignalWatchTurn.eases (h : SignalWatchTurn c d more) : Eases c .signalWatch d more := by
  have hlt {w : SignalWatch} (hw : signalWatchLoad { c with signalWatch := w } < c.signalWatchLoad)
      (he : d.workload = workload { c with signalWatch := w }) : Eases c .signalWatch d more := by
    have ht := c.workload_setSignalWatch w
    exact .inl (by omega)
  cases h with
  | off | quiet => exact .refl c _
  | register h => exact hlt (by simp [signalWatchLoad, h]) rfl
  | disable h => exact hlt (w := .absent) (by simp [signalWatchLoad, h]) rfl
  | stop h => exact hlt (w := .absent) (by simp only [signalWatchLoad, h]; omega) rfl
  | @hear s rest h => exact hlt (w := .listening rest) (by simp [signalWatchLoad, h]) rfl

theorem workload_resumeRead_le (c : Console) (id : TaskId) :
    ((c.reader.resume id).result = none → (c.resumeRead id).workload ≤ c.workload) ∧
      (c.resumeRead id).workload ≤ c.workload + 1 ∧
      ∀ line, (c.reader.resume id).result = some (.ok line) →
        (c.resumeRead id).workload + 2 ≤ c.workload := by
  obtain ⟨hle, hline⟩ := c.reader.load_resume id
  have ht := c.toil_setReader (c.reader.resume id).reader
  have hw := workload_wakeOne_le { c with reader := (c.reader.resume id).reader }
    (c.reader.resume id).woken
  have he : workload { c with reader := (c.reader.resume id).reader } =
    c.ready.length + toil { c with reader := (c.reader.resume id).reader } := workload_eq _
  rw [c.workload_eq]
  refine ⟨fun hr => ?_, ?_, fun line hr => ?_⟩
  · have hnone : (c.reader.resume id).woken = none := by
      have hres := LineReader.resume_resumption c.reader id
      generalize c.reader.resume id = p at hr hres ⊢
      cases hres with
      | done => cases hr
      | _ => rfl
    have hp : (c.resumeRead id).workload = workload { c with reader := (c.reader.resume id).reader } := by
      rw [resumeRead, hnone]
      rfl
    omega
  · rw [resumeRead]
    omega
  · have hl := hline line hr
    rw [resumeRead]
    omega

theorem workload_endKeywordWatch_le (h : c.keywordWatch = true) :
    c.endKeywordWatch.workload + 2 ≤ c.workload := by
  have hr := c.reader.load_abandon .keywordWatch
  have hreader := c.toil_setReader (c.reader.abandon .keywordWatch).1
  have hkeyword := toil_setKeywordWatch { c with reader := (c.reader.abandon .keywordWatch).1 } false
  have hw := workload_wakeOne_le
    { c with reader := (c.reader.abandon .keywordWatch).1, keywordWatch := false }
    (c.reader.abandon .keywordWatch).2
  have hl := workload_letGo_le (wakeAll
    { c with reader := (c.reader.abandon .keywordWatch).1, keywordWatch := false }
    (c.reader.abandon .keywordWatch).2.toList)
  have he : workload
      { c with reader := (c.reader.abandon .keywordWatch).1, keywordWatch := false } =
    c.ready.length + toil
      { c with reader := (c.reader.abandon .keywordWatch).1, keywordWatch := false } :=
    workload_eq _
  dsimp only at hkeyword
  rw [if_pos h, if_neg Bool.false_ne_true] at hkeyword
  rw [c.workload_eq, endKeywordWatch]
  omega

theorem KeywordWatchTurn.eases (h : KeywordWatchTurn c d more) : Eases c .keywordWatch d more := by
  obtain ⟨hnone, hle, hline⟩ := c.workload_resumeRead_le .keywordWatch
  cases h with
  | off => exact .refl c _
  | stop h =>
    have he := workload_endKeywordWatch_le h
    exact .inl (by omega)
  | pending h _ hr =>
    exact .inr ⟨rfl, hnone hr, fun hi => (c.mem_wakeAll).2 (.inl hi)⟩
  | @keyword line h _ hr =>
    have hl := hline line hr
    have he := workload_endKeywordWatch_le (c := (((c.resumeRead .keywordWatch).record
      (.read .keywordWatch (.ok line))).log .keywordReceived).offer .keyword) h
    have hsame : ((((c.resumeRead .keywordWatch).record
      (.read .keywordWatch (.ok line))).log .keywordReceived).offer .keyword).workload =
        (c.resumeRead .keywordWatch).workload := rfl
    exact .inl (by omega)
  | @other line h _ hr =>
    have hl := hline line hr
    have hsame : ((c.resumeRead .keywordWatch).record (.read .keywordWatch (.ok line))).workload =
      (c.resumeRead .keywordWatch).workload := rfl
    exact .inl (by omega)
  | @failed failure h =>
    have he := workload_endKeywordWatch_le (c := ((((c.resumeRead .keywordWatch).record
      (.read .keywordWatch (.error failure))).log (.watchFailed failure)).record
        (.ending .keywordWatch (.abort failure)))) h
    have hsame : ((((c.resumeRead .keywordWatch).record
      (.read .keywordWatch (.error failure))).log (.watchFailed failure)).record
        (.ending .keywordWatch (.abort failure))).workload =
          (c.resumeRead .keywordWatch).workload := rfl
    exact .inl (by omega)

/-! The printer. -/

theorem workload_setPrinter (c : Console) (p : Printer) :
    workload { c with printer := p } + c.printerLoad =
      c.workload + printerLoad { c with printer := p } := by
  have ht := c.toil_setPrinter p
  simp only [workload_eq]
  omega

theorem workload_take (h : c.mailbox.take? = some t) :
    (c.take t).workload + 11 ≤ c.workload := by
  obtain ⟨rest, hi, hm, hw⟩ := Mailbox.take?_eq_some h
  have hitems : t.mailbox.items.length + 1 = c.mailbox.items.length := by
    obtain ⟨hgrant, -⟩ := ({ c.mailbox with items := rest }).grant_items
    rw [hm, hgrant, hi]
    rfl
  have ht := c.toil_setMailbox t.mailbox
  have hwake := workload_wakeOne_le { c with mailbox := t.mailbox } t.woken
  have he : workload { c with mailbox := t.mailbox } =
    c.ready.length + toil { c with mailbox := t.mailbox } := workload_eq _
  have hr : (c.take t).workload = (wakeAll { c with mailbox := t.mailbox } t.woken.toList).workload :=
    rfl
  rw [hr, c.workload_eq]
  omega

theorem workload_shown (c : Console) (kind : Kind) (r : Display.Drawn) :
    (c.shown kind r).workload = c.workload := by
  obtain ⟨display, journal, he⟩ := c.shown_eq kind r
  rw [he]
  rfl

theorem printerLoad_setActivity (c : Console) (id : TaskId) (a : Activity) :
    (c.setActivity id a).printerLoad = c.printerLoad := by
  cases id with
  | producer n => simp only [printerLoad, taskCount, setActivity, List.length_set]
  | _ => rfl

theorem printerLoad_hangUpOn (c : Console) (m : Message) :
    (c.hangUpOn m).printerLoad = c.printerLoad := by
  cases m with
  | prompt text slot =>
    rw [hangUpOn]
    rcases c.hangUp_cases slot with ⟨-, he⟩ | ⟨a, -, -, he⟩ <;> rw [he]
    exact c.printerLoad_setActivity ..
  | _ => rfl

theorem toil_stopPrinter_le (c : Console) : c.stopPrinter.toil + c.printerLoad ≤ c.toil := by
  have hp : toil { c.closeMailbox.terminate with printer := .stopped } + c.printerLoad = c.toil :=
    toil_setPrinter c.closeMailbox.terminate .stopped
  rw [← hp]
  exact Nat.add_le_add_right (toil_discard_le _) _

theorem toil_crashPrinter_le (c : Console) (m : Message) :
    (c.crashPrinter m).toil + c.printerLoad ≤ c.toil := by
  have hp : toil { c.hangUpOn m with printer := .crashed } + (c.hangUpOn m).printerLoad =
    (c.hangUpOn m).toil := toil_setPrinter (c.hangUpOn m) .crashed
  rw [printerLoad_hangUpOn] at hp
  refine .trans ?_ (c.toil_hangUpOn_le m)
  rw [← hp]
  exact Nat.add_le_add_right (toil_discard_le _) _

theorem Enrolled.workload_lt (hc : Enrolled ids c) (hd : Enrolled ids d)
    (h : d.toil + c.printerLoad ≤ c.toil) (hp : c.taskCount < c.printerLoad) :
    d.workload < c.workload := by
  have hready := hd.length_ready
  have hcount : d.taskCount = c.taskCount := by
    rw [← length_roster, ← length_roster, hd.roster, hc.roster]
  rw [workload_eq, workload_eq]
  omega

theorem taskCount_lt_printerLoad (h : c.printer = .receiving ∨ c.printer = .leaving) :
    c.taskCount < c.printerLoad := by
  unfold printerLoad
  rcases h with h | h <;> rw [h] <;> dsimp only <;> omega

theorem workload_stopPrinter_lt (hc : Enrolled ids c)
    (h : c.printer = .receiving ∨ c.printer = .leaving) : c.stopPrinter.workload < c.workload :=
  hc.workload_lt hc.stopPrinter c.toil_stopPrinter_le (taskCount_lt_printerLoad h)

theorem workload_asked_le (h : c.printer = .receiving) (slot : ReplySlot) :
    workload { c with printer := .reading slot } ≤ c.workload + 6 := by
  have hp := c.workload_setPrinter (.reading slot)
  simp only [printerLoad, h, taskCount] at hp
  omega

theorem workload_receiving_lt {slot : ReplySlot} (h : c.printer = .reading slot) :
    workload { c with printer := .receiving } < c.workload := by
  have hp := c.workload_setPrinter .receiving
  simp only [printerLoad, h, taskCount] at hp
  omega

theorem workload_leaving_le (h : c.printer = .receiving ∨ ∃ slot, c.printer = .reading slot) :
    workload { c with printer := .leaving } + 5 ≤ c.workload := by
  have hp := c.workload_setPrinter .leaving
  rcases h with h | ⟨slot, h⟩ <;> simp only [printerLoad, h, taskCount] at hp <;> omega

theorem PrinterTurn.eases (h : PrinterTurn c d more) (hc : Enrolled ids c) :
    Eases c .printer d more := by
  obtain ⟨hnone, hle, hline⟩ := c.workload_resumeRead_le .printer
  have hshown {t : Mailbox.Taken TaskId} {r : Display.Drawn} (hm : c.mailbox.take? = some t) :
      ((c.take t).shown t.message.kind r).workload + 11 ≤ c.workload :=
    (workload_shown ..).symm ▸ workload_take hm
  have hprinter {t : Mailbox.Taken TaskId} {r : Display.Drawn} :
      ((c.take t).shown t.message.kind r).printer = c.printer := by
    obtain ⟨display, journal, he⟩ := (c.take t).shown_eq t.message.kind r
    rw [he]
    rfl
  cases h with
  | gone | idle => exact .refl c _
  | deserted h => exact .inl (workload_stopPrinter_lt hc (.inl h))
  | left h => exact .inl (workload_stopPrinter_lt hc (.inr h))
  | @choked t h hm =>
    have ht := workload_take hm
    have hp := (hc.take hm).workload_lt ((hc.take hm).crashPrinter t.message)
      (toil_crashPrinter_le _ _) (taskCount_lt_printerLoad (.inl h))
    exact .inl (by omega)
  | told _ hm =>
    exact .inl (Nat.lt_of_lt_of_le (Nat.lt_add_of_pos_right (by decide)) (hshown hm))
  | @asked t r slot h hm =>
    have hs := hshown (r := r) hm
    have hp := workload_asked_le (hprinter.trans h) slot (c := (c.take t).shown t.message.kind r)
    exact .inl (Nat.lt_of_le_of_lt hp (by omega))
  | @exited t r code h hm =>
    have hs := hshown (r := r) hm
    have hp := workload_leaving_le (.inl (hprinter.trans h))
      (c := (((c.take t).shown t.message.kind r).log (.exiting code)).record
        (.ending .printer (.exit code)))
    have hsame : ((((c.take t).shown t.message.kind r).log (.exiting code)).record
      (.ending .printer (.exit code))).workload = ((c.take t).shown t.message.kind r).workload := rfl
    exact .inl (Nat.lt_of_le_of_lt (Nat.le_of_add_right_le hp) (by omega))
  | pending _ hr =>
    exact .inr ⟨rfl, hnone hr, fun hi => (c.mem_wakeAll).2 (.inl hi)⟩
  | @heard slot line h hr =>
    have hl := hline line hr
    have ha := workload_answer_le
      ((c.resumeRead .printer).record (.read .printer (.ok line))) slot line
    have hsame : ((c.resumeRead .printer).record (.read .printer (.ok line))).workload =
      (c.resumeRead .printer).workload := rfl
    have hp : (((c.resumeRead .printer).record (.read .printer (.ok line))).answer slot line).printer =
        .reading slot := by
      obtain ⟨producers, ticker, ready, journal, he⟩ :=
        ((c.resumeRead .printer).record (.read .printer (.ok line))).answer_fields slot line
      rw [he]
      exact h
    exact .inl (Nat.lt_of_lt_of_le (workload_receiving_lt hp) (by omega))
  | @failed slot failure h hr =>
    have ha := workload_hangUp_le ((((c.resumeRead .printer).record
      (.read .printer (.error failure))).log (.answerFailed failure)).record
        (.ending .printer (.abort failure))) slot
    have hsame : ((((c.resumeRead .printer).record (.read .printer (.error failure))).log
      (.answerFailed failure)).record (.ending .printer (.abort failure))).workload =
        (c.resumeRead .printer).workload := rfl
    have hp : (((((c.resumeRead .printer).record (.read .printer (.error failure))).log
        (.answerFailed failure)).record (.ending .printer (.abort failure))).hangUp slot).printer =
          .reading slot := by
      obtain ⟨producers, ticker, ready, he⟩ := ((((c.resumeRead .printer).record
        (.read .printer (.error failure))).log (.answerFailed failure)).record
          (.ending .printer (.abort failure))).hangUp_eq slot
      rw [he]
      exact h
    have hrest := workload_leaving_le (.inr ⟨slot, hp⟩)
    exact .inl (Nat.lt_of_add_lt_add_right (n := 5) (Nat.lt_of_le_of_lt hrest (by omega)))

/-! All tasks. -/

theorem turn_eases (hc : Enrolled ids c) (id : TaskId) :
    Eases c id (c.turn id).1 (c.turn id).2 := by
  cases id with
  | printer => exact (printerTurn_cases c).eases hc
  | signalWatch => exact (signalWatchTurn_cases c).eases
  | keywordWatch => exact (keywordWatchTurn_cases c).eases
  | ticker => exact (tickerTurn_cases c).eases
  | producer n => exact (producerTurn_cases c n).eases

theorem workload_setReady (c : Console) (ready : List TaskId) :
    workload { c with ready } + c.ready.length = c.workload + ready.length := by
  have ht : toil { c with ready } = c.toil := rfl
  simp only [workload_eq, ht]
  omega

theorem workload_step_lt (hc : Enrolled ids c) (hi : id ∈ c.ready) :
    (c.step id).workload < c.workload := by
  have he := turn_eases hc id
  unfold step
  dsimp only
  generalize (c.turn id).1 = d, (c.turn id).2 = more at he
  have hready := d.workload_setReady (d.ready.erase id)
  have hle : (d.ready.erase id).length ≤ d.ready.length := List.length_erase_le
  cases more with
  | true =>
    rcases he with he | ⟨hm, -, -⟩
    · exact he
    · cases hm
  | false =>
    simp only [Bool.false_eq_true, if_false]
    rcases he with he | ⟨-, hw, hr⟩
    · omega
    · have hlen := List.length_erase_of_mem (hr hi)
      have hpos := List.length_pos_of_mem (hr hi)
      omega

/-- Whether a task that works on in spite of the termination does not come to rest. -/
def worksOn (c : Console) (id : TaskId) : Bool :=
  match id, c.supervision, c.ticker with
  | .ticker, some s, .calling request a => (c.continueCall s request a).2
  | _, _, _ => (turn { c with terminated := false } id).2

theorem work_eases (hc : Enrolled ids c) (id : TaskId) : Eases c id (c.work id) (c.worksOn id) := by
  rcases c.work_cases id with ⟨s, request, a, rfl, hs, hk, he⟩ | ⟨hn, he⟩ <;> rw [he]
  · have hw : c.worksOn .ticker = (c.continueCall s request a).2 := by simp only [worksOn, hs, hk]
    rw [hw]
    exact (callTurn_cases c s request a).eases hs hk
  · have hw : c.worksOn id = (turn { c with terminated := false } id).2 := by
      unfold worksOn
      split
      · rename_i s request a hs hk
        exact absurd hk (hn s request a rfl hs)
      · rfl
    have ho : Enrolled ids { c with terminated := false } := { hc with }
    rw [hw]
    exact turn_eases ho id

/-- What nobody is waiting for is over: a console has settled when its workload is used up. -/
theorem ready_run (n : Nat) {c : Console} (hc : Enrolled ids c) (hn : c.workload ≤ n) :
    (run n c).ready = [] := by
  induction n generalizing c with
  | zero =>
    have hl := c.workload_eq
    exact List.length_eq_zero_iff.1 (by rw [run]; omega)
  | succ n ih =>
    unfold run
    split
    · assumption
    · rename_i id rest hr
      have hlt := workload_step_lt hc (hr ▸ List.mem_cons_self : id ∈ c.ready)
      exact ih (hc.step id) (by omega)

theorem ready_settle (hc : Enrolled ids c) : c.settle.ready = [] :=
  ready_run _ hc (Nat.le_refl _)

theorem run_idle (n : Nat) (h : c.ready = []) : run n c = c := by
  cases n with
  | zero => rfl
  | succ n => simp only [run, h]

theorem settle_idle (h : c.ready = []) : c.settle = c :=
  run_idle _ h

theorem run_cons {rest : List TaskId} (n : Nat) (h : c.ready = id :: rest) :
    run (n + 1) c = run n (c.step id) := by
  simp only [run, h]

theorem run_eq_settle {n : Nat} (hc : Enrolled ids c) (hn : c.workload ≤ n) :
    run n c = c.settle := by
  have hmore (m n : Nat) (c : Console) : run (m + n) c = run n (run m c) := by
    induction m generalizing c with
    | zero => rw [Nat.zero_add, run]
    | succ m ih =>
      rw [Nat.succ_add]
      cases hr : c.ready with
      | nil => rw [run_idle _ hr, run_idle _ hr, run_idle _ hr]
      | cons id rest => rw [run_cons _ hr, run_cons _ hr, ih]
  obtain ⟨k, rfl⟩ := Nat.exists_eq_add_of_le hn
  rw [hmore]
  exact run_idle k (ready_settle hc)

theorem settle_step {rest : List TaskId} (hc : Enrolled ids c) (hr : c.ready = id :: rest) :
    c.settle = (c.step id).settle := by
  have hlt := workload_step_lt hc (hr ▸ List.mem_cons_self : id ∈ c.ready)
  rw [← run_eq_settle hc (Nat.le_succ c.workload), run_cons _ hr]
  exact run_eq_settle (hc.step id) (Nat.le_of_lt hlt)

end Console

end JobConsole
