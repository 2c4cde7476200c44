import JobConsole.Proofs.Settling

/-!
Hushing: a console without its signal watch, and without the note that there could be none. No other
task looks at the watch, so two consoles that differ in nothing else take the same small steps.
-/

namespace JobConsole

def Diagnostic.isSignals : Diagnostic → Bool
  | signalsDisabled _ => true
  | _ => false

def Event.isSignals : Event → Bool
  | logged x => x.isSignals
  | _ => false

namespace Console

def others (c : Console) : List TaskId :=
  c.ready.filter (· ≠ .signalWatch)

def hushed (c : Console) : List Entry :=
  c.journal.filter (!·.event.isSignals)

/-- The two consoles are the same but for their signal watches. -/
structure Akin (c d : Console) : Prop where
  interval : d.settings.interval = c.settings.interval
  keyword : d.settings.cancelKeyword = c.settings.cancelKeyword
  jobs : d.jobs = c.jobs
  mailbox : d.mailbox = c.mailbox
  display : d.display = c.display
  reader : d.reader = c.reader
  now : d.now = c.now
  timers : d.timers = c.timers
  slots : d.slots = c.slots
  terminated : d.terminated = c.terminated
  parked : d.parked = c.parked
  request : d.request = c.request
  supervision : d.supervision = c.supervision
  printer : d.printer = c.printer
  keywordWatch : d.keywordWatch = c.keywordWatch
  ticker : d.ticker = c.ticker
  producers : d.producers = c.producers
  hosted : d.hosted = c.hosted
  others : d.others = c.others
  hushed : d.hushed = c.hushed

variable {c d : Console} {id : TaskId} {m : Message}

theorem filter_enlist (ready : List TaskId) (id : TaskId) :
    (enlist ready id).filter (· ≠ .signalWatch) =
      if id = .signalWatch then ready.filter (· ≠ .signalWatch)
      else enlist (ready.filter (· ≠ .signalWatch)) id := by
  unfold enlist
  split
  · rename_i hi
    split
    · rfl
    · rename_i hs
      rw [if_pos (List.mem_filter.2 ⟨hi, by simpa using hs⟩)]
  · rename_i hi
    split
    · rename_i hs
      simp [List.filter_append, hs]
    · rename_i hs
      rw [if_neg fun h => hi (List.mem_of_mem_filter h)]
      simp [List.filter_append, hs]

/-- Waking tasks does the same to the others whether the watch is among those that can run. -/
theorem filter_foldl_enlist (ids : List TaskId) : ∀ ready : List TaskId,
    (ids.foldl enlist ready).filter (· ≠ .signalWatch) =
      (ids.foldl enlist (ready.filter (· ≠ .signalWatch))).filter (· ≠ .signalWatch) := by
  induction ids with
  | nil => exact fun ready => by simp [List.filter_filter]
  | cons id ids ih =>
    intro ready
    rw [List.foldl_cons, ih, List.foldl_cons, ih (enlist (ready.filter _) id), filter_enlist,
      filter_enlist]
    simp [List.filter_filter]

theorem hushed_record (c : Console) (e : Event) :
    (c.record e).hushed = if e.isSignals then c.hushed else ⟨c.now, e⟩ :: c.hushed := by
  unfold hushed record
  cases he : e.isSignals <;> simp [he]

theorem others_wakeReceiver (c : Console) : c.wakeReceiver.others =
    if c.printer.isReceiving then enlist c.others .printer else c.others := by
  unfold others wakeReceiver
  cases c.printer.isReceiving
  · rfl
  · exact filter_enlist c.ready .printer

theorem others_erase (c : Console) (id : TaskId) :
    others { c with ready := c.ready.erase id } = c.others.erase id :=
  List.erase_filter.symm

theorem others_wakeAll (c : Console) (ids : List TaskId) :
    (c.wakeAll ids).others = (ids.foldl enlist c.others).filter (· ≠ .signalWatch) :=
  filter_foldl_enlist ids c.ready

namespace Akin

theorem job (h : Akin c d) (k : Nat) : d.job k = c.job k := by
  rw [Console.job, Console.job, h.jobs]

theorem isCancelKeyword (h : Akin c d) (line : String) :
    d.settings.isCancelKeyword line = c.settings.isCancelKeyword line :=
  congrArg (equalIgnoringCase line) h.keyword

theorem isHeld (h : Akin c d) : d.isHeld = c.isHeld := by
  rw [Console.isHeld, Console.isHeld, h.hosted, h.producers, h.keywordWatch, h.ticker]

theorem activity? (h : Akin c d) (id : TaskId) : d.activity? id = c.activity? id := by
  cases id with
  | producer n => rw [Console.activity?, Console.activity?, h.producers]
  | ticker => rw [Console.activity?, Console.activity?, h.ticker]
  | _ => rfl

theorem expects (h : Akin c d) (slot : ReplySlot) : d.expects slot = c.expects slot := by
  unfold Console.expects
  rw [h.activity?]

/-! Changes. -/

theorem record (h : Akin c d) (e : Event) : Akin (c.record e) (d.record e) :=
  { h with hushed := by rw [hushed_record, hushed_record, h.hushed, h.now] }

theorem log (h : Akin c d) (x : Diagnostic) : Akin (c.log x) (d.log x) :=
  h.record _

theorem wakeAll (h : Akin c d) (ids : List TaskId) : Akin (c.wakeAll ids) (d.wakeAll ids) :=
  { h with others := by rw [others_wakeAll, others_wakeAll, h.others] }

theorem wake (h : Akin c d) (id : TaskId) : Akin (c.wake id) (d.wake id) :=
  h.wakeAll [id]

theorem wakeReceiver (h : Akin c d) : Akin c.wakeReceiver d.wakeReceiver :=
  { h with others := by rw [others_wakeReceiver, others_wakeReceiver, h.printer, h.others] }

theorem letGo (h : Akin c d) : Akin c.letGo d.letGo := by
  have hw := h.wakeReceiver
  unfold Console.letGo
  rw [h.isHeld]
  split
  · exact h
  · exact hw

theorem setActivity (h : Akin c d) (id : TaskId) (a : Activity) :
    Akin (c.setActivity id a) (d.setActivity id a) := by
  cases id with
  | producer n => exact { h with producers := congrArg (·.set n (some a)) h.producers }
  | ticker => exact { h with ticker := congrArg (Ticker.setActivity a) h.ticker }
  | _ => exact h

theorem setWait (h : Akin c d) (id : TaskId) (w : Wait) :
    Akin (c.setWait id w) (d.setWait id w) := by
  unfold Console.setWait
  rw [h.activity?]
  split
  · exact h.setActivity _ _
  · exact h

theorem answer (h : Akin c d) (slot : ReplySlot) (line : String) :
    Akin (c.answer slot line) (d.answer slot line) := by
  unfold Console.answer
  rw [h.expects]
  split
  · exact (h.setWait _ _).wake _
  · exact h.log _

theorem hangUp (h : Akin c d) (slot : ReplySlot) : Akin (c.hangUp slot) (d.hangUp slot) := by
  unfold Console.hangUp
  rw [h.expects]
  split
  · exact (h.setWait _ _).wake _
  · exact h

theorem hangUpOn (h : Akin c d) (m : Message) : Akin (c.hangUpOn m) (d.hangUpOn m) := by
  cases m with
  | prompt text slot => exact h.hangUp slot
  | _ => exact h

theorem discardAll (ms : List Message) : ∀ {c d : Console}, Akin c d →
    Akin (ms.foldl (fun c m => (c.record (.discarded m)).hangUpOn m) c)
      (ms.foldl (fun c m => (c.record (.discarded m)).hangUpOn m) d) := by
  induction ms with
  | nil => exact fun h => h
  | cons m ms ih => exact fun h => ih ((h.record _).hangUpOn m)

theorem setMailbox (h : Akin c d) (mailbox : Mailbox TaskId) :
    Akin { c with mailbox } { d with mailbox } :=
  { h with mailbox := rfl }

theorem setPrinter (h : Akin c d) (printer : Printer) :
    Akin { c with printer } { d with printer } :=
  { h with printer := rfl }

theorem setTicker (h : Akin c d) (ticker : Ticker) : Akin { c with ticker } { d with ticker } :=
  { h with ticker := rfl }

theorem setReader (h : Akin c d) (reader : LineReader TaskId) :
    Akin { c with reader } { d with reader } :=
  { h with reader := rfl }

theorem setDisplay (h : Akin c d) (display : Display) :
    Akin { c with display } { d with display } :=
  { h with display := rfl }

theorem offer (h : Akin c d) (r : Request) : Akin (c.offer r) (d.offer r) :=
  { h with request := congrArg (Option.or · (some r)) h.request }

theorem setTimer (h : Akin c d) (t : Timer) : Akin (c.setTimer t) (d.setTimer t) :=
  { h with timers := by rw [Console.setTimer, Console.setTimer, h.timers] }

theorem discard (h : Akin c d) : Akin c.discard d.discard := by
  unfold Console.discard
  rw [h.mailbox]
  exact discardAll _ (h.setMailbox _)

end Akin

structure AkinBoth {α : Type} (p r : Console × α) : Prop where
  akin : Akin p.1 r.1
  same : r.2 = p.2

theorem AkinBoth.split {α : Type} {p r : Console × α} (h : AkinBoth p r) :
    ∃ c d x, p = (c, x) ∧ r = (d, x) ∧ Akin c d := by
  obtain ⟨c, x⟩ := p
  obtain ⟨d, y⟩ := r
  obtain ⟨ha, hs⟩ := h
  cases hs
  exact ⟨c, d, x, rfl, rfl, ha⟩

namespace Akin

/-! Small steps of statements. -/

theorem refuse (h : Akin c d) (id : TaskId) (m : Message) :
    AkinBoth (c.refuse id m) (d.refuse id m) :=
  ⟨(h.record _).log _, rfl⟩

theorem accept (h : Akin c d) (id : TaskId) (m : Message) :
    AkinBoth (c.accept id m) (d.accept id m) :=
  ⟨(h.record _).wakeReceiver, rfl⟩

theorem send (h : Akin c d) (id : TaskId) (m : Message) :
    AkinBoth (c.send id m) (d.send id m) := by
  unfold Console.send
  rw [h.mailbox]
  split
  · exact h.refuse id m
  · split
    · exact (h.setMailbox _).accept id m
    · exact ⟨h.setMailbox _, rfl⟩

theorem resend (h : Akin c d) (id : TaskId) (m : Message) :
    AkinBoth (c.resend id m) (d.resend id m) := by
  unfold Console.resend
  rw [h.mailbox]
  split
  · exact h.refuse id m
  · split
    · exact (h.setMailbox _).accept id m
    · exact ⟨h, rfl⟩

theorem question (h : Akin c d) (id : TaskId) (text : String) :
    AkinBoth (c.question id text) (d.question id text) := by
  have hn : Akin { c with slots := c.slots + 1 } { d with slots := d.slots + 1 } :=
    { h with slots := congrArg (· + 1) h.slots }
  have hs : (⟨d.slots, id⟩ : ReplySlot) = ⟨c.slots, id⟩ := congrArg (ReplySlot.mk · id) h.slots
  unfold Console.question
  rw [hs]
  exact hn.send id _

theorem park (h : Akin c d) (id : TaskId) : Akin (c.park id) (d.park id) := by
  unfold Console.park
  rw [h.parked]
  split
  · exact h
  · exact { h with parked := rfl }

theorem awaitTermination (h : Akin c d) (id : TaskId) (w : Wait) (o : Outcome) :
    AkinBoth (c.awaitTermination id w o) (d.awaitTermination id w o) := by
  unfold Console.awaitTermination
  rw [h.terminated]
  split
  · exact ⟨h, rfl⟩
  · exact ⟨h.park id, rfl⟩

theorem sleep (h : Akin c d) (id : TaskId) (n : Nat) : AkinBoth (c.sleep id n) (d.sleep id n) := by
  unfold Console.sleep
  rw [h.now]
  split
  · exact ⟨h, rfl⟩
  · exact ⟨h.setTimer _, rfl⟩

theorem register (h : Akin c d) (signals : Bool) :
    Akin c (if signals then Console.wake { d with signalWatch := .registering } .signalWatch
      else d) := by
  cases signals with
  | false => exact h
  | true => exact { h with others := (filter_enlist d.ready .signalWatch).trans h.others }

theorem symm (h : Akin c d) : Akin d c := by
  constructor <;> simp only [h.interval, h.keyword, h.jobs, h.mailbox, h.display, h.reader, h.now,
    h.timers, h.slots, h.terminated, h.parked, h.request, h.supervision, h.printer, h.keywordWatch,
    h.ticker, h.producers, h.hosted, h.others, h.hushed]

theorem station (h : Akin c d) (signals signals' keyword : Bool) :
    Akin (c.station signals keyword) (d.station signals' keyword) := by
  have hs := ((h.symm.register signals).symm.register signals')
  unfold Console.station
  dsimp only
  generalize (if signals then Console.wake { c with signalWatch := .registering } .signalWatch
      else c) = c',
    (if signals' then Console.wake { d with signalWatch := .registering } .signalWatch
      else d) = d' at hs ⊢
  split
  · exact wake (c := { c' with keywordWatch := true }) (d := { d' with keywordWatch := true })
      { hs with keywordWatch := rfl } .keywordWatch
  · exact hs

theorem supervise (h : Akin c d) (k : Nat) (interactive : Bool) :
    AkinBoth (c.supervise k interactive) (d.supervise k interactive) := by
  cases hc : c.supervision with
  | some s =>
    rw [supervise_lost hc, supervise_lost (h.supervision.trans hc), h.job]
    exact ⟨h.log _, rfl⟩
  | none =>
    rw [supervise_first hc rfl, supervise_first (h.supervision.trans hc) rfl, h.job, h.interval]
    have ho : Akin { c with supervision := some { job := k }, ticker := .checking }
        { d with supervision := some { job := k }, ticker := .checking } :=
      { h with supervision := rfl, ticker := rfl }
    exact ⟨((ho.station _ _ _).log _).wake .ticker, rfl⟩

theorem begin (h : Akin c d) (id : TaskId) (s : Statement) :
    AkinBoth (c.begin id s) (d.begin id s) := by
  cases s with
  | progress text => exact h.send id _
  | info text => exact h.send id _
  | prompt text => exact h.question id text
  | exit text code => exact h.send id _
  | start k interactive =>
    have hs := h.supervise k interactive
    exact ⟨hs.akin, congrArg (fun first => Stage.finished (.started first)) hs.same⟩
  | state =>
    refine ⟨h, ?_⟩
    simp only [Console.begin, isReporting, h.supervision, h.terminated]
  | sleep n => exact h.sleep id n
  | ask text => exact h.question id text
  | confirm question refusal code => exact h.question id question
  | _ => exact ⟨h, rfl⟩

theorem perform (h : Akin c d) (id : TaskId) (s : Statement) (w : Wait) :
    AkinBoth (c.perform id s w) (d.perform id s w) := by
  cases w with
  | fresh => exact h.begin id s
  | room m => exact h.resend id m
  | hungUp => exact h.awaitTermination id _ _
  | termination => exact h.awaitTermination id _ _
  | alarm deadline =>
    simp only [Console.perform, h.now]
    split <;> exact ⟨h, rfl⟩
  | _ => exact ⟨h, rfl⟩

theorem pursue (h : Akin c d) (id : TaskId) (a : Activity) (note : Outcome → Event) :
    AkinBoth (c.pursue id a note) (d.pursue id a note) := by
  unfold Console.pursue
  cases a.program with
  | nil => exact ⟨h, rfl⟩
  | cons s rest =>
    obtain ⟨e, e', stage, hl, hr, he⟩ := (h.perform id s a.wait).split
    dsimp only
    rw [hl, hr]
    cases stage with
    | blocked w => exact ⟨he.setActivity id _, rfl⟩
    | moving w => exact ⟨he.setActivity id _, rfl⟩
    | crashed => exact ⟨he, rfl⟩
    | finished o =>
      dsimp only
      cases s.followUp o with
      | some next => exact ⟨he.setActivity id _, rfl⟩
      | none => exact ⟨(he.record (note o)).setActivity id _, rfl⟩

/-! Producers. -/

theorem endProducer (h : Akin c d) (n : Nat) : Akin (c.endProducer n) (d.endProducer n) := by
  unfold Console.endProducer
  rw [h.producers]
  exact letGo (c := { c with producers := c.producers.set n none }) { h with producers := rfl }

theorem producerTurn (h : Akin c d) (n : Nat) :
    AkinBoth (c.producerTurn n) (d.producerTurn n) := by
  unfold Console.producerTurn
  rw [h.activity?]
  cases c.activity? (.producer n) with
  | none => exact ⟨h, rfl⟩
  | some a =>
    obtain ⟨e, e', pace, hl, hr, he⟩ := (h.pursue (.producer n) a (.finished n a.index)).split
    dsimp only
    rw [hl, hr]
    cases pace with
    | resting => exact ⟨he, rfl⟩
    | moving => exact ⟨he, rfl⟩
    | ended => exact ⟨he.endProducer n, rfl⟩
    | crashed => exact ⟨he.endProducer n, rfl⟩

/-! The ticker. -/

theorem beginCall (h : Akin c d) (s : Supervision) : Akin (c.beginCall s) (d.beginCall s) := by
  unfold Console.beginCall
  rw [h.request, h.job]
  have ho (ticker : Ticker) (supervision : Option Supervision) :
      Akin { c with request := none, supervision, ticker }
        { d with request := none, supervision, ticker } :=
    { h with request := rfl, supervision := rfl, ticker := rfl }
  generalize c.request = request at ho
  cases request with
  | none => exact (ho _ _).record _
  | some r => exact ((ho _ _).log _).record _

theorem pause (h : Akin c d) : Akin c.pause d.pause := by
  have hn : d.now + d.intervalMilliseconds = c.now + c.intervalMilliseconds := by
    rw [intervalMilliseconds, intervalMilliseconds, h.now, h.interval]
  unfold Console.pause
  rw [hn]
  exact (h.setTicker _).setTimer _

theorem recover (h : Akin c d) (s : Supervision) (request : Option Request) :
    Akin (c.recover s request) (d.recover s request) := by
  unfold Console.recover
  rw [h.job]
  cases request with
  | none => exact h.log _
  | some r => exact (h.log _).offer r

theorem continueCall (h : Akin c d) (s : Supervision) (request : Option Request) (a : Activity) :
    AkinBoth (c.continueCall s request a) (d.continueCall s request a) := by
  obtain ⟨e, e', pace, hl, hr, he⟩ := (h.pursue .ticker a
    (Event.call s.job request (s.tally.number request) ∘ .finished)).split
  unfold Console.continueCall
  dsimp only
  rw [hl, hr]
  cases pace with
  | resting => exact ⟨he, rfl⟩
  | moving => exact ⟨he, rfl⟩
  | ended => exact ⟨(he.record _).pause, rfl⟩
  | crashed => exact ⟨((he.record _).recover s request).pause, rfl⟩

theorem withdraw (h : Akin c d) (id : TaskId) : Akin (c.withdraw id) (d.withdraw id) := by
  have ho : Console.others { d with ready := d.ready.erase id } =
      Console.others { c with ready := c.ready.erase id } := by
    rw [others_erase, others_erase, h.others]
  have hb (mailbox : Mailbox TaskId) (parked : List TaskId) (timers : List Timer) :
      Akin { c with mailbox, parked, timers, ready := c.ready.erase id }
        { d with mailbox, parked, timers, ready := d.ready.erase id } :=
    { h with mailbox := rfl, parked := rfl, timers := rfl, others := ho }
  unfold Console.withdraw
  rw [h.mailbox, h.parked, h.timers]
  exact (hb _ _ _).wakeAll _

theorem stopTicker (h : Akin c d) (s : Supervision) : Akin (c.stopTicker s) (d.stopTicker s) := by
  unfold Console.stopTicker
  rw [h.job]
  exact (((h.withdraw .ticker).setTicker .absent).log _).letGo

theorem tickerTurn (h : Akin c d) : AkinBoth c.tickerTurn d.tickerTurn := by
  unfold Console.tickerTurn
  rw [h.supervision, h.terminated, h.now, h.ticker]
  cases c.supervision with
  | none => exact ⟨h, rfl⟩
  | some s =>
    cases c.ticker with
    | absent => exact ⟨h, rfl⟩
    | checking =>
      dsimp only
      split
      · exact ⟨h.stopTicker s, rfl⟩
      · exact ⟨h.beginCall s, rfl⟩
    | calling request a =>
      dsimp only
      split
      · exact ⟨h.stopTicker s, rfl⟩
      · exact h.continueCall s request a
    | sleeping deadline =>
      dsimp only
      split
      · exact ⟨h.stopTicker s, rfl⟩
      · split
        · exact ⟨{ h with now := rfl, supervision := rfl, terminated := rfl, ticker := rfl }, rfl⟩
        · exact ⟨h, rfl⟩

/-! The keyword watch. -/

theorem readLine (h : Akin c d) (id : TaskId) : AkinBoth (c.readLine id) (d.readLine id) := by
  have hr : Akin (c.resumeRead id) (d.resumeRead id) := by
    unfold resumeRead
    rw [h.reader]
    exact (h.setReader _).wakeAll _
  rw [readLine_eq, readLine_eq, h.reader]
  cases (c.reader.resume id).result with
  | none => exact ⟨hr, rfl⟩
  | some result => exact ⟨hr.record _, rfl⟩

theorem endKeywordWatch (h : Akin c d) : Akin c.endKeywordWatch d.endKeywordWatch := by
  unfold Console.endKeywordWatch
  rw [h.reader]
  have hw (reader : LineReader TaskId) :
      Akin { c with reader, keywordWatch := false } { d with reader, keywordWatch := false } :=
    { h with reader := rfl, keywordWatch := rfl }
  exact ((hw _).wakeAll _).letGo

theorem keywordWatchTurn (h : Akin c d) : AkinBoth c.keywordWatchTurn d.keywordWatchTurn := by
  obtain ⟨e, e', result, hl, hr, he⟩ := (h.readLine .keywordWatch).split
  unfold Console.keywordWatchTurn
  rw [h.keywordWatch, h.terminated]
  split
  · exact ⟨h, rfl⟩
  · split
    · exact ⟨h.endKeywordWatch, rfl⟩
    · rw [hl, hr]
      match result with
      | none => exact ⟨he, rfl⟩
      | some (.ok line) =>
        dsimp only
        rw [he.isCancelKeyword]
        split
        · exact ⟨((he.log _).offer .keyword).endKeywordWatch, rfl⟩
        · exact ⟨he, rfl⟩
      | some (.error failure) => exact ⟨((he.log _).record _).endKeywordWatch, rfl⟩

/-! The printer. -/

theorem closeMailbox (h : Akin c d) : Akin c.closeMailbox d.closeMailbox := by
  unfold Console.closeMailbox
  rw [h.mailbox]
  exact (h.setMailbox _).wakeAll _

theorem terminate (h : Akin c d) : Akin c.terminate d.terminate := by
  unfold Console.terminate
  rw [h.parked]
  have ht : Akin { c with terminated := true, parked := [] }
      { d with terminated := true, parked := [] } := { h with terminated := rfl, parked := rfl }
  exact ht.wakeAll _

theorem stopPrinter (h : Akin c d) : Akin c.stopPrinter d.stopPrinter :=
  ((h.closeMailbox.terminate.setPrinter .stopped).log _).discard

theorem crashPrinter (h : Akin c d) (m : Message) : Akin (c.crashPrinter m) (d.crashPrinter m) :=
  ((h.hangUpOn m).setPrinter .crashed).closeMailbox.discard

theorem shown (h : Akin c d) (kind : Kind) (r : Display.Drawn) :
    Akin (c.shown kind r) (d.shown kind r) := by
  have hw := (h.setDisplay r.display).record (.wrote r.bytes)
  unfold Console.shown
  split
  · exact hw.record _
  · exact hw.log _

theorem handle (h : Akin c d) (m : Message) : AkinBoth (c.handle m) (d.handle m) := by
  unfold Console.handle
  rw [draw?_eq, draw?_eq, h.display]
  cases c.display.draw m.kind m.text with
  | none => exact ⟨h.crashPrinter m, rfl⟩
  | some r =>
    have hs := h.shown m.kind r
    cases m with
    | prompt text slot => exact ⟨hs.setPrinter _, rfl⟩
    | exit text code => exact ⟨((hs.log _).record _).setPrinter _, rfl⟩
    | _ => exact ⟨hs, rfl⟩

theorem receive (h : Akin c d) : AkinBoth c.receive d.receive := by
  unfold Console.receive
  rw [h.mailbox, h.isHeld]
  split
  · exact handle (((h.setMailbox _).wakeAll _).record _) _
  · split
    · exact ⟨h, rfl⟩
    · exact ⟨h.stopPrinter, rfl⟩

theorem readAnswer (h : Akin c d) (slot : ReplySlot) :
    AkinBoth (c.readAnswer slot) (d.readAnswer slot) := by
  obtain ⟨e, e', result, hl, hr, he⟩ := (h.readLine .printer).split
  unfold Console.readAnswer
  rw [hl, hr]
  match result with
  | none => exact ⟨he, rfl⟩
  | some (.ok line) => exact ⟨(he.answer slot line).setPrinter _, rfl⟩
  | some (.error failure) => exact ⟨(((he.log _).record _).hangUp slot).setPrinter _, rfl⟩

theorem printerTurn (h : Akin c d) : AkinBoth c.printerTurn d.printerTurn := by
  unfold Console.printerTurn
  rw [h.printer]
  cases c.printer with
  | receiving => exact h.receive
  | reading slot => exact h.readAnswer slot
  | leaving => exact ⟨h.stopPrinter, rfl⟩
  | stopped => exact ⟨h, rfl⟩
  | crashed => exact ⟨h, rfl⟩

/-! All tasks. -/

theorem turn (h : Akin c d) (hi : id ≠ .signalWatch) : AkinBoth (c.turn id) (d.turn id) := by
  cases id with
  | printer => exact h.printerTurn
  | signalWatch => exact absurd rfl hi
  | keywordWatch => exact h.keywordWatchTurn
  | ticker => exact h.tickerTurn
  | producer n => exact h.producerTurn n

theorem step (h : Akin c d) (hi : id ≠ .signalWatch) : Akin (c.step id) (d.step id) := by
  obtain ⟨e, e', more, hl, hr, he⟩ := (h.turn hi).split
  have ho : Console.others { e' with ready := e'.ready.erase id } =
      Console.others { e with ready := e.ready.erase id } := by
    rw [others_erase, others_erase, he.others]
  unfold Console.step
  rw [hl, hr]
  cases more with
  | true => exact he
  | false => exact { he with others := ho }

theorem work (h : Akin c d) (hi : id ≠ .signalWatch) : Akin (c.work id) (d.work id) := by
  rcases c.work_cases id with ⟨s, request, a, rfl, hs, hk, he⟩ | ⟨hn, he⟩
  · rcases d.work_cases .ticker with ⟨s', request', a', -, hs', hk', he'⟩ | ⟨hn', -⟩
    · rw [h.supervision, hs] at hs'
      rw [h.ticker, hk] at hk'
      cases hs'
      cases hk'
      rw [he, he']
      exact (h.continueCall s request a).akin
    · exact absurd (h.ticker.trans hk) (hn' s request a rfl (h.supervision.trans hs))
  · rcases d.work_cases id with ⟨s', request', a', hi', hs', hk', -⟩ | ⟨-, he'⟩
    · exact absurd (h.ticker.symm.trans hk') (hn s' request' a' hi' (h.supervision.symm.trans hs'))
    · have ho : Akin { c with terminated := false } { d with terminated := false } :=
        { h with terminated := rfl }
      rw [he, he']
      exact { (ho.turn hi).akin with terminated := h.terminated }

/-! What comes from outside. -/

theorem ring (h : Akin c d) (time : Nat) : Akin (c.ring time) (d.ring time) := by
  have ht (timers : List Timer) :
      Akin { c with now := time, timers } { d with now := time, timers } :=
    { h with now := rfl, timers := rfl }
  unfold Console.ring
  rw [h.timers]
  exact (ht _).wakeAll _

theorem spawn (h : Akin c d) (p : Program) : Akin (c.spawn p) (d.spawn p) := by
  have hp : Akin { c with producers := c.producers ++ [some { program := p }] }
      { d with producers := d.producers ++ [some { program := p }] } :=
    { h with producers := congrArg (· ++ [some { program := p }]) h.producers }
  unfold Console.spawn
  rw [← congrArg List.length h.producers]
  exact hp.wake _

theorem kill (h : Akin c d) (n : Nat) : Akin (c.kill n) (d.kill n) := by
  unfold Console.kill
  rw [h.activity?]
  cases c.activity? (.producer n) with
  | none => exact h
  | some a => exact (h.withdraw _).endProducer n

theorem wakeReader (h : Akin c d) : Akin c.wakeReader d.wakeReader := by
  unfold Console.wakeReader
  rw [h.reader]
  exact h.wakeAll _

theorem feed (h : Akin c d) (p : Piece) : Akin (c.feed p) (d.feed p) := by
  unfold Console.feed
  rw [h.reader]
  exact (h.setReader _).wakeReader

theorem closeInput (h : Akin c d) : Akin c.closeInput d.closeInput := by
  unfold Console.closeInput
  rw [h.reader]
  exact (h.setReader _).wakeReader

theorem setSink (h : Akin c d) (s : Sink) : Akin (c.setSink s) (d.setSink s) := by
  unfold Console.setSink
  rw [h.display]
  exact (h.setDisplay _).record _

theorem release (h : Akin c d) : Akin c.release d.release :=
  letGo (c := { c with hosted := false }) (d := { d with hosted := false }) { h with hosted := rfl }

theorem start (h : Akin c d) (k : Nat) (interactive : Bool) :
    Akin (c.act (.start k interactive)) (d.act (.start k interactive)) := by
  obtain ⟨e, e', first, hl, hr, he⟩ := (h.supervise k interactive).split
  simp only [Console.act, hl, hr]
  exact he.record _

end Akin

end Console

end JobConsole
