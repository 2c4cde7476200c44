import JobConsole.Proofs.Deed

/-!
Turns: all that a small step of each task can do to a console. The second index tells whether the
task goes on at once.
-/

namespace JobConsole.Console

variable {c : Console} {id : TaskId}

/-! An activity. -/

inductive Pursuit (c : Console) (id : TaskId) (a : Activity) (note : Outcome → Event) :
    Console → Pace → Prop
  | ended (hp : a.program = []) : Pursuit c id a note c .ended
  | rested {s : Statement} {rest : Program} {d : Console} {w : Wait} (hp : a.program = s :: rest)
      (he : c.perform id s a.wait = (d, .blocked w)) :
      Pursuit c id a note (d.setActivity id { a with wait := w }) .resting
  | moved {s : Statement} {rest : Program} {d : Console} {w : Wait} (hp : a.program = s :: rest)
      (he : c.perform id s a.wait = (d, .moving w)) :
      Pursuit c id a note (d.setActivity id { a with wait := w }) .moving
  | crashed {s : Statement} {rest : Program} {d : Console} (hp : a.program = s :: rest)
      (he : c.perform id s a.wait = (d, .crashed)) : Pursuit c id a note d .crashed
  | followed {s next : Statement} {rest : Program} {d : Console} {o : Outcome}
      (hp : a.program = s :: rest) (he : c.perform id s a.wait = (d, .finished o))
      (hf : s.followUp o = some next) :
      Pursuit c id a note (d.setActivity id { a with program := next :: rest, wait := .fresh })
        .moving
  | finished {s : Statement} {rest : Program} {d : Console} {o : Outcome}
      (hp : a.program = s :: rest) (he : c.perform id s a.wait = (d, .finished o))
      (hf : s.followUp o = none) :
      Pursuit c id a note
        ((d.record (note o)).setActivity id { program := rest, index := a.index + 1 }) .moving

theorem deed_of_perform {s : Statement} {w : Wait} {d : Console} {stage : Stage}
    (h : c.perform id s w = (d, stage)) : Deed c id s w d stage := by
  have hd := @perform_deed c id s w
  rwa [h] at hd

theorem pursue_pursuit (c : Console) (id : TaskId) (a : Activity) (note : Outcome → Event) :
    Pursuit c id a note (c.pursue id a note).1 (c.pursue id a note).2 := by
  unfold pursue
  split
  · rename_i hp
    exact .ended hp
  · rename_i s rest hp
    split
    · rename_i he
      exact .rested hp he
    · rename_i he
      exact .moved hp he
    · rename_i he
      exact .crashed hp he
    · rename_i he
      split
      · rename_i hf
        exact .followed hp he hf
      · rename_i hf
        exact .finished hp he hf

inductive ProducerTurn (c : Console) (n : Nat) : Console → Bool → Prop
  | off (h : c.activity? (.producer n) = none) : ProducerTurn c n c false
  | on {a : Activity} {d : Console} {pace : Pace} (h : c.activity? (.producer n) = some a)
      (hd : Pursuit c (.producer n) a (.finished n a.index) d pace)
      (hp : pace = .resting ∨ pace = .moving) : ProducerTurn c n d (pace = .moving)
  | quit {a : Activity} {d : Console} {pace : Pace} (h : c.activity? (.producer n) = some a)
      (hd : Pursuit c (.producer n) a (.finished n a.index) d pace)
      (hp : pace = .ended ∨ pace = .crashed) : ProducerTurn c n (d.endProducer n) false

theorem producerTurn_cases (c : Console) (n : Nat) :
    ProducerTurn c n (c.producerTurn n).1 (c.producerTurn n).2 := by
  unfold producerTurn
  split
  · rename_i h
    exact .off h
  · rename_i a h
    have hd := pursue_pursuit c (.producer n) a (.finished n a.index)
    split
    · rename_i he
      rw [he] at hd
      exact .on h hd (.inl rfl)
    · rename_i he
      rw [he] at hd
      exact .on h hd (.inr rfl)
    · rename_i he
      rw [he] at hd
      exact .quit h hd (.inl rfl)
    · rename_i he
      rw [he] at hd
      exact .quit h hd (.inr rfl)

/-! The ticker. -/

inductive CallTurn (c : Console) (s : Supervision) (request : Option Request) (a : Activity) :
    Console → Bool → Prop
  | on {d : Console} {pace : Pace}
      (hd : Pursuit c .ticker a (Event.call s.job request (s.tally.number request) ∘ .finished)
        d pace)
      (hp : pace = .resting ∨ pace = .moving) : CallTurn c s request a d (pace = .moving)
  | ended {d : Console}
      (hd : Pursuit c .ticker a (Event.call s.job request (s.tally.number request) ∘ .finished)
        d .ended) :
      CallTurn c s request a (d.record (.call s.job request (s.tally.number request) .ended)).pause
        true
  | crashed {d : Console}
      (hd : Pursuit c .ticker a (Event.call s.job request (s.tally.number request) ∘ .finished)
        d .crashed) :
      CallTurn c s request a
        ((d.record (.call s.job request (s.tally.number request) .crashed)).recover s request).pause
        true

theorem callTurn_cases (c : Console) (s : Supervision) (request : Option Request) (a : Activity) :
    CallTurn c s request a (c.continueCall s request a).1 (c.continueCall s request a).2 := by
  unfold continueCall
  have hd := pursue_pursuit c .ticker a
    (Event.call s.job request (s.tally.number request) ∘ .finished)
  dsimp only
  split
  · rename_i he
    rw [he] at hd
    exact .on hd (.inl rfl)
  · rename_i he
    rw [he] at hd
    exact .on hd (.inr rfl)
  · rename_i he
    rw [he] at hd
    exact .ended hd
  · rename_i he
    rw [he] at hd
    exact .crashed hd

inductive TickerTurn (c : Console) : Console → Bool → Prop
  | off (h : c.supervision = none ∨ c.ticker = .absent) : TickerTurn c c false
  | stop {s : Supervision} (hs : c.supervision = some s) (hk : c.ticker ≠ .absent)
      (ht : c.terminated = true) : TickerTurn c (c.stopTicker s) false
  | call {s : Supervision} (hs : c.supervision = some s) (hk : c.ticker = .checking)
      (ht : c.terminated = false) : TickerTurn c (c.beginCall s) true
  | on {s : Supervision} {request : Option Request} {a : Activity} {d : Console} {pace : Pace}
      (hs : c.supervision = some s) (hk : c.ticker = .calling request a) (ht : c.terminated = false)
      (hd : Pursuit c .ticker a (Event.call s.job request (s.tally.number request) ∘ .finished)
        d pace)
      (hp : pace = .resting ∨ pace = .moving) : TickerTurn c d (pace = .moving)
  | ended {s : Supervision} {request : Option Request} {a : Activity} {d : Console}
      (hs : c.supervision = some s) (hk : c.ticker = .calling request a) (ht : c.terminated = false)
      (hd : Pursuit c .ticker a (Event.call s.job request (s.tally.number request) ∘ .finished)
        d .ended) :
      TickerTurn c (d.record (.call s.job request (s.tally.number request) .ended)).pause true
  | crashed {s : Supervision} {request : Option Request} {a : Activity} {d : Console}
      (hs : c.supervision = some s) (hk : c.ticker = .calling request a) (ht : c.terminated = false)
      (hd : Pursuit c .ticker a (Event.call s.job request (s.tally.number request) ∘ .finished)
        d .crashed) :
      TickerTurn c
        ((d.record (.call s.job request (s.tally.number request) .crashed)).recover s request).pause
        true
  | due {deadline : Nat} (hk : c.ticker = .sleeping deadline) (ht : c.terminated = false)
      (h : deadline ≤ c.now) : TickerTurn c { c with ticker := .checking } true
  | asleep {deadline : Nat} (hk : c.ticker = .sleeping deadline) (ht : c.terminated = false)
      (h : c.now < deadline) : TickerTurn c c false

theorem continueCall_cases {s : Supervision} {request : Option Request} {a : Activity}
    (hs : c.supervision = some s) (hk : c.ticker = .calling request a) (ht : c.terminated = false) :
    TickerTurn c (c.continueCall s request a).1 (c.continueCall s request a).2 := by
  have h := callTurn_cases c s request a
  generalize (c.continueCall s request a).1 = d, (c.continueCall s request a).2 = more at h ⊢
  cases h with
  | on hd hp => exact .on hs hk ht hd hp
  | ended hd => exact .ended hs hk ht hd
  | crashed hd => exact .crashed hs hk ht hd

theorem tickerTurn_cases (c : Console) : TickerTurn c c.tickerTurn.1 c.tickerTurn.2 := by
  unfold tickerTurn
  split
  · rename_i h
    exact .off (.inl h)
  · rename_i h _
    exact .off (.inr h)
  · rename_i s hs hk
    split
    · rename_i ht
      exact .stop hs hk ht
    · rename_i ht
      have ht : c.terminated = false := by simpa using ht
      cases hv : c.ticker with
      | absent => exact absurd hv hk
      | checking => exact .call hs hv ht
      | calling request a => exact continueCall_cases hs hv ht
      | sleeping deadline =>
        dsimp only
        split
        · rename_i h
          exact .due hv ht h
        · rename_i h
          exact .asleep hv ht (by omega)

/-! The signal watch. -/

inductive SignalWatchTurn (c : Console) : Console → Bool → Prop
  | off (h : c.signalWatch = .absent) : SignalWatchTurn c c false
  | register (h : c.signalWatch = .registering) (hf : c.signalFault = none) :
      SignalWatchTurn c { c with signalWatch := .listening [] } true
  | disable {cause : String} (h : c.signalWatch = .registering) (hf : c.signalFault = some cause) :
      SignalWatchTurn c
        (log { c with signalWatch := .absent } (.signalsDisabled (.signalRegistration cause))) false
  | stop {pending : List Signal} (h : c.signalWatch = .listening pending)
      (ht : c.terminated = true) : SignalWatchTurn c { c with signalWatch := .absent } false
  | quiet (h : c.signalWatch = .listening []) (ht : c.terminated = false) :
      SignalWatchTurn c c false
  | hear {s : Signal} {rest : List Signal} (h : c.signalWatch = .listening (s :: rest))
      (ht : c.terminated = false) :
      SignalWatchTurn c
        ((log { c with signalWatch := .listening rest } .signalReceived).offer .signal) true

theorem signalWatchTurn_cases (c : Console) :
    SignalWatchTurn c c.signalWatchTurn.1 c.signalWatchTurn.2 := by
  unfold signalWatchTurn
  split
  · rename_i h
    exact .off h
  · rename_i h
    split
    · rename_i hf
      exact .register h hf
    · rename_i cause hf
      exact .disable h hf
  · rename_i pending h
    split
    · rename_i ht
      exact .stop h ht
    · rename_i ht
      have ht : c.terminated = false := by simpa using ht
      split
      · exact .quiet h ht
      · exact .hear h ht

/-! The keyword watch and its reads. -/

def resumeRead (c : Console) (id : TaskId) : Console :=
  wakeAll { c with reader := (c.reader.resume id).reader } (c.reader.resume id).woken.toList

theorem readLine_eq (c : Console) (id : TaskId) :
    c.readLine id = match (c.reader.resume id).result with
      | none => (c.resumeRead id, none)
      | some result => ((c.resumeRead id).record (.read id result), some result) :=
  rfl

inductive KeywordWatchTurn (c : Console) : Console → Bool → Prop
  | off (h : c.keywordWatch = false) : KeywordWatchTurn c c false
  | stop (h : c.keywordWatch = true) (ht : c.terminated = true) :
      KeywordWatchTurn c c.endKeywordWatch false
  | pending (h : c.keywordWatch = true) (ht : c.terminated = false)
      (hr : (c.reader.resume .keywordWatch).result = none) :
      KeywordWatchTurn c (c.resumeRead .keywordWatch) false
  | keyword {line : String} (h : c.keywordWatch = true) (ht : c.terminated = false)
      (hr : (c.reader.resume .keywordWatch).result = some (.ok line))
      (hk : c.settings.isCancelKeyword line = true) :
      KeywordWatchTurn c
        (((((c.resumeRead .keywordWatch).record (.read .keywordWatch (.ok line))).log
          .keywordReceived).offer .keyword).endKeywordWatch) false
  | other {line : String} (h : c.keywordWatch = true) (ht : c.terminated = false)
      (hr : (c.reader.resume .keywordWatch).result = some (.ok line))
      (hk : c.settings.isCancelKeyword line = false) :
      KeywordWatchTurn c
        ((c.resumeRead .keywordWatch).record (.read .keywordWatch (.ok line))) true
  | failed {failure : Failure} (h : c.keywordWatch = true) (ht : c.terminated = false)
      (hr : (c.reader.resume .keywordWatch).result = some (.error failure)) :
      KeywordWatchTurn c
        ((((c.resumeRead .keywordWatch).record (.read .keywordWatch (.error failure))).log
          (.watchFailed failure)).record (.ending .keywordWatch (.abort failure))).endKeywordWatch
        false

theorem keywordWatchTurn_cases (c : Console) :
    KeywordWatchTurn c c.keywordWatchTurn.1 c.keywordWatchTurn.2 := by
  unfold keywordWatchTurn
  rw [readLine_eq]
  cases h : c.keywordWatch with
  | false => exact .off h
  | true =>
    cases ht : c.terminated with
    | true => exact .stop h ht
    | false =>
      cases hr : (c.reader.resume .keywordWatch).result with
      | none => exact .pending h ht hr
      | some result =>
        cases result with
        | error failure => exact .failed h ht hr
        | ok line =>
          have hs : ((c.resumeRead .keywordWatch).record
              (.read .keywordWatch (.ok line))).settings = c.settings := rfl
          simp only [Bool.not_true, Bool.false_eq_true, if_false, hs]
          cases hk : c.settings.isCancelKeyword line with
          | true => exact .keyword h ht hr hk
          | false => exact .other h ht hr hk

/-! The printer. -/

def take (c : Console) (t : Mailbox.Taken TaskId) : Console :=
  (wakeAll { c with mailbox := t.mailbox } t.woken.toList).record (.handled t.message)

def shown (c : Console) (kind : Kind) (d : Display.Drawn) : Console :=
  match d.fault with
  | none => (record { c with display := d.display } (.wrote d.bytes)).record .flushed
  | some fault =>
    (record { c with display := d.display } (.wrote d.bytes)).log (.terminalFailed fault kind)

theorem draw?_eq (c : Console) (m : Message) :
    c.draw? m = (c.display.draw m.kind m.text).map (c.shown m.kind) :=
  rfl

inductive PrinterTurn (c : Console) : Console → Bool → Prop
  | gone (h : c.printer = .stopped ∨ c.printer = .crashed) : PrinterTurn c c false
  | idle (h : c.printer = .receiving) (hm : c.mailbox.take? = none) (hh : c.isHeld = true) :
      PrinterTurn c c false
  | deserted (h : c.printer = .receiving) (hm : c.mailbox.take? = none) (hh : c.isHeld = false) :
      PrinterTurn c c.stopPrinter false
  | choked {t : Mailbox.Taken TaskId} (h : c.printer = .receiving) (hm : c.mailbox.take? = some t)
      (hd : c.display.draw t.message.kind t.message.text = none) :
      PrinterTurn c ((c.take t).crashPrinter t.message) false
  | told {t : Mailbox.Taken TaskId} {d : Display.Drawn} (h : c.printer = .receiving)
      (hm : c.mailbox.take? = some t)
      (hd : c.display.draw t.message.kind t.message.text = some d)
      (hs : t.message.slot? = none) (hc : t.message.code? = none) :
      PrinterTurn c ((c.take t).shown t.message.kind d) true
  | asked {t : Mailbox.Taken TaskId} {d : Display.Drawn} {slot : ReplySlot}
      (h : c.printer = .receiving) (hm : c.mailbox.take? = some t)
      (hd : c.display.draw t.message.kind t.message.text = some d)
      (hs : t.message.slot? = some slot) :
      PrinterTurn c { (c.take t).shown t.message.kind d with printer := .reading slot } true
  | exited {t : Mailbox.Taken TaskId} {d : Display.Drawn} {code : ExitCode}
      (h : c.printer = .receiving) (hm : c.mailbox.take? = some t)
      (hd : c.display.draw t.message.kind t.message.text = some d)
      (hc : t.message.code? = some code) :
      PrinterTurn c
        { (((c.take t).shown t.message.kind d).log (.exiting code)).record
            (.ending .printer (.exit code)) with printer := .leaving } true
  | pending {slot : ReplySlot} (h : c.printer = .reading slot)
      (hr : (c.reader.resume .printer).result = none) :
      PrinterTurn c (c.resumeRead .printer) false
  | heard {slot : ReplySlot} {line : String} (h : c.printer = .reading slot)
      (hr : (c.reader.resume .printer).result = some (.ok line)) :
      PrinterTurn c
        { ((c.resumeRead .printer).record (.read .printer (.ok line))).answer slot line with
          printer := .receiving } true
  | failed {slot : ReplySlot} {failure : Failure} (h : c.printer = .reading slot)
      (hr : (c.reader.resume .printer).result = some (.error failure)) :
      PrinterTurn c
        { ((((c.resumeRead .printer).record (.read .printer (.error failure))).log
            (.answerFailed failure)).record (.ending .printer (.abort failure))).hangUp slot with
          printer := .leaving } true
  | left (h : c.printer = .leaving) : PrinterTurn c c.stopPrinter false

theorem handle_cases {t : Mailbox.Taken TaskId} (h : c.printer = .receiving)
    (hm : c.mailbox.take? = some t) :
    PrinterTurn c ((c.take t).handle t.message).1 ((c.take t).handle t.message).2 := by
  have hdisplay : (c.take t).display = c.display := rfl
  unfold handle
  rw [draw?_eq, hdisplay]
  cases hd : c.display.draw t.message.kind t.message.text with
  | none => exact .choked h hm hd
  | some d =>
    simp only [Option.map_some]
    split
    · simp at *
    · rename_i slot he ht
      cases he
      exact .asked h hm hd (by rw [ht]; rfl)
    · rename_i code he ht
      cases he
      exact .exited h hm hd (by rw [ht]; rfl)
    · rename_i he hprompt hexit
      cases he
      refine .told h hm hd ?_ ?_
      · cases ht : t.message with
        | prompt text slot => exact absurd ht (hprompt text slot)
        | _ => rfl
      · cases ht : t.message with
        | exit text code => exact absurd ht (hexit text code)
        | _ => rfl

theorem receive_cases (h : c.printer = .receiving) : PrinterTurn c c.receive.1 c.receive.2 := by
  unfold receive
  split
  · rename_i t hm
    exact handle_cases h hm
  · rename_i hm
    split
    · rename_i hh
      exact .idle h hm hh
    · rename_i hh
      exact .deserted h hm (by simpa using hh)

theorem printerTurn_cases (c : Console) : PrinterTurn c c.printerTurn.1 c.printerTurn.2 := by
  unfold printerTurn
  cases h : c.printer with
  | receiving => exact receive_cases h
  | reading slot =>
    simp only [readAnswer, readLine_eq]
    cases hr : (c.reader.resume .printer).result with
    | none => exact .pending h hr
    | some result =>
      cases result with
      | ok line => exact .heard h hr
      | error failure => exact .failed h hr
  | leaving => exact .left h
  | stopped => exact .gone (.inl h)
  | crashed => exact .gone (.inr h)

inductive ReadingTurn (c : Console) (slot : ReplySlot) : Console → Prop
  | pending (hr : (c.reader.resume .printer).result = none) :
      ReadingTurn c slot (c.resumeRead .printer)
  | heard {line : String} (hr : (c.reader.resume .printer).result = some (.ok line)) :
      ReadingTurn c slot
        { ((c.resumeRead .printer).record (.read .printer (.ok line))).answer slot line with
          printer := .receiving }
  | failed {failure : Failure} (hr : (c.reader.resume .printer).result = some (.error failure)) :
      ReadingTurn c slot
        { ((((c.resumeRead .printer).record (.read .printer (.error failure))).log
            (.answerFailed failure)).record (.ending .printer (.abort failure))).hangUp slot with
          printer := .leaving }

theorem PrinterTurn.reading {slot : ReplySlot} {d : Console} {more : Bool}
    (h : PrinterTurn c d more) (hp : c.printer = .reading slot) : ReadingTurn c slot d := by
  cases h with
  | pending _ hr => exact .pending hr
  | heard h hr =>
    rw [hp] at h
    cases h
    exact .heard hr
  | failed h hr =>
    rw [hp] at h
    cases h
    exact .failed hr
  | gone h => rcases h with h | h <;> rw [hp] at h <;> cases h
  | idle h | deserted h | choked h | told h | asked h | exited h | left h =>
    rw [hp] at h
    cases h

end JobConsole.Console
