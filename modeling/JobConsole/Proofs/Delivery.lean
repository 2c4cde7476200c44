import JobConsole.Proofs.Shutdown
import JobConsole.Session

namespace JobConsole

inductive Print
  | message (m : Message)
  | sink (s : Sink)

namespace Display

def after (d : Display) : Print → Display
  | .message m => (d.draw m.kind m.text).elim d (·.display)
  | .sink s => { d with sink := s }

def afterAll (d : Display) (ps : List Print) : Display :=
  ps.foldl after d

def written (d : Display) : Print → List UInt8
  | .message m => (d.draw m.kind m.text).elim [] (·.bytes)
  | .sink _ => []

def transcript (d : Display) : List Print → List UInt8
  | [] => []
  | p :: ps => d.written p ++ (d.after p).transcript ps

theorem afterAll_append (d : Display) (ps qs : List Print) :
    d.afterAll (ps ++ qs) = (d.afterAll ps).afterAll qs :=
  List.foldl_append ..

theorem afterAll_concat (d : Display) (ps : List Print) (p : Print) :
    d.afterAll (ps ++ [p]) = (d.afterAll ps).after p :=
  d.afterAll_append ps [p]

theorem transcript_append (d : Display) (ps qs : List Print) :
    d.transcript (ps ++ qs) = d.transcript ps ++ (d.afterAll ps).transcript qs := by
  induction ps generalizing d with
  | nil => rfl
  | cons p ps ih =>
    rw [List.cons_append, transcript, ih, transcript, List.append_assoc]
    rfl

theorem transcript_concat (d : Display) (ps : List Print) (p : Print) :
    d.transcript (ps ++ [p]) = d.transcript ps ++ (d.afterAll ps).written p := by
  rw [transcript_append, transcript, transcript, List.append_nil]

end Display

namespace Event

def accepted? : Event → Option Message
  | accepted _ m => some m
  | _ => none

def handled? : Event → Option Message
  | handled m => some m
  | _ => none

def discarded? : Event → Option Message
  | discarded m => some m
  | _ => none

def print? : Event → Option Print
  | handled m => some (.message m)
  | sinkChanged s => some (.sink s)
  | _ => none

def isMail : Event → Bool
  | accepted .. | handled _ | discarded _ | wrote _ | sinkChanged _ => true
  | _ => false

variable {e : Event}

theorem bytes_of_not_isMail (h : e.isMail = false) : e.bytes = [] := by
  cases e <;> first | rfl | cases h

theorem silent_of_not_isMail (h : e.isMail = false) :
    e.accepted? = none ∧ e.handled? = none ∧ e.discarded? = none ∧ e.print? = none := by
  cases e <;> first | exact ⟨rfl, rfl, rfl, rfl⟩ | cases h

end Event

/-- What can be laid out is drawn as it is handled, on a display that was `d₀` in the beginning. -/
def DrawnOn (d₀ : Display) (es : List Event) : Prop :=
  ∀ older m newer r, es = older ++ .handled m :: newer →
    (d₀.afterAll (older.filterMap Event.print?)).draw m.kind m.text = some r →
      ∃ rest, newer = .wrote r.bytes :: rest

namespace DrawnOn

variable {d₀ : Display} {es news : List Event} {m : Message}

theorem nil : DrawnOn d₀ [] :=
  fun _ _ _ _ he => absurd he.symm (List.append_ne_nil_of_right_ne_nil _ (List.cons_ne_nil _ _))

theorem append (h : DrawnOn d₀ es) (hn : ∀ e ∈ news, e.handled? = none) :
    DrawnOn d₀ (es ++ news) := by
  intro older m newer r he hr
  rcases List.append_eq_append_iff.1 he with ⟨as, rfl, hf⟩ | ⟨as, rfl, hf⟩
  · cases hn (.handled m) (by simp [hf])
  · cases as with
    | nil =>
      obtain rfl : .handled m :: newer = news := hf
      cases hn (.handled m) List.mem_cons_self
    | cons x as =>
      obtain ⟨rfl, rfl⟩ := List.cons.inj hf
      obtain ⟨rest, rfl⟩ := h older m as r rfl hr
      exact ⟨rest ++ news, rfl⟩

theorem handled (h : DrawnOn d₀ es) (hm : ∀ r,
    (d₀.afterAll (es.filterMap Event.print?)).draw m.kind m.text = some r →
      ∃ rest, news = .wrote r.bytes :: rest) (hn : ∀ e ∈ news, e.handled? = none) :
    DrawnOn d₀ (es ++ .handled m :: news) := by
  intro older m' newer r he hr
  rcases List.append_eq_append_iff.1 he with ⟨as, rfl, hf⟩ | ⟨as, rfl, hf⟩
  · cases as with
    | nil =>
      obtain ⟨hmm, rfl⟩ := List.cons.inj hf
      cases hmm
      rw [List.append_nil] at hr
      exact hm r hr
    | cons x as =>
      obtain ⟨-, rfl⟩ := List.cons.inj hf
      cases hn (.handled m') (by simp)
  · cases as with
    | nil =>
      obtain ⟨hmm, rfl⟩ := List.cons.inj hf
      cases hmm
      rw [List.append_nil] at hm
      exact hm r hr
    | cons x as =>
      obtain ⟨rfl, rfl⟩ := List.cons.inj hf
      obtain ⟨rest, rfl⟩ := h older m' as r rfl hr
      exact ⟨rest ++ .handled m :: news, rfl⟩

end DrawnOn

/-- How events, the messages in the mailbox and the display fit together. -/
structure Accounted (d₀ : Display) (es : List Event) (items : List Message) (closed : Bool)
    (d : Display) : Prop where
  sent : es.filterMap Event.accepted? =
    es.filterMap Event.handled? ++ es.filterMap Event.discarded? ++ items
  kept : closed = false → es.filterMap Event.discarded? = []
  display : d = d₀.afterAll (es.filterMap Event.print?)
  output : es.flatMap Event.bytes = d₀.transcript (es.filterMap Event.print?)
  drawn : DrawnOn d₀ es

namespace Accounted

variable {d₀ d : Display} {es : List Event} {items : List Message} {closed : Bool} {m : Message}

theorem quiet (h : Accounted d₀ es items closed d) {e : Event} (he : e.isMail = false) :
    Accounted d₀ (es ++ [e]) items closed d := by
  obtain ⟨ha, hh, hd, hp⟩ := Event.silent_of_not_isMail he
  have hb := Event.bytes_of_not_isMail he
  constructor
  · simpa [ha, hh, hd] using h.sent
  · simpa [hd] using h.kept
  · simpa [hp] using h.display
  · simpa [hp, hb] using h.output
  · exact h.drawn.append (by simpa using hh)

theorem accept (h : Accounted d₀ es items closed d) (id : TaskId) (m : Message) :
    Accounted d₀ (es ++ [Event.accepted id m]) (items ++ [m]) closed d := by
  constructor
  · simp [List.filterMap_cons, Event.accepted?, Event.handled?, Event.discarded?, h.sent]
  · simpa [List.filterMap_cons, Event.discarded?] using h.kept
  · simpa [List.filterMap_cons, Event.print?] using h.display
  · simpa [List.filterMap_cons, Event.print?, Event.bytes] using h.output
  · exact h.drawn.append (by simp [Event.handled?])

theorem sent_of_handled (h : Accounted d₀ es (m :: items) false d) :
    es.filterMap Event.accepted? =
      es.filterMap Event.handled? ++ [m] ++ es.filterMap Event.discarded? ++ items := by
  simp [h.sent, h.kept rfl]

theorem choke (h : Accounted d₀ es (m :: items) false d) (hd : d.draw m.kind m.text = none) :
    Accounted d₀ (es ++ [Event.handled m]) items false d := by
  have hp : (es ++ [Event.handled m]).filterMap Event.print? =
      es.filterMap Event.print? ++ [.message m] := by
    simp [Event.print?]
  constructor
  · simpa [List.filterMap_cons, Event.accepted?, Event.handled?, Event.discarded?] using h.sent_of_handled
  · simpa [List.filterMap_cons, Event.discarded?] using h.kept
  · rw [hp, Display.afterAll_append, ← h.display]
    simp [Display.afterAll, Display.after, hd]
  · rw [hp, Display.transcript_concat, ← h.display, List.flatMap_append, h.output]
    simp [Display.written, hd, Event.bytes]
  · refine h.drawn.handled (fun r hr => ?_) nofun
    rw [← h.display, hd] at hr
    cases hr

theorem handle (h : Accounted d₀ es (m :: items) false d) {r : Display.Drawn}
    (hd : d.draw m.kind m.text = some r) :
    Accounted d₀ (es ++ [Event.handled m] ++ [Event.wrote r.bytes]) items false r.display := by
  have hp : (es ++ [Event.handled m] ++ [Event.wrote r.bytes]).filterMap Event.print? =
      es.filterMap Event.print? ++ [.message m] := by
    simp [Event.print?]
  constructor
  · simpa [List.filterMap_cons, Event.accepted?, Event.handled?, Event.discarded?] using h.sent_of_handled
  · simpa [List.filterMap_cons, Event.discarded?] using h.kept
  · rw [hp, Display.afterAll_append, ← h.display]
    simp [Display.afterAll, Display.after, hd]
  · rw [hp, Display.transcript_concat, ← h.display, List.flatMap_append, List.flatMap_append,
      h.output]
    simp [Display.written, hd, Event.bytes]
  · rw [List.append_assoc]
    refine h.drawn.handled (fun r' hr => ?_) (by simp [Event.handled?])
    rw [← h.display, hd] at hr
    cases hr
    exact ⟨[], rfl⟩

theorem discard (h : Accounted d₀ es items closed d) :
    Accounted d₀ (es ++ items.map Event.discarded) [] true d := by
  have ha : (items.map Event.discarded).filterMap Event.accepted? = [] := by
    simp [Event.accepted?]
  have hh : (items.map Event.discarded).filterMap Event.handled? = [] := by
    simp [Event.handled?]
  have hd : (items.map Event.discarded).filterMap Event.discarded? = items := by
    rw [List.filterMap_map]
    exact List.filterMap_some
  have hp : (items.map Event.discarded).filterMap Event.print? = [] := by
    simp [Event.print?]
  have hb : (items.map Event.discarded).flatMap Event.bytes = [] := by
    simp [Event.bytes]
  constructor
  · rw [List.filterMap_append, List.filterMap_append, List.filterMap_append, ha, hh, hd, h.sent]
    simp
  · simp
  · rw [List.filterMap_append, hp, List.append_nil]
    exact h.display
  · rw [List.filterMap_append, List.flatMap_append, hp, hb, List.append_nil, List.append_nil]
    exact h.output
  · exact h.drawn.append (by simp [Event.handled?])

theorem exchange (h : Accounted d₀ es items closed d) (s : Sink) :
    Accounted d₀ (es ++ [Event.sinkChanged s]) items closed { d with sink := s } := by
  have hp : (es ++ [Event.sinkChanged s]).filterMap Event.print? =
      es.filterMap Event.print? ++ [.sink s] := by
    simp [Event.print?]
  constructor
  · simpa [List.filterMap_cons, Event.accepted?, Event.handled?, Event.discarded?] using h.sent
  · simpa [List.filterMap_cons, Event.discarded?] using h.kept
  · rw [hp, Display.afterAll_append, ← h.display]
    rfl
  · rw [hp, Display.transcript_concat, List.flatMap_append, h.output]
    simp [Display.written, Event.bytes]
  · exact h.drawn.append (by simp [Event.handled?])

end Accounted

namespace Console

def handled (c : Console) : List Message :=
  c.events.filterMap Event.handled?

def discarded (c : Console) : List Message :=
  c.events.filterMap Event.discarded?

def prints (c : Console) : List Print :=
  c.events.filterMap Event.print?

def Mail (d₀ : Display) (c : Console) : Prop :=
  Accounted d₀ c.events c.mailbox.items c.mailbox.closed c.display

variable {d₀ : Display} {c d : Console} {id : TaskId}

theorem output_eq (c : Console) : c.output = c.events.flatMap Event.bytes := by
  unfold output events
  rw [← List.map_reverse, List.flatMap_map]

theorem Enters.items {b b' : Mailbox TaskId} {m : Message} {w : Wait} (h : Enters b id m w b') :
    b'.items = b.items ++ [m] := by
  cases h <;> rfl

namespace Mail

theorem record (h : Mail d₀ c) {e : Event} (he : e.isMail = false) : Mail d₀ (c.record e) := by
  unfold Mail
  rw [events_record]
  exact h.quiet he

theorem setActivity (h : Mail d₀ c) (id : TaskId) (a : Activity) :
    Mail d₀ (c.setActivity id a) := by
  obtain ⟨producers, ticker, he⟩ := c.setActivity_eq id a
  rw [he]
  exact h

theorem withdraw (h : Mail d₀ c) (id : TaskId) : Mail d₀ (c.withdraw id) := by
  obtain ⟨hi, hc, -⟩ := c.mailbox.leave_items id
  change Accounted d₀ c.events (c.mailbox.leave id).1.items (c.mailbox.leave id).1.closed c.display
  rw [hi, hc]
  exact h

theorem supervised {k : Nat} {interactive first : Bool} (h : Mail d₀ c)
    (hs : Supervised c k interactive d first) : Mail d₀ d := by
  cases hs with
  | already => exact h.record (e := .logged _) rfl
  | started => exact h.record (e := .logged _) rfl

theorem deed {s : Statement} {w : Wait} {stage : Stage} (h : Mail d₀ c)
    (hd : Deed c id s w d stage) : Mail d₀ d := by
  cases hd with
  | still => exact h
  | @accept m slots mailbox hm ho hb =>
    change Accounted d₀ (Console.record { c with slots, mailbox } _).events mailbox.items
      mailbox.closed c.display
    rw [events_record, hb.items, hb.keeps.2]
    exact Accounted.accept h id m
  | @refuse m slots hm hc =>
    have hr : Mail d₀ { c with slots } := h
    exact (hr.record rfl).record rfl
  | join => exact h
  | park =>
    unfold park
    split <;> exact h
  | @supervise k interactive => exact h.supervised (c.supervise_cases k interactive)
  | sleep => exact h

theorem pursuit {a : Activity} {note : Outcome → Event} {pace : Pace} (h : Mail d₀ c)
    (hn : ∀ o, (note o).isMail = false) (hd : Pursuit c id a note d pace) : Mail d₀ d := by
  cases hd with
  | ended => exact h
  | rested hp he => exact (h.deed (deed_of_perform he)).setActivity _ _
  | moved hp he => exact (h.deed (deed_of_perform he)).setActivity _ _
  | crashed hp he => exact h.deed (deed_of_perform he)
  | followed hp he => exact (h.deed (deed_of_perform he)).setActivity _ _
  | finished hp he => exact ((h.deed (deed_of_perform he)).record (hn _)).setActivity _ _

theorem producerTurn {n : Nat} {more : Bool} (h : Mail d₀ c) (hd : ProducerTurn c n d more) :
    Mail d₀ d := by
  cases hd with
  | off => exact h
  | on ha hd => exact h.pursuit (fun _ => rfl) hd
  | @quit a d pace ha hd =>
    have h' : Mail d₀ d := h.pursuit (fun _ => rfl) hd
    exact h'

theorem recover (h : Mail d₀ c) (s : Supervision) (request : Option Request) :
    Mail d₀ (c.recover s request) := by
  have hl : Mail d₀ (c.log (.callCrashed (c.job s.job).name request.isSome)) := h.record rfl
  cases request <;> exact hl

theorem beginCall (h : Mail d₀ c) (s : Supervision) : Mail d₀ (c.beginCall s) := by
  unfold Console.beginCall
  refine record ?_ rfl
  cases c.request with
  | none => exact h
  | some r => exact record (e := .logged _) h rfl

theorem callTurn {s : Supervision} {request : Option Request} {a : Activity} {more : Bool}
    (h : Mail d₀ c) (hd : CallTurn c s request a d more) : Mail d₀ d := by
  cases hd with
  | on hd => exact h.pursuit (fun _ => rfl) hd
  | ended hd =>
    have hp := h.pursuit (fun _ => rfl) hd
    exact hp.record (e := .call s.job request (s.tally.number request) .ended) rfl
  | crashed hd =>
    have hp := h.pursuit (fun _ => rfl) hd
    have hr := hp.record (e := .call s.job request (s.tally.number request) .crashed) rfl
    exact hr.recover s request

theorem tickerTurn {more : Bool} (h : Mail d₀ c) (hd : TickerTurn c d more) : Mail d₀ d := by
  cases hd with
  | off => exact h
  | @stop s =>
    have hw : Mail d₀ { c.withdraw .ticker with ticker := .absent } := h.withdraw .ticker
    exact hw.record (e := .logged (.stopped (c.job s.job).name)) rfl
  | call => exact h.beginCall _
  | on _ _ _ hd hp => exact h.callTurn (.on hd hp)
  | ended _ _ _ hd => exact h.callTurn (.ended hd)
  | crashed _ _ _ hd => exact h.callTurn (.crashed hd)
  | due => exact h
  | asleep => exact h

theorem signalWatchTurn {more : Bool} (h : Mail d₀ c) (hd : SignalWatchTurn c d more) :
    Mail d₀ d := by
  cases hd with
  | @disable cause => exact h.record (e := .logged (.signalsDisabled (.signalRegistration cause))) rfl
  | hear => exact h.record (e := .logged .signalReceived) rfl
  | _ => exact h

theorem resumeRead (h : Mail d₀ c) (id : TaskId) : Mail d₀ (c.resumeRead id) :=
  h

theorem offer (h : Mail d₀ c) (r : Request) : Mail d₀ (c.offer r) :=
  h

theorem endKeywordWatch (h : Mail d₀ c) : Mail d₀ c.endKeywordWatch :=
  h

theorem keywordWatchTurn {more : Bool} (h : Mail d₀ c) (hd : KeywordWatchTurn c d more) :
    Mail d₀ d := by
  have hr := h.resumeRead .keywordWatch
  cases hd with
  | off => exact h
  | stop => exact h.endKeywordWatch
  | pending => exact hr
  | @keyword line =>
    exact (((hr.record rfl).record (e := .logged .keywordReceived) rfl).offer .keyword).endKeywordWatch
  | other => exact hr.record rfl
  | @failed failure =>
    exact (((hr.record rfl).record (e := .logged (.watchFailed failure)) rfl).record
      rfl).endKeywordWatch

theorem shown {t : Mailbox.Taken TaskId} {r : Display.Drawn} (h : Mail d₀ c)
    (ho : c.mailbox.closed = false) (hm : c.mailbox.take? = some t)
    (hd : c.display.draw t.message.kind t.message.text = some r) (kind : Kind) :
    Mail d₀ ((c.take t).shown kind r) := by
  obtain ⟨hi, hc⟩ := Mailbox.items_of_take? hm
  have hw : Mail d₀ (Console.record { c.take t with display := r.display } (.wrote r.bytes)) := by
    unfold Mail at h ⊢
    rw [ho, hi] at h
    have he := h.handle hd
    change Accounted d₀ _ t.mailbox.items t.mailbox.closed r.display
    rw [events_record, hc, ho]
    exact (events_record c (.handled t.message)) ▸ he
  unfold Console.shown
  split
  · exact hw.record rfl
  · exact hw.record (e := .logged _) rfl

theorem choked {t : Mailbox.Taken TaskId} (h : Mail d₀ c) (ho : c.mailbox.closed = false)
    (hm : c.mailbox.take? = some t)
    (hd : c.display.draw t.message.kind t.message.text = none) : Mail d₀ (c.take t) := by
  obtain ⟨hi, hc⟩ := Mailbox.items_of_take? hm
  unfold Mail at h ⊢
  rw [ho, hi] at h
  have he := h.choke hd
  change Accounted d₀ _ t.mailbox.items t.mailbox.closed c.display
  rw [hc, ho]
  exact (events_record c (.handled t.message)) ▸ he

theorem discarded (h : Mail d₀ c) : Mail d₀
    { c with
      mailbox := c.mailbox.close.drain
      journal := c.mailbox.items.reverse.map (⟨c.now, .discarded ·⟩) ++ c.journal } := by
  change Accounted d₀ (events { c with
    journal := c.mailbox.items.reverse.map (⟨c.now, .discarded ·⟩) ++ c.journal }) [] true c.display
  rw [events_discarded]
  exact Accounted.discard h

theorem stopPrinter (h : Mail d₀ c) : Mail d₀ c.stopPrinter := by
  have hl : Mail d₀ (c.log .printerStopped) := h.record rfl
  have hd := hl.discarded
  obtain ⟨producers, ticker, ready, he⟩ := c.stopPrinter_eq
  rw [he]
  exact hd

theorem crashPrinter (h : Mail d₀ c) (m : Message) : Mail d₀ (c.crashPrinter m) := by
  have hd := h.discarded
  obtain ⟨producers, ticker, ready, he⟩ := c.crashPrinter_eq m
  rw [he]
  exact hd

theorem printerTurn {more : Bool} (h : Mail d₀ c) (hc : Staged c) (hd : PrinterTurn c d more) :
    Mail d₀ d := by
  have ho (hp : c.printer = .receiving) : c.mailbox.closed = false :=
    (hc.open (by simp [hp]) (by simp [hp])).1
  have hr := h.resumeRead .printer
  cases hd with
  | gone => exact h
  | idle => exact h
  | deserted => exact h.stopPrinter
  | choked hp hm hd => exact (h.choked (ho hp) hm hd).crashPrinter _
  | told hp hm hd => exact h.shown (ho hp) hm hd _
  | asked hp hm hd => exact h.shown (ho hp) hm hd _
  | @exited t r code hp hm hd =>
    have hs := h.shown (ho hp) hm hd t.message.kind
    exact (hs.record (e := .logged (.exiting code)) rfl).record
      (e := .ending .printer (.exit code)) rfl
  | pending => exact hr
  | @heard slot line =>
    have hl : Mail d₀ ((c.resumeRead .printer).record (.read .printer (.ok line))) := hr.record rfl
    rcases ((c.resumeRead .printer).record (.read .printer (.ok line))).answer_eq slot line with
      ⟨producers, ticker, ready, he⟩ | he <;> rw [he]
    · exact hl
    · exact hl.record (e := .logged .askerGone) rfl
  | @failed slot failure =>
    have hl := ((hr.record (e := .read .printer (.error failure)) rfl).record
      (e := .logged (.answerFailed failure)) rfl).record
      (e := .ending .printer (.abort failure)) rfl
    obtain ⟨producers, ticker, ready, he⟩ :=
      ((((c.resumeRead .printer).record (.read .printer (.error failure))).log
        (.answerFailed failure)).record (.ending .printer (.abort failure))).hangUp_eq slot
    rw [he]
    exact hl
  | left => exact h.stopPrinter

theorem step (h : Mail d₀ c) (hc : Staged c) (id : TaskId) : Mail d₀ (c.step id) := by
  obtain ⟨ready, he⟩ := c.turn_eq_step id
  have ht : Mail d₀ (c.turn id).1 := by
    cases id with
    | printer => exact h.printerTurn hc (printerTurn_cases c)
    | signalWatch => exact h.signalWatchTurn (signalWatchTurn_cases c)
    | keywordWatch => exact h.keywordWatchTurn (keywordWatchTurn_cases c)
    | ticker => exact h.tickerTurn (tickerTurn_cases c)
    | producer n => exact h.producerTurn (producerTurn_cases c n)
  rw [he]
  exact ht

theorem act (h : Mail d₀ c) (hc : Staged c) (m : Move) : Mail d₀ (c.act m) := by
  cases m with
  | step id => exact h.step hc id
  | kill n =>
    change Mail d₀ (c.kill n)
    unfold Console.kill
    split
    · exact h
    · exact h.withdraw (.producer n)
  | raise s =>
    change Mail d₀ (c.raise s)
    unfold Console.raise
    split <;> exact h
  | setSink s =>
    change Accounted d₀ (Console.record { c with display.sink := s } (.sinkChanged s)).events
      c.mailbox.items c.mailbox.closed { c.display with sink := s }
    rw [events_record]
    exact Accounted.exchange h s
  | start k interactive =>
    exact (h.supervised (c.supervise_cases k interactive)).record
      (e := .hostStarted k (c.supervise k interactive).2) rfl
  | _ => exact h

end Mail

theorem Run.mail {settings : Settings} {jobs : List Job} {source : Source} {sink : Sink}
    {c₀ c : Console} {moves : List Move} (h₀ : new? settings jobs source sink = some c₀)
    (h : Run c₀ moves c) : Mail { sink } c := by
  have both : Staged c ∧ Mail { sink } c := by
    apply h.invariant (P := fun c => Staged c ∧ Mail { sink } c)
    · obtain ⟨-, rfl⟩ := new?_eq_some.1 h₀
      exact ⟨.running nofun nofun rfl rfl, rfl, fun _ => rfl, rfl, rfl, .nil⟩
    · exact fun c m _ hc => ⟨hc.1.act m, hc.2.act hc.1 m⟩
  exact both.2

end Console

end JobConsole
