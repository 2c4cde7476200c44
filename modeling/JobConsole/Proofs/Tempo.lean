import JobConsole.Proofs.Speech
import JobConsole.Proofs.Staffing

/-!
Tempo: the calls to the job as beats. What a task does changes the tempo by a beat that is due, or
leaves alone what the next beat needs: the state of the ticker, its timer and its place among those
that can run.
-/

namespace JobConsole

inductive Beat
  | start
  | began (request : Option Request)
  | ended
  deriving DecidableEq

def Event.beat? : Event → Option Beat
  | logged (.started ..) => some .start
  | call _ request _ .began => some (.began request)
  | call _ _ _ .ended | call _ _ _ .crashed => some .ended
  | _ => none

def Entry.beat? (e : Entry) : Option (Nat × Beat) :=
  e.event.beat?.map (e.time, ·)

def beats (journal : List Entry) : List (Nat × Beat) :=
  journal.reverse.filterMap Entry.beat?

inductive Tempo
  | still
  | due (time : Nat)
  | calling (since : Nat)

/-- The beats that lead from one tempo to another. The first call is due at once, every other one a
period after the end of the call before. -/
inductive Cadence (period : Nat) : Tempo → List (Nat × Beat) → Tempo → Prop
  | nil (p : Tempo) : Cadence period p [] p
  | start {time : Nat} {bs : List (Nat × Beat)} {p : Tempo} (h : Cadence period (.due time) bs p) :
      Cadence period .still ((time, .start) :: bs) p
  | began {time : Nat} {request : Option Request} {bs : List (Nat × Beat)} {p : Tempo}
      (h : Cadence period (.calling time) bs p) :
      Cadence period (.due time) ((time, .began request) :: bs) p
  | ended {since time : Nat} {bs : List (Nat × Beat)} {p : Tempo} (hs : since ≤ time)
      (h : Cadence period (.due (time + period)) bs p) :
      Cadence period (.calling since) ((time, .ended) :: bs) p

variable {period : Nat} {p q r : Tempo} {xs ys : List (Nat × Beat)}

theorem beats_append (new old : List Entry) : beats (new ++ old) = beats old ++ beats new := by
  simp [beats]

theorem Cadence.append (h : Cadence period p xs q) (g : Cadence period q ys r) :
    Cadence period p (xs ++ ys) r := by
  induction h with
  | nil => exact g
  | start _ ih => exact .start (ih g)
  | began _ ih => exact .began (ih g)
  | ended hs _ ih => exact .ended hs (ih g)

theorem Ticker.setActivity_setActivity (t : Ticker) (a b : Activity) :
    (t.setActivity a).setActivity b = t.setActivity b := by
  cases t <;> rfl

namespace Console

/-- What a console has at hand for the beat that is to come. -/
inductive Awaits (c : Console) : Tempo → Prop
  | still (hs : c.supervision = none) : Awaits c .still
  | asleep {time : Nat} (hs : c.supervision.isSome) (hk : c.ticker = .sleeping time)
      (hn : c.now < time) (hm : ⟨time, .ticker⟩ ∈ c.timers) : Awaits c (.due time)
  | roused (hs : c.supervision.isSome) (hk : c.ticker = .checking ∨ c.ticker = .sleeping c.now)
      (hr : .ticker ∈ c.ready) : Awaits c (.due c.now)
  | calling {since : Nat} {request : Option Request} {a : Activity} (hs : c.supervision.isSome)
      (hk : c.ticker = .calling request a) (hn : since ≤ c.now) : Awaits c (.calling since)

structure Steady (c d : Console) : Prop where
  now : d.now = c.now
  settings : d.settings = c.settings
  supervision : d.supervision = c.supervision
  ticker : ∀ a, d.ticker.setActivity a = c.ticker.setActivity a
  ready : .ticker ∈ c.ready → .ticker ∈ d.ready
  timers : ∀ t ∈ c.timers, t.task = .ticker → t ∈ d.timers
  journal : ∃ new, d.journal = new ++ c.journal ∧ beats new = []

def Goes (c d : Console) : Prop :=
  d.settings = c.settings ∧ ∃ new, d.journal = new ++ c.journal ∧
    ∀ p, c.Awaits p → ∃ q, Cadence c.intervalMilliseconds p (beats new) q ∧ d.Awaits q

variable {c d e : Console} {id : TaskId} {a b : Activity} {s : Statement} {w : Wait} {stage : Stage}
  {note : Outcome → Event} {pace : Pace} {more : Bool} {request : Option Request}

theorem Steady.refl (c : Console) : Steady c c :=
  ⟨rfl, rfl, rfl, fun _ => rfl, fun h => h, fun _ h _ => h, [], rfl, rfl⟩

theorem Steady.trans (h : Steady c d) (g : Steady d e) : Steady c e := by
  obtain ⟨new, hj, hb⟩ := h.journal
  obtain ⟨new', hj', hb'⟩ := g.journal
  refine ⟨g.now.trans h.now, g.settings.trans h.settings, g.supervision.trans h.supervision,
    fun a => (g.ticker a).trans (h.ticker a), fun hr => g.ready (h.ready hr),
    fun t ht hk => g.timers t (h.timers t ht hk) hk, new' ++ new, ?_, ?_⟩
  · rw [hj', hj, List.append_assoc]
  · rw [beats_append, hb, hb', List.append_nil]

theorem Steady.aside (hn : d.now = c.now) (hs : d.settings = c.settings)
    (hv : d.supervision = c.supervision) (hk : d.ticker = c.ticker) (ht : d.timers = c.timers)
    (hj : d.journal = c.journal) (hr : .ticker ∈ c.ready → .ticker ∈ d.ready) : Steady c d :=
  ⟨hn, hs, hv, fun _ => by rw [hk], hr, fun _ h _ => by rwa [ht], [], hj, rfl⟩

theorem Steady.record {x : Event} (h : Steady c d) (hx : x.beat? = none) :
    Steady c (d.record x) := by
  refine h.trans ⟨rfl, rfl, rfl, fun _ => rfl, fun h => h, fun _ h _ => h, [⟨d.now, x⟩], rfl, ?_⟩
  simp [beats, Entry.beat?, hx]

theorem Steady.log {x : Diagnostic} (h : Steady c d) (hx : (Event.logged x).beat? = none) :
    Steady c (d.log x) :=
  h.record hx

theorem steady_setActivity (c : Console) (id : TaskId) (a : Activity) :
    Steady c (c.setActivity id a) := by
  cases id with
  | ticker =>
    exact ⟨rfl, rfl, rfl, fun b => c.ticker.setActivity_setActivity a b, fun h => h,
      fun _ h _ => h, [], rfl, rfl⟩
  | _ => exact .aside rfl rfl rfl rfl rfl rfl fun h => h

theorem steady_wakeAll (c : Console) (ids : List TaskId) : Steady c (c.wakeAll ids) :=
  .aside rfl rfl rfl rfl rfl rfl fun h => (c.mem_wakeAll).2 (.inl h)

theorem steady_setTimer (c : Console) (t : Timer) : Steady c (c.setTimer t) := by
  refine ⟨rfl, rfl, rfl, fun _ => rfl, fun h => h, fun x hx _ => ?_, [], rfl, rfl⟩
  rw [← List.takeWhile_append_dropWhile (p := (·.deadline ≤ t.deadline)) (l := c.timers)] at hx
  exact (List.mem_append.1 hx).elim (List.mem_append_left _) fun h =>
    List.mem_append_right _ (List.mem_cons_of_mem _ h)

theorem steady_wakeReceiver (c : Console) : Steady c c.wakeReceiver :=
  .aside rfl rfl rfl rfl rfl rfl mem_wakeReceiver

theorem steady_letGo (c : Console) : Steady c c.letGo :=
  .aside rfl rfl rfl rfl rfl rfl mem_letGo

/-! The printer. -/

theorem steady_hangUp (c : Console) (slot : ReplySlot) : Steady c (c.hangUp slot) := by
  rcases c.hangUp_cases slot with ⟨-, he⟩ | ⟨a, -, -, he⟩ <;> rw [he]
  · exact .refl c
  · exact (c.steady_setActivity slot.asker _).trans (steady_wakeAll _ [slot.asker])

theorem steady_hangUpOn (c : Console) (m : Message) : Steady c (c.hangUpOn m) := by
  cases m with
  | prompt text slot => exact c.steady_hangUp slot
  | _ => exact .refl c

theorem steady_answer (c : Console) (slot : ReplySlot) (line : String) :
    Steady c (c.answer slot line) := by
  rcases c.answer_cases slot line with ⟨-, he⟩ | ⟨a, -, -, he⟩ <;> rw [he]
  · exact (Steady.refl c).log rfl
  · exact (c.steady_setActivity slot.asker _).trans (steady_wakeAll _ [slot.asker])

theorem steady_discardAll (ms : List Message) : ∀ c : Console,
    Steady c (ms.foldl (fun c m => (c.record (.discarded m)).hangUpOn m) c) := by
  induction ms with
  | nil => exact .refl
  | cons m ms ih =>
    intro c
    exact (((Steady.refl c).record rfl).trans (steady_hangUpOn _ m)).trans (ih _)

theorem steady_discard (c : Console) : Steady c c.discard :=
  .trans (d := { c with mailbox := c.mailbox.drain })
    (.aside rfl rfl rfl rfl rfl rfl fun h => h) (steady_discardAll _ _)

theorem steady_closeMailbox (c : Console) : Steady c c.closeMailbox :=
  .trans (d := { c with mailbox := c.mailbox.close })
    (.aside rfl rfl rfl rfl rfl rfl fun h => h) (steady_wakeAll _ _)

theorem steady_terminate (c : Console) : Steady c c.terminate :=
  .trans (d := { c with terminated := true, parked := [] })
    (.aside rfl rfl rfl rfl rfl rfl fun h => h) (steady_wakeAll _ _)

theorem steady_stopPrinter (c : Console) : Steady c c.stopPrinter := by
  have ht := c.steady_closeMailbox.trans (steady_terminate _)
  have hp (d : Console) : Steady d { d with printer := .stopped } :=
    .aside rfl rfl rfl rfl rfl rfl fun h => h
  exact ((ht.trans (hp _)).log rfl).trans (steady_discard _)

theorem steady_crashPrinter (c : Console) (m : Message) : Steady c (c.crashPrinter m) := by
  have hp (d : Console) : Steady d { d with printer := .crashed } :=
    .aside rfl rfl rfl rfl rfl rfl fun h => h
  exact ((c.steady_hangUpOn m).trans (hp _)).trans
    ((steady_closeMailbox _).trans (steady_discard _))

theorem steady_take (c : Console) (t : Mailbox.Taken TaskId) : Steady c (c.take t) := by
  have hm : Steady c { c with mailbox := t.mailbox } := .aside rfl rfl rfl rfl rfl rfl fun h => h
  have hw : Steady c (wakeAll { c with mailbox := t.mailbox } t.woken.toList) :=
    hm.trans (steady_wakeAll _ _)
  exact hw.record (x := .handled t.message) rfl

theorem steady_shown (c : Console) (kind : Kind) (r : Display.Drawn) :
    Steady c (c.shown kind r) := by
  have hd : Steady c { c with display := r.display } :=
    .aside rfl rfl rfl rfl rfl rfl fun h => h
  have hw : Steady c (Console.record { c with display := r.display } (.wrote r.bytes)) :=
    hd.record rfl
  unfold shown
  split
  · exact hw.record rfl
  · exact hw.log rfl

theorem steady_resumeRead (c : Console) (id : TaskId) : Steady c (c.resumeRead id) :=
  .trans (d := { c with reader := (c.reader.resume id).reader })
    (.aside rfl rfl rfl rfl rfl rfl fun h => h) (steady_wakeAll _ _)

theorem PrinterTurn.steady (h : PrinterTurn c d more) : Steady c d := by
  have hr := c.steady_resumeRead .printer
  have hp {d : Console} {p : Printer} (hd : Steady c d) : Steady c { d with printer := p } :=
    hd.trans (.aside rfl rfl rfl rfl rfl rfl fun h => h)
  cases h with
  | gone | idle => exact .refl c
  | deserted | left => exact c.steady_stopPrinter
  | choked => exact (c.steady_take _).trans (steady_crashPrinter _ _)
  | told => exact (c.steady_take _).trans (steady_shown _ _ _)
  | asked => exact hp ((c.steady_take _).trans (steady_shown _ _ _))
  | @exited t r =>
    have hs := (c.steady_take t).trans (steady_shown _ t.message.kind r)
    exact hp ((hs.log rfl).record rfl)
  | pending => exact hr
  | @heard slot line =>
    exact hp ((hr.record rfl).trans (steady_answer _ slot line))
  | @failed slot =>
    exact hp ((((hr.record rfl).log rfl).record rfl).trans (steady_hangUp _ slot))

/-! The watches. -/

theorem steady_offer (c : Console) (r : Request) : Steady c (c.offer r) :=
  .aside rfl rfl rfl rfl rfl rfl fun h => h

theorem steady_endKeywordWatch (c : Console) : Steady c c.endKeywordWatch := by
  refine .trans ?_ (steady_letGo _)
  refine .trans ?_ (steady_wakeAll _ _)
  exact .aside rfl rfl rfl rfl rfl rfl fun h => h

theorem SignalWatchTurn.steady (h : SignalWatchTurn c d more) : Steady c d := by
  have hw (v : SignalWatch) : Steady c { c with signalWatch := v } :=
    .aside rfl rfl rfl rfl rfl rfl fun h => h
  cases h with
  | off | quiet => exact .refl c
  | register | stop => exact hw _
  | disable => exact (hw _).log rfl
  | hear => exact ((hw _).log rfl).trans (steady_offer _ _)

theorem KeywordWatchTurn.steady (h : KeywordWatchTurn c d more) : Steady c d := by
  have hr (result : Except Failure String) :
      Steady c ((c.resumeRead .keywordWatch).record (.read .keywordWatch result)) :=
    (c.steady_resumeRead _).record rfl
  cases h with
  | off => exact .refl c
  | stop => exact c.steady_endKeywordWatch
  | pending => exact c.steady_resumeRead _
  | keyword =>
    exact (((hr _).log rfl).trans (steady_offer _ _)).trans (steady_endKeywordWatch _)
  | other => exact hr _
  | failed =>
    exact (((hr _).log rfl).record rfl).trans (steady_endKeywordWatch _)

/-! What a tempo needs stays there. -/

theorem Steady.ticker_eq (h : Steady c d) (hk : c.ticker.activity? = none) :
    d.ticker = c.ticker := by
  have ht := h.ticker { program := [] }
  cases hc : c.ticker with
  | calling r a => rw [hc] at hk; cases hk
  | _ => rw [hc] at ht; cases hd : d.ticker <;> simp_all [Ticker.setActivity]

theorem Steady.calling (h : Steady c d) (hk : c.ticker = .calling request a) :
    ∃ b, d.ticker = .calling request b := by
  have ht := h.ticker a
  rw [hk] at ht
  cases hd : d.ticker <;> simp_all [Ticker.setActivity]

theorem Steady.awaits {p : Tempo} (h : Steady c d) (hp : c.Awaits p) : d.Awaits p := by
  have hs : c.supervision.isSome → d.supervision.isSome := fun hs => by rwa [h.supervision]
  cases hp with
  | still hv => exact .still (h.supervision.trans hv)
  | asleep hv hk hn hm =>
    have hd := h.ticker_eq (by rw [hk]; rfl)
    exact .asleep (hs hv) (hd.trans hk) (by rwa [h.now]) (h.timers _ hm rfl)
  | roused hv hk hr =>
    have hd := h.ticker_eq (by rcases hk with hk | hk <;> rw [hk] <;> rfl)
    rw [← h.now] at hk ⊢
    exact .roused (hs hv) (by rwa [hd]) (h.ready hr)
  | calling hv hk hn =>
    obtain ⟨b, hd⟩ := h.calling hk
    exact .calling (hs hv) hd (by rwa [h.now])

theorem Steady.goes (h : Steady c d) : Goes c d := by
  obtain ⟨new, hj, hb⟩ := h.journal
  refine ⟨h.settings, new, hj, fun p hp => ⟨p, ?_, h.awaits hp⟩⟩
  rw [hb]
  exact .nil p

theorem intervalMilliseconds_congr (h : d.settings = c.settings) :
    d.intervalMilliseconds = c.intervalMilliseconds := by
  rw [intervalMilliseconds, h, intervalMilliseconds]

theorem Goes.trans (h : Goes c d) (g : Goes d e) : Goes c e := by
  obtain ⟨hs, new, hj, hg⟩ := h
  obtain ⟨hs', new', hj', hg'⟩ := g
  refine ⟨hs'.trans hs, new' ++ new, by rw [hj', hj, List.append_assoc], fun p hp => ?_⟩
  obtain ⟨q, hq, hd⟩ := hg p hp
  obtain ⟨r, hr, he⟩ := hg' q hd
  rw [intervalMilliseconds_congr hs] at hr
  rw [beats_append]
  exact ⟨r, hq.append hr, he⟩

/-! Small steps of statements. -/

def Opens (c d : Console) : Prop :=
  Steady c d ∨ ∃ k interactive, Steady (c.supervise k interactive).1 d

theorem Opens.trans (h : Opens c d) (g : Steady d e) : Opens c e :=
  h.imp (·.trans g) fun ⟨k, interactive, hs⟩ => ⟨k, interactive, hs.trans g⟩

theorem Supervised.goes {k : Nat} {interactive first : Bool}
    (h : Supervised c k interactive d first) : Goes c d := by
  cases h with
  | already => exact ((Steady.refl c).log rfl).goes
  | @started ready hs hr =>
    refine ⟨rfl, [⟨c.now, .logged (.started (c.job k).name c.settings.interval interactive)⟩], rfl,
      fun p hp => ⟨.due c.now, ?_, ?_⟩⟩
    · cases hp with
      | still => exact .start (.nil _)
      | asleep hv | roused hv | calling hv => rw [hs] at hv; cases hv
    · exact .roused rfl (.inl rfl) ((hr .ticker).2 (.inr (.inl rfl)))

theorem Supervised.steady {k : Nat} {interactive first : Bool}
    (h : Supervised c k interactive d first) (hs : c.supervision.isSome) : Steady c d := by
  cases h with
  | already => exact (Steady.refl c).log rfl
  | started hn => rw [hn] at hs; cases hs

theorem Opens.goes (h : Opens c d) : Goes c d := by
  rcases h with h | ⟨k, interactive, h⟩
  · exact h.goes
  · exact (c.supervise_cases k interactive).goes.trans h.goes

theorem Opens.steady (h : Opens c d) (hs : c.supervision.isSome) : Steady c d := by
  rcases h with h | ⟨k, interactive, h⟩
  · exact h
  · exact ((c.supervise_cases k interactive).steady hs).trans h

theorem Deed.opens (h : Deed c id s w d stage) : Opens c d := by
  cases h with
  | still => exact .inl (.refl c)
  | @accept m slots mailbox =>
    have hm : Steady c { c with slots, mailbox } := .aside rfl rfl rfl rfl rfl rfl fun h => h
    have ha : Steady c (Console.record { c with slots, mailbox } (.accepted id m)) := hm.record rfl
    exact .inl (ha.trans (steady_wakeReceiver _))
  | @refuse m slots =>
    have hm : Steady c { c with slots } := .aside rfl rfl rfl rfl rfl rfl fun h => h
    have hr : Steady c (Console.record { c with slots } (.refused id m)) := hm.record rfl
    exact .inl (hr.log rfl)
  | join => exact .inl (.aside rfl rfl rfl rfl rfl rfl fun h => h)
  | park =>
    obtain ⟨parked, he⟩ := c.park_eq id
    rw [he]
    exact .inl (.aside rfl rfl rfl rfl rfl rfl fun h => h)
  | @supervise k interactive => exact .inr ⟨k, interactive, .refl _⟩
  | sleep => exact .inl (c.steady_setTimer _)

theorem Pursuit.opens (h : Pursuit c id a note d pace) (hn : ∀ o, (note o).beat? = none) :
    Opens c d := by
  have hd {s : Statement} {w : Wait} {d : Console} {stage : Stage}
      (he : c.perform id s w = (d, stage)) : Opens c d :=
    (deed_of_perform he).opens
  cases h with
  | ended => exact .inl (.refl c)
  | rested _ he | moved _ he | followed _ he => exact (hd he).trans (steady_setActivity _ _ _)
  | crashed _ he => exact hd he
  | @finished _ _ d o _ he =>
    have hr : Steady d (d.record (note o)) := (Steady.refl d).record (hn o)
    exact ((hd he).trans hr).trans (steady_setActivity _ _ _)

theorem steady_endProducer (c : Console) (n : Nat) : Steady c (c.endProducer n) :=
  .trans (d := { c with producers := c.producers.set n none })
    (.aside rfl rfl rfl rfl rfl rfl fun h => h) (steady_letGo _)

theorem ProducerTurn.goes {n : Nat} (h : ProducerTurn c n d more) : Goes c d := by
  cases h with
  | off => exact (Steady.refl c).goes
  | on _ hd => exact (hd.opens fun _ => rfl).goes
  | quit _ hd => exact ((hd.opens fun _ => rfl).trans (steady_endProducer _ n)).goes

/-! The ticker. -/

theorem journal_beginCall (c : Console) (s : Supervision) : ∃ new,
    (c.beginCall s).journal = new ++ c.journal ∧ beats new = [(c.now, .began c.request)] := by
  unfold beginCall
  cases c.request with
  | none => exact ⟨[_], rfl, rfl⟩
  | some r => exact ⟨[_, _], rfl, rfl⟩

theorem goes_beginCall {s : Supervision} (hs : c.supervision = some s) (hk : c.ticker = .checking) :
    Goes c (c.beginCall s) := by
  obtain ⟨-, hv, ht⟩ := c.beginCall_spec s
  obtain ⟨new, hj, hb⟩ := c.journal_beginCall s
  obtain ⟨request, supervision, ticker, journal, he⟩ := c.beginCall_eq s
  have hn : c.now ≤ (c.beginCall s).now := Nat.le_of_eq (by rw [he])
  refine ⟨by rw [he], new, hj, fun p hp => ⟨.calling c.now, ?_, ?_⟩⟩
  · rw [hb]
    cases hp with
    | still hn => rw [hs] at hn; cases hn
    | asleep _ hn => rw [hk] at hn; cases hn
    | roused => exact .began (.nil _)
    | calling _ hn => rw [hk] at hn; cases hn
  · exact .calling (by rw [hv]; rfl) ht hn

theorem goes_pause {x : Event} (hs : c.supervision.isSome) (hk : c.ticker = .calling request a)
    (hx : x.beat? = some .ended) (h : Steady (c.record x) d) : Goes c d.pause := by
  obtain ⟨new, hj, hb⟩ := h.journal
  have hnow : d.now = c.now := h.now
  have hset : d.settings = c.settings := h.settings
  have hnew : beats (new ++ [⟨c.now, x⟩]) = [(c.now, .ended)] := by
    rw [beats_append, hb]
    simp [beats, Entry.beat?, hx]
  have hpos : 1 ≤ d.intervalMilliseconds := d.settings.one_le_ceilMilliseconds_interval
  refine ⟨hset, new ++ [⟨c.now, x⟩], by rw [List.append_assoc]; exact hj, fun p hp =>
    ⟨.due (c.now + c.intervalMilliseconds), ?_, ?_⟩⟩
  · rw [hnew]
    cases hp with
    | still hn => rw [hn] at hs; cases hs
    | asleep _ hn => rw [hk] at hn; cases hn
    | roused _ hn => rw [hk] at hn; rcases hn with hn | hn <;> cases hn
    | calling _ _ hn => exact .ended hn (.nil _)
  · rw [← hnow, ← intervalMilliseconds_congr hset]
    refine .asleep ?_ rfl ?_ ?_
    · exact (congrArg Option.isSome h.supervision).trans hs
    · exact Nat.lt_add_of_pos_right hpos
    · exact List.mem_append_right _ List.mem_cons_self

theorem steady_recover (c : Console) (s : Supervision) (request : Option Request) :
    Steady c (c.recover s request) := by
  have hl : Steady c (c.log (.callCrashed (c.job s.job).name request.isSome)) :=
    (Steady.refl c).log rfl
  cases request with
  | none => exact hl
  | some r => exact hl.trans (steady_offer _ r)

theorem TickerTurn.goes (h : TickerTurn c d more) (ht : c.terminated = false)
    (hr : .ticker ∈ c.ready) : Goes c d := by
  cases h with
  | off | asleep => exact (Steady.refl c).goes
  | stop _ _ hn => rw [ht] at hn; cases hn
  | call hs hk => exact goes_beginCall hs hk
  | on _ _ _ hd => exact (hd.opens fun _ => rfl).goes
  | ended hs hk _ hd =>
    obtain rfl := hd.stop_eq (.inl rfl)
    exact goes_pause (by rw [hs]; rfl) hk rfl (.refl _)
  | @crashed s request a d hs hk _ hd =>
    obtain rfl := hd.stop_eq (.inr rfl)
    exact goes_pause (by rw [hs]; rfl) hk
      (x := .call s.job request (s.tally.number request) .crashed) rfl (steady_recover _ s request)
  | due hk _ hd =>
    refine ⟨rfl, [], rfl, fun p hp => ⟨p, .nil p, ?_⟩⟩
    cases hp with
    | still hs => exact .still hs
    | asleep _ hn hlt =>
      rw [hk] at hn
      cases hn
      omega
    | roused hs => exact .roused hs (.inl rfl) hr
    | calling _ hn => rw [hk] at hn; cases hn

theorem TickerTurn.rests {p : Tempo} (h : TickerTurn c d more) (hm : more = false)
    (ht : c.terminated = false) (hp : d.Awaits p) :
    Awaits { d with ready := d.ready.erase .ticker } p := by
  have hd (hr : .ticker ∈ d.ready → ¬(d.supervision.isSome ∧
      (d.ticker = .checking ∨ d.ticker = .sleeping d.now))) :
      Awaits { d with ready := d.ready.erase .ticker } p := by
    cases hp with
    | still hs => exact .still hs
    | asleep hs hk hn hm => exact .asleep hs hk hn hm
    | roused hs hk hi => exact absurd ⟨hs, hk⟩ (hr hi)
    | calling hs hk hn => exact .calling hs hk hn
  cases h with
  | off h =>
    refine hd fun _ ⟨hs, hk⟩ => ?_
    rcases h with h | h
    · rw [h] at hs; cases hs
    · rw [h] at hk; rcases hk with hk | hk <;> cases hk
  | stop _ _ hn => rw [ht] at hn; cases hn
  | on hs hk _ hpur =>
    obtain ⟨b, hb⟩ := ((hpur.opens fun _ => rfl).steady (by rw [hs]; rfl)).calling hk
    refine hd fun _ ⟨_, hn⟩ => ?_
    rw [hb] at hn
    rcases hn with hn | hn <;> cases hn
  | asleep hk _ hlt =>
    refine hd fun _ ⟨_, hn⟩ => ?_
    rw [hk] at hn
    rcases hn with hn | hn
    · cases hn
    · cases hn
      omega
  | _ => cases hm

/-! All tasks. -/

theorem turn_goes (ht : c.terminated = false) (hid : id ∈ c.ready) : Goes c (c.turn id).1 := by
  cases id with
  | printer => exact (printerTurn_cases c).steady.goes
  | signalWatch => exact (signalWatchTurn_cases c).steady.goes
  | keywordWatch => exact (keywordWatchTurn_cases c).steady.goes
  | ticker => exact (tickerTurn_cases c).goes ht hid
  | producer n => exact (producerTurn_cases c n).goes

theorem step_goes (ht : c.terminated = false) (hid : id ∈ c.ready) : Goes c (c.step id) := by
  have hg := turn_goes ht hid
  unfold step
  dsimp only
  split
  · exact hg
  · rename_i hm
    have hm : (c.turn id).2 = false := by simpa using hm
    by_cases hi : id = .ticker
    · subst hi
      obtain ⟨hs, new, hj, hp⟩ := hg
      refine ⟨hs, new, hj, fun p h => ?_⟩
      obtain ⟨q, hq, hd⟩ := hp p h
      exact ⟨q, hq, (tickerTurn_cases c).rests hm ht hd⟩
    · have hr : Steady (c.turn id).1 { (c.turn id).1 with ready := (c.turn id).1.ready.erase id } :=
        .aside rfl rfl rfl rfl rfl rfl (List.mem_erase_of_ne (Ne.symm hi)).2
      exact hg.trans hr.goes

end Console

end JobConsole
