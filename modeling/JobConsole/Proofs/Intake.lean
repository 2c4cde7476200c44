import JobConsole.Proofs.Portions
import JobConsole.Proofs.Quiescence

namespace JobConsole

def Event.read? : Event → Option (TaskId × Except Failure String)
  | .read id result => some (id, result)
  | _ => none

def Move.items : Move → List Item
  | .feed piece => piece.items
  | _ => []

def fed (moves : List Move) : List Item :=
  moves.flatMap Move.items

theorem fed_concat (moves : List Move) (m : Move) : fed (moves ++ [m]) = fed moves ++ m.items := by
  simp [fed]

def Move.isIntake : Move → Bool
  | .step id => id = .printer || id = .keywordWatch
  | .feed _ | .close => true
  | _ => false

namespace Console

variable {c d : Console} {id : TaskId} {more : Bool} {m : Move}

def reads (c : Console) : List (TaskId × Except Failure String) :=
  c.events.filterMap Event.read?

theorem reads_record {e : Event} (h : e.read? = none) : (c.record e).reads = c.reads := by
  simp [reads, List.filterMap_append, h]

theorem reads_read (c : Console) (id : TaskId) (result : Except Failure String) :
    (c.record (.read id result)).reads = c.reads ++ [(id, result)] := by
  simp [reads, Event.read?]

theorem Adds.reads (h : Adds (fun e => e.read?.isNone) c d) : d.reads = c.reads := by
  obtain ⟨news, he, hn⟩ := h
  have hf : news.filterMap Event.read? = [] :=
    List.filterMap_eq_nil_iff.2 fun e he => Option.isNone_iff_eq_none.1 (hn e he)
  rw [Console.reads, he, List.filterMap_append, hf, List.append_nil, Console.reads]

/-! Beside the readers. -/

theorem Deed.reader_eq {s : Statement} {w : Wait} {stage : Stage} (h : Deed c id s w d stage) :
    d.reader = c.reader := by
  cases h with
  | park =>
    obtain ⟨parked, he⟩ := c.park_eq id
    rw [he]
  | @supervise k interactive =>
    have hs := c.supervise_cases k interactive
    generalize (c.supervise k interactive).1 = d, (c.supervise k interactive).2 = first at hs ⊢
    cases hs <;> rfl
  | _ => rfl

theorem reader_setActivity (c : Console) (id : TaskId) (a : Activity) :
    (c.setActivity id a).reader = c.reader := by
  cases id <;> rfl

theorem Pursuit.reader_eq {a : Activity} {note : Outcome → Event} {pace : Pace}
    (h : Pursuit c id a note d pace) : d.reader = c.reader := by
  cases h with
  | ended => rfl
  | crashed hp he => exact (deed_of_perform he).reader_eq
  | rested hp he => exact (reader_setActivity _ _ _).trans (deed_of_perform he).reader_eq
  | moved hp he => exact (reader_setActivity _ _ _).trans (deed_of_perform he).reader_eq
  | followed hp he => exact (reader_setActivity _ _ _).trans (deed_of_perform he).reader_eq
  | finished hp he => exact (reader_setActivity _ _ _).trans (deed_of_perform he).reader_eq

theorem ProducerTurn.reader_eq {n : Nat} (h : ProducerTurn c n d more) : d.reader = c.reader := by
  cases h with
  | off => rfl
  | on _ hd => exact hd.reader_eq
  | quit _ hd => exact hd.reader_eq

theorem TickerTurn.reader_eq (h : TickerTurn c d more) : d.reader = c.reader := by
  cases h with
  | @call s =>
    obtain ⟨request, supervision, ticker, journal, he⟩ := c.beginCall_eq s
    rw [he]
  | on _ _ _ hd => exact hd.reader_eq
  | ended _ _ _ hd => exact hd.reader_eq
  | @crashed s request a d _ _ _ hd => cases request <;> exact hd.reader_eq
  | _ => rfl

theorem SignalWatchTurn.reader_eq (h : SignalWatchTurn c d more) : d.reader = c.reader := by
  cases h <;> rfl

theorem SignalWatchTurn.reads_eq (h : SignalWatchTurn c d more) : d.reads = c.reads := by
  cases h with
  | disable => exact reads_record rfl
  | hear => exact reads_record rfl
  | _ => rfl

theorem isNone_of_isTasks {e : Event} (h : e.isTasks) : e.read?.isNone := by
  cases e <;> first | rfl | cases h

theorem turn_apart (hp : id ≠ .printer) (hk : id ≠ .keywordWatch) :
    (c.turn id).1.reader = c.reader ∧ (c.turn id).1.reads = c.reads := by
  cases id with
  | printer => exact absurd rfl hp
  | keywordWatch => exact absurd rfl hk
  | signalWatch => exact ⟨(signalWatchTurn_cases c).reader_eq, (signalWatchTurn_cases c).reads_eq⟩
  | ticker =>
    have ht := tickerTurn_cases c
    exact ⟨ht.reader_eq, (ht.adds.mono fun _ => isNone_of_isTasks).reads⟩
  | producer n =>
    have ht := producerTurn_cases c n
    exact ⟨ht.reader_eq, (ht.adds.mono fun _ => isNone_of_isTasks).reads⟩

theorem act_apart (c : Console) (h : m.isIntake = false) :
    (c.act m).reader = c.reader ∧ (c.act m).reads = c.reads := by
  cases m with
  | step id =>
    simp only [Move.isIntake, Bool.or_eq_false_iff, decide_eq_false_iff_not] at h
    have ht : (c.turn id).1.reader = c.reader ∧ (c.turn id).1.reads = c.reads := turn_apart h.1 h.2
    obtain ⟨ready, he⟩ := c.turn_eq_step id
    rw [act, he]
    exact ht
  | feed => cases h
  | close => cases h
  | kill n =>
    rw [act, kill]
    split <;> exact ⟨rfl, rfl⟩
  | raise s =>
    rw [act, raise]
    split <;> exact ⟨rfl, rfl⟩
  | setSink s => exact ⟨rfl, reads_record rfl⟩
  | start k interactive =>
    have hs := c.supervise_cases k interactive
    have ha := hs.adds.mono (q := fun e => e.read?.isNone) fun e he => by
      cases e <;> first | rfl | cases he
    refine ⟨?_, (reads_record rfl).trans ha.reads⟩
    change (c.supervise k interactive).1.reader = c.reader
    generalize (c.supervise k interactive).1 = d, (c.supervise k interactive).2 = first at hs ⊢
    cases hs <;> rfl
  | _ => exact ⟨rfl, rfl⟩

/-! The readers. -/

inductive Draws (c : Console) (id : TaskId) (d : Console) : Prop
  | rested (hp : d.printer = c.printer) (ho : d.reader.owner = some (c.reader.owner.getD id))
      (hw : ∀ i ∈ c.reader.waiting, i ∈ d.reader.waiting)
      (hi : c.reader.owner.getD id = id ∨ id ∈ d.reader.waiting)
      (hu : d.reader.unread = c.reader.unread) (hr : d.reads = c.reads)
  | read {result : Except Failure String} (hs : (c.reader.resume id).result = some result)
      (hc : c.reader.owner = none ∨ c.reader.owner = some id)
      (ho : d.reader.owner = c.reader.waiting.head?)
      (hl : Portion c.reader.source.closed c.reader.unread result d.reader.unread)
      (hr : d.reads = c.reads ++ [(id, result)])

theorem Draws.step (h : Draws c id (c.turn id).1) : Draws c id (c.step id) := by
  obtain ⟨ready, he⟩ := c.turn_eq_step id
  rw [he]
  cases h with
  | rested hp ho hw hi hu hr => exact .rested hp ho hw hi hu hr
  | read hs hc ho hl hr => exact .read hs hc ho hl hr

theorem draws_resumeRead (hc : c.reader.Clean) (hn : (c.reader.resume id).result = none) :
    Draws c id (c.resumeRead id) := by
  obtain ⟨ho, hw, hi⟩ := LineReader.rest_line hn
  refine .rested rfl ho hw hi ?_ rfl
  cases LineReader.resume_takes hc id with
  | done hs => rw [hn] at hs; cases hs
  | rested _ hu => exact hu

theorem draws_read {result : Except Failure String} (hc : c.reader.Clean)
    (hs : (c.reader.resume id).result = some result)
    (ho : d.reader.owner = (c.reader.resume id).reader.owner)
    (hu : d.reader.unread = (c.reader.resume id).reader.unread)
    (hr : d.reads = c.reads ++ [(id, result)]) : Draws c id d := by
  obtain ⟨hown, hline⟩ := LineReader.done_line hs
  refine .read hs hown (ho.trans hline) ?_ hr
  rw [hu]
  cases LineReader.resume_takes hc id with
  | done hs' hl => rw [hs] at hs'; cases hs'; exact hl
  | rested hn => rw [hs] at hn; cases hn

theorem KeywordWatchTurn.draws (h : KeywordWatchTurn c d more) (ht : c.terminated = false)
    (hf : c.reader.Fair) (hc : c.reader.Clean) :
    d.reader = c.reader ∧ d.reads = c.reads ∨ Draws c .keywordWatch d := by
  have hr (result : Except Failure String) : ((c.resumeRead .keywordWatch).record
      (.read .keywordWatch result)).reads = c.reads ++ [(.keywordWatch, result)] :=
    reads_read _ _ _
  -- The lock that the watch gives up when it ends is not its own any more.
  have hend {result : Except Failure String} {e : Console}
      (hs : (c.reader.resume .keywordWatch).result = some result)
      (he : e.reader = (c.reader.resume .keywordWatch).reader)
      (hd : e.reads = c.reads ++ [(.keywordWatch, result)]) :
      Draws c .keywordWatch e.endKeywordWatch := by
    have hn : e.reader.owner ≠ some .keywordWatch := he ▸ hf.owner_ne hs
    apply draws_read hc hs
    · rw [← he]
      change (e.reader.abandon .keywordWatch).1.owner = e.reader.owner
      rw [LineReader.abandon, if_neg hn]
    · rw [← he]
      exact LineReader.unread_abandon hn
    · exact hd
  cases h with
  | off => exact .inl ⟨rfl, rfl⟩
  | stop _ ht' => rw [ht] at ht'; cases ht'
  | pending _ _ hn => exact .inr (draws_resumeRead hc hn)
  | keyword _ _ hs => exact .inr (hend hs rfl ((reads_record rfl).trans (hr _)))
  | other _ _ hs => exact .inr (draws_read hc hs rfl rfl (hr _))
  | failed _ _ hs =>
    exact .inr (hend hs rfl (((reads_record rfl).trans (reads_record rfl)).trans (hr _)))

theorem ReadingTurn.reader_eq {slot : ReplySlot} (h : ReadingTurn c slot d) :
    d.reader = (c.reader.resume .printer).reader := by
  cases h with
  | pending => rfl
  | @heard line =>
    obtain ⟨producers, ticker, ready, journal, he⟩ :=
      ((c.resumeRead .printer).record (.read .printer (.ok line))).answer_fields slot line
    rw [he]
    rfl
  | @failed failure =>
    obtain ⟨producers, ticker, ready, he⟩ :=
      ((((c.resumeRead .printer).record (.read .printer (.error failure))).log
        (.answerFailed failure)).record (.ending .printer (.abort failure))).hangUp_eq slot
    rw [he]
    rfl

theorem ReadingTurn.reads_eq {slot : ReplySlot} {result : Except Failure String}
    (h : ReadingTurn c slot d) (hs : (c.reader.resume .printer).result = some result) :
    d.reads = c.reads ++ [(.printer, result)] := by
  have hr (result : Except Failure String) : ((c.resumeRead .printer).record
      (.read .printer result)).reads = c.reads ++ [(.printer, result)] :=
    reads_read _ _ _
  cases h with
  | pending hn => rw [hs] at hn; cases hn
  | @heard line hs' =>
    rw [hs] at hs'
    cases hs'
    rcases ((c.resumeRead .printer).record (.read .printer (.ok line))).answer_eq slot line with
      ⟨producers, ticker, ready, he⟩ | he <;> rw [he]
    · exact hr _
    · exact (reads_record rfl).trans (hr _)
  | @failed failure hs' =>
    rw [hs] at hs'
    cases hs'
    obtain ⟨producers, ticker, ready, he⟩ :=
      ((((c.resumeRead .printer).record (.read .printer (.error failure))).log
        (.answerFailed failure)).record (.ending .printer (.abort failure))).hangUp_eq slot
    rw [he]
    exact ((reads_record rfl).trans (reads_record rfl)).trans (hr _)

theorem PrinterTurn.draws {slot : ReplySlot} (h : PrinterTurn c d more)
    (hp : c.printer = .reading slot) (hc : c.reader.Clean) : Draws c .printer d := by
  have ht := h.reading hp
  cases hs : (c.reader.resume .printer).result with
  | some result =>
    exact draws_read hc hs (by rw [ht.reader_eq]) (by rw [ht.reader_eq]) (ht.reads_eq hs)
  | none =>
    cases ht with
    | pending => exact draws_resumeRead hc hs
    | heard hs' | failed hs' => rw [hs] at hs'; cases hs'

theorem reads_shown (c : Console) (kind : Kind) (r : Display.Drawn) :
    (c.shown kind r).reads = c.reads := by
  have hw : (Console.record { c with display := r.display } (.wrote r.bytes)).reads = c.reads :=
    reads_record rfl
  unfold shown
  split
  · exact (reads_record rfl).trans hw
  · exact (reads_record rfl).trans hw

theorem reads_discarded (c : Console) (ms : List Message) {es : List Event}
    (he : d.events = c.events ++ es ++ ms.map Event.discarded)
    (hn : es.filterMap Event.read? = []) :
    d.reads = c.reads := by
  have hd : (ms.map Event.discarded).filterMap Event.read? = [] := by
    simp [List.filterMap_map, Function.comp_def, Event.read?]
  rw [reads, he, List.filterMap_append, List.filterMap_append, hn, hd, List.append_nil,
    List.append_nil, reads]

theorem PrinterTurn.apart (h : PrinterTurn c d more) (hp : ∀ slot, c.printer ≠ .reading slot) :
    d.reader = c.reader ∧ d.reads = c.reads := by
  have hstop : c.stopPrinter.reader = c.reader ∧ c.stopPrinter.reads = c.reads := by
    refine ⟨?_, reads_discarded c _ c.events_stopPrinter rfl⟩
    obtain ⟨producers, ticker, ready, he⟩ := c.stopPrinter_eq
    rw [he]
  have hshown (t : Mailbox.Taken TaskId) (r : Display.Drawn) :
      ((c.take t).shown t.message.kind r).reader = c.reader ∧
        ((c.take t).shown t.message.kind r).reads = c.reads := by
    refine ⟨?_, (reads_shown _ _ _).trans (reads_record rfl)⟩
    obtain ⟨display, journal, he⟩ := (c.take t).shown_eq t.message.kind r
    rw [he]
    rfl
  cases h with
  | gone | idle => exact ⟨rfl, rfl⟩
  | deserted | left => exact hstop
  | @choked t =>
    have he : ((c.take t).crashPrinter t.message).events =
        (c.take t).events ++ [] ++ (c.take t).mailbox.items.map Event.discarded := by
      rw [events_crashPrinter, List.append_nil]
    refine ⟨?_, (reads_discarded _ _ he rfl).trans (reads_record rfl)⟩
    obtain ⟨producers, ticker, ready, he⟩ := (c.take t).crashPrinter_eq t.message
    rw [he]
    rfl
  | @told t r => exact hshown t r
  | @asked t r => exact hshown t r
  | @exited t r =>
    obtain ⟨hr, hs⟩ := hshown t r
    exact ⟨hr, ((reads_record rfl).trans (reads_record rfl)).trans hs⟩
  | pending h | heard h | failed h => exact absurd h (hp _)

/-! What the reads keep. -/

theorem PrinterTurn.reader_eq (h : PrinterTurn c d more) :
    d.reader = c.reader ∨ d.reader = (c.reader.resume .printer).reader := by
  by_cases hp : ∃ slot, c.printer = .reading slot
  · obtain ⟨slot, hp⟩ := hp
    exact .inr (h.reading hp).reader_eq
  · exact .inl (h.apart (not_exists.1 hp)).1

/-- A property of the reader that the reads keep is kept by all moves. -/
theorem KeywordWatchTurn.keeps {P : LineReader TaskId → Prop} (h : KeywordWatchTurn c d more)
    (hr : ∀ r, P r → P (r.resume .keywordWatch).reader)
    (ha : ∀ r, P r → P (r.abandon .keywordWatch).1) (hc : P c.reader) : P d.reader := by
  have hread := hr c.reader hc
  cases h with
  | off => exact hc
  | stop => exact ha _ hc
  | pending => exact hread
  | keyword => exact ha _ hread
  | other => exact hread
  | failed => exact ha _ hread

theorem act_keeps {P : LineReader TaskId → Prop} (m : Move)
    (hs : ∀ r source, P r → P { r with source })
    (hr : ∀ r id, m = .step id → P r → P (r.resume id).reader)
    (ha : ∀ r id, P r → P (r.abandon id).1) (hc : P c.reader) : P (c.act m).reader := by
  by_cases hm : m.isIntake = false
  · rw [(c.act_apart hm).1]
    exact hc
  · cases m with
    | step id =>
      have ht : P (c.turn id).1.reader := by
        cases id with
        | printer =>
          have hp : P c.printerTurn.1.reader := by
            rcases (printerTurn_cases c).reader_eq with he | he <;> rw [he]
            · exact hc
            · exact hr _ _ rfl hc
          exact hp
        | keywordWatch =>
          exact (keywordWatchTurn_cases c).keeps (fun r => hr r _ rfl) (fun r => ha r _) hc
        | _ => exact absurd rfl hm
      obtain ⟨ready, he⟩ := c.turn_eq_step id
      rw [act, he]
      exact ht
    | feed => exact hs _ _ hc
    | close => exact hs _ _ hc
    | _ => exact absurd rfl hm

theorem clean_act (m : Move) (h : c.reader.Clean) : (c.act m).reader.Clean :=
  act_keeps m (fun _ _ h => h) (fun _ id _ h => h.resume id) (fun _ id h => h.abandon id) h

theorem fair_act (m : Move) (h : c.reader.Fair) : (c.act m).reader.Fair :=
  act_keeps m (fun _ _ h => ⟨h.distinct, h.taken⟩) (fun _ id _ h => h.resume id)
    (fun _ id h => h.abandon id) h

theorem new_clean_fair {settings : Settings} {jobs : List Job} {source : Source} {sink : Sink}
    (h : new? settings jobs source sink = some c) : c.reader.Clean ∧ c.reader.Fair := by
  obtain ⟨-, rfl⟩ := new?_eq_some.1 h
  exact ⟨List.not_mem_nil, List.nodup_nil, fun _ => rfl⟩

theorem Reachable.clean (h : c.Reachable) : c.reader.Clean :=
  h.invariant (P := fun c => c.reader.Clean) (fun h₀ => (new_clean_fair h₀).1)
    fun _ m _ _ hc => clean_act m hc

theorem Reachable.fair (h : c.Reachable) : c.reader.Fair :=
  h.invariant (P := fun c => c.reader.Fair) (fun h₀ => (new_clean_fair h₀).2)
    fun _ m _ _ hc => fair_act m hc

end Console

end JobConsole
