import JobConsole.Proofs.Aftermath
import JobConsole.Proofs.Finality
import JobConsole.Proofs.Intake

namespace JobConsole

def Event.isOwn : Event → Bool
  | read i _ | ending i _ => i = .printer
  | e => e.isPrinters

/-- Requests to end that are not the printer's come with a failed read of the keyword watch. -/
def Justified (es : List Event) : Prop :=
  ∀ i ending, .ending i ending ∈ es → i ≠ .printer →
    ∃ failure, ending = .abort failure ∧ .read .keywordWatch (.error failure) ∈ es

theorem Justified.append {es news : List Event} (h : Justified es)
    (hn : ∀ i ending, .ending i ending ∈ news → i ≠ .printer →
      ∃ failure, ending = .abort failure ∧ .read .keywordWatch (.error failure) ∈ news) :
    Justified (es ++ news) := by
  intro i ending he hi
  rcases List.mem_append.1 he with he | he
  · obtain ⟨failure, hf, hr⟩ := h i ending he hi
    exact ⟨failure, hf, List.mem_append_left _ hr⟩
  · obtain ⟨failure, hf, hr⟩ := hn i ending he hi
    exact ⟨failure, hf, List.mem_append_right _ hr⟩

namespace Console

variable {c d : Console} {id : TaskId} {more : Bool} {m : Move}

def endings (c : Console) : List Ending :=
  c.events.filterMap Event.ending?

/-! The printer. -/

theorem own_drawn (c : Console) (t : Mailbox.Taken TaskId) (r : Display.Drawn) :
    Adds Event.isOwn c ((c.take t).shown t.message.kind r) := by
  have ht : Adds Event.isOwn c (c.take t) :=
    .record (d := wakeAll { c with mailbox := t.mailbox } t.woken.toList) (.same rfl) rfl
  have hw : Adds Event.isOwn (c.take t)
      (Console.record { c.take t with display := r.display } (.wrote r.bytes)) :=
    .record (.same rfl) rfl
  apply ht.trans
  unfold shown
  split
  · exact hw.record rfl
  · exact hw.record (x := .logged _) rfl

theorem own_discarded {ms : List Message} {e : Event} (h : e ∈ ms.map Event.discarded) :
    e.isOwn := by
  obtain ⟨m, -, rfl⟩ := List.mem_map.1 h
  rfl

theorem own_stopPrinter (c : Console) : Adds Event.isOwn c c.stopPrinter := by
  refine ⟨.logged .printerStopped :: c.mailbox.items.map Event.discarded, ?_, fun e he => ?_⟩
  · rw [events_stopPrinter, List.append_assoc, List.singleton_append]
  · rcases List.mem_cons.1 he with rfl | he
    · rfl
    · exact own_discarded he

theorem PrinterTurn.own (h : PrinterTurn c d more) : Adds Event.isOwn c d := by
  have hread (result : Except Failure String) :
      Adds Event.isOwn c ((c.resumeRead .printer).record (.read .printer result)) :=
    .record (.same rfl) rfl
  cases h with
  | gone => exact .same rfl
  | idle => exact .same rfl
  | pending => exact .same rfl
  | deserted => exact own_stopPrinter c
  | left => exact own_stopPrinter c
  | @choked t =>
    have ht : Adds Event.isOwn c (c.take t) :=
      .record (d := wakeAll { c with mailbox := t.mailbox } t.woken.toList) (.same rfl) rfl
    exact ht.trans ⟨_, events_crashPrinter (c.take t) t.message, fun e => own_discarded⟩
  | @told t r => exact own_drawn c t r
  | @asked t r => exact own_drawn c t r
  | @exited t r code =>
    have hl := (own_drawn c t r).record (x := .logged (.exiting code)) rfl
    exact hl.record (x := .ending .printer (.exit code)) rfl
  | @heard slot line =>
    rcases ((c.resumeRead .printer).record (.read .printer (.ok line))).answer_eq slot line with
      ⟨producers, ticker, ready, he⟩ | he <;> rw [he]
    · exact (hread _).trans (.same rfl)
    · exact (hread _).record (x := .logged .askerGone) rfl
  | @failed slot failure =>
    have hl := ((hread (.error failure)).record (x := .logged (.answerFailed failure)) rfl).record
      (x := .ending .printer (.abort failure)) rfl
    obtain ⟨producers, ticker, ready, he⟩ :=
      ((((c.resumeRead .printer).record (.read .printer (.error failure))).log
        (.answerFailed failure)).record (.ending .printer (.abort failure))).hangUp_eq slot
    rw [he]
    exact hl.trans (.same rfl)

/-! Who asks the process to end. -/

theorem justified_of_own (h : Justified c.events) (hd : Adds Event.isOwn c d) :
    Justified d.events := by
  obtain ⟨news, he, hn⟩ := hd
  rw [he]
  refine h.append fun i ending hi hp => ?_
  have hi := hn _ hi
  simp only [Event.isOwn, decide_eq_true_eq] at hi
  exact absurd hi hp

theorem justified_of_peaceful (h : Justified c.events) (hd : Adds (fun e => e.ending?.isNone) c d) :
    Justified d.events := by
  obtain ⟨news, he, hn⟩ := hd
  rw [he]
  refine h.append fun i ending hi _ => ?_
  have hi := hn _ hi
  cases hi

theorem KeywordWatchTurn.justified (h : KeywordWatchTurn c d more) (hc : Justified c.events) :
    Justified d.events := by
  have hr (result : Except Failure String) : ((c.resumeRead .keywordWatch).record
      (.read .keywordWatch result)).events = c.events ++ [.read .keywordWatch result] :=
    events_record _ _
  cases h with
  | off => exact hc
  | stop => exact hc
  | pending => exact hc
  | @keyword line =>
    have he : ((((c.resumeRead .keywordWatch).record (.read .keywordWatch (.ok line))).log
        .keywordReceived)).events =
          c.events ++ ([.read .keywordWatch (.ok line)] ++ [.logged .keywordReceived]) := by
      rw [events_log, hr, List.append_assoc]
    exact he ▸ hc.append fun i ending hi => by simp at hi
  | @other line =>
    rw [hr]
    exact hc.append fun i ending hi => by simp at hi
  | @failed failure =>
    have he : ((((c.resumeRead .keywordWatch).record (.read .keywordWatch (.error failure))).log
        (.watchFailed failure)).record (.ending .keywordWatch (.abort failure))).events =
          c.events ++ ([.read .keywordWatch (.error failure)] ++ [.logged (.watchFailed failure)] ++
            [.ending .keywordWatch (.abort failure)]) := by
      rw [events_record, events_log, hr]
      simp only [List.append_assoc]
    refine he ▸ hc.append fun i ending hi _ => ⟨failure, ?_, by simp⟩
    simp at hi
    exact hi.2

theorem peaceful_of_isLogged {e : Event} (h : e.isLogged) : e.ending?.isNone := by
  cases e <;> first | rfl | cases h

theorem peaceful_of_isTasks {e : Event} (h : e.isTasks) : e.ending?.isNone := by
  cases e <;> first | rfl | cases h

theorem turn_justified (hc : Justified c.events) (id : TaskId) :
    Justified (c.turn id).1.events := by
  cases id with
  | printer => exact justified_of_own hc (printerTurn_cases c).own
  | signalWatch =>
    exact justified_of_peaceful hc
      ((signalWatchTurn_cases c).logs.mono fun _ => peaceful_of_isLogged)
  | keywordWatch => exact (keywordWatchTurn_cases c).justified hc
  | ticker =>
    exact justified_of_peaceful hc ((tickerTurn_cases c).adds.mono fun _ => peaceful_of_isTasks)
  | producer n =>
    exact justified_of_peaceful hc ((producerTurn_cases c n).adds.mono fun _ => peaceful_of_isTasks)

theorem work_justified (hc : Justified c.events) (id : TaskId) : Justified (c.work id).events := by
  rcases c.work_cases id with ⟨s, request, a, -, -, -, he⟩ | ⟨-, he⟩ <;> rw [he]
  · exact justified_of_peaceful hc
      ((callTurn_cases c s request a).adds.mono fun _ => peaceful_of_isTasks)
  · exact turn_justified (c := { c with terminated := false }) hc id

theorem act_justified (hc : Justified c.events) (m : Move) : Justified (c.act m).events := by
  cases m with
  | step id =>
    obtain ⟨ready, he⟩ := c.turn_eq_step id
    rw [act, he]
    exact turn_justified hc id
  | kill n =>
    rw [act, kill]
    split <;> exact hc
  | raise s =>
    rw [act, raise]
    split <;> exact hc
  | setSink s => exact justified_of_peaceful hc (.record (.same rfl) rfl)
  | start k interactive =>
    have hs := (c.supervise_cases k interactive).adds.mono (q := fun e => e.ending?.isNone)
      fun e he => by cases e <;> first | rfl | cases he
    exact justified_of_peaceful hc (hs.record rfl)
  | _ => exact hc

theorem Attainable.justified (h : c.Attainable) : Justified c.events := by
  refine h.invariant (P := fun c => Justified c.events) (fun h₀ => ?_)
    (fun c m _ _ hc => act_justified hc m) fun c id _ _ _ _ hc => work_justified hc id
  obtain ⟨-, rfl⟩ := new?_eq_some.1 h₀
  intro i ending he
  cases he

/-! One end. -/

structure EndsOnce (c : Console) : Prop where
  once : c.endings.length ≤ 1
  silent : ∀ older id ending newer, c.events = older ++ .ending id ending :: newer →
    newer.flatMap Event.bytes = []
  /-- The console has terminated, or does so when the printer takes its turn, which is ready to. -/
  terminates : c.endings ≠ [] → c.terminated = true ∨
    c.printer = .leaving ∧ .printer ∈ c.ready ∧ (c.step .printer).terminated = true

theorem endings_eq_farewells (h : ∀ i ending, .ending i ending ∈ c.events → i = .printer) :
    c.endings = c.farewells := by
  apply List.filterMap_congr
  intro e he
  cases e with
  | ending i e =>
    obtain rfl := h i e he
    rfl
  | _ => rfl

theorem mem_events_of_mem_reads {result : Except Failure String}
    (h : .read id result ∈ c.events) : (id, result) ∈ c.reads :=
  List.mem_filterMap.2 ⟨_, h, rfl⟩

theorem terminated_step (hp : c.printer = .leaving) : (c.step .printer).terminated = true := by
  obtain ⟨ready, he⟩ := c.turn_eq_step .printer
  obtain ⟨producers, ticker, ready', hs⟩ := c.stopPrinter_eq
  rw [he, turn, printerTurn, hp, hs]

theorem Attainable.parting (h : c.Attainable) (hf : c.farewells ≠ []) :
    c.terminated = true ∨
      c.printer = .leaving ∧ .printer ∈ c.ready ∧ (c.step .printer).terminated = true := by
  have hd : c.farewells = c.duties.filterMap Event.farewell? := (filterMap_farewell _).symm
  cases h.diary.ends with
  | «open» hn => exact absurd (hd.trans hn) hf
  | closed _ _ _ hp =>
    rcases hp with hp | hp
    · have hr := (h.coheres (by simp [hp])).leaving hp
      exact .inr ⟨hp, hr, terminated_step hp⟩
    · exact .inl (h.staged.terminated_iff.2 hp)

theorem endsOnce_of_unalarmed (h : c.Attainable)
    (hw : ∀ failure, (.keywordWatch, .error failure) ∉ c.reads) : EndsOnce c := by
  have howner (i : TaskId) (ending : Ending) (he : .ending i ending ∈ c.events) : i = .printer := by
    by_contra hi
    obtain ⟨failure, -, hr⟩ := h.justified i ending he hi
    exact hw failure (mem_events_of_mem_reads hr)
  have heq := endings_eq_farewells howner
  constructor
  case once =>
    have hf : c.farewells = c.duties.filterMap Event.farewell? := (filterMap_farewell _).symm
    rw [heq, hf]
    cases h.diary.ends with
    | «open» hn => simp [hn]
    | closed he hn => simp [he, hn, Event.farewell?]
  case silent =>
    intro older i ending newer he
    obtain rfl := howner i ending (by simp [he])
    exact (silent_of_idle (h.diary.farewell (duties_farewell he)).1).2
  case terminates =>
    rw [heq]
    exact h.parting

def hangup : List Move :=
  [.spawn [.start 0 false], .spawn [.prompt "?", .info "late"], .step (.producer 0),
    .feed (.bytes [99, 97, 110, 99, 101, 108, 10]), .step .keywordWatch, .step (.producer 1),
    .close, .step .printer, .step .printer, .step (.producer 1)]

theorem endsOnce_of_hangup : ∃ c₀, new? {} [] {} {} = some c₀ ∧
    (c₀.play hangup).reads = [(.keywordWatch, .ok "cancel"), (.printer, .error .inputClosed)] ∧
      (c₀.play hangup).endings = [.abort .inputClosed] ∧ EndsOnce (c₀.play hangup) := by
  refine ⟨_, rfl, by rfl, by rfl, ?_⟩
  have hr : Reachable (play _ hangup) := ⟨{}, [], {}, {}, _, hangup, rfl, .of_legal (by decide)⟩
  refine endsOnce_of_unalarmed hr.attainable fun failure hm => ?_
  change (TaskId.keywordWatch, Except.error failure) ∈
    [(TaskId.keywordWatch, Except.ok "cancel"), (.printer, .error .inputClosed)] at hm
  simp at hm

def alarm : List Move :=
  [.spawn [.start 0 false], .step (.producer 0), .step (.producer 0), .step .keywordWatch,
    .step .ticker, .step .ticker, .step .ticker, .spawn [.info "late"], .step (.producer 1),
    .step (.producer 1), .step .printer, .step .printer]

def relapse : List Move :=
  [.spawn [.prompt "again?"], .step (.producer 2), .step .printer, .step .printer]

/-- A failed read of the keyword watch ends nothing: a text is drawn behind it, the console is not
terminated with nobody left to run, and a later prompt asks the process to end once more. -/
theorem alarm_ends_nothing : ∃ c₀ c d : Console,
    new? { watchSignals := false } [] { closed := true } {} = some c₀ ∧ Run c₀ alarm c ∧
      c.endings = [.abort .inputClosed] ∧ c.ready = [] ∧ c.terminated = false ∧
        (c.events.dropWhile (·.ending?.isNone)).flatMap Event.bytes = [108, 97, 116, 101, 10] ∧
          Run c relapse d ∧ d.endings = [.abort .inputClosed, .abort .inputClosed] ∧
            ¬EndsOnce c ∧ ¬EndsOnce d := by
  refine ⟨_, play _ alarm, play _ relapse, rfl, .of_legal (by decide), rfl, rfl, rfl, ?_,
    .of_legal (by decide), rfl, fun h => ?_, fun h => absurd h.once (by decide)⟩
  · decide +kernel
  · have ht := h.terminates (by decide)
    revert ht
    decide

end Console

end JobConsole
