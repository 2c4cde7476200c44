import JobConsole.Proofs.Clients
import JobConsole.Proofs.Overflow
import JobConsole.Proofs.Ties

namespace JobConsole

theorem Message.code?_eq_none {m : Message} {slot : ReplySlot} (h : m.slot? = some slot) :
    m.code? = none := by
  cases m with
  | exit text code => cases h
  | _ => rfl

theorem Tells.mono {slots : List ReplySlot} {w : Wait} {here here' : TaskId → Prop}
    {st st' : TaskId → Standing} (h : Tells slots w here st st')
    (hh : ∀ j a, st j = .busy a → here j → here' j) : Tells slots w here' st st' := by
  refine ⟨h.kept, fun j b hb => (h.told j b hb).imp_right ?_⟩
  exact fun ⟨a, n, ha, hw, he, hj⟩ => ⟨a, n, ha, hw, he, hh j a ha hj⟩

namespace Console

variable {c d : Console} {id : TaskId} {more : Bool} {here : TaskId → Prop}

/-! The printer. -/

theorem Coheres.idle (hc : c.Coheres (· ∈ c.ready)) (hr : ∀ slot, c.printer ≠ .reading slot)
    (hm : c.printer = .receiving → c.mailbox.items = []) (hl : c.printer ≠ .leaving) :
    c.Coheres (Next c.ready .printer false) := by
  refine Coherent.attend hc (hc.attended.turnTo hr (fun slot hp => absurd hp (hr slot)) ?_) ?_
    (fun hp _ => .inr (hm hp)) (fun hp => absurd hp hl)
  · exact fun hk => ⟨hk, nofun⟩
  · exact fun i a ha hi => ⟨hi, fun _ => (id_of_standing ha).1⟩

theorem Coheres.stopPrinter (hc : c.Coheres (· ∈ c.ready))
    (hp : ∀ slot, c.printer ≠ .reading slot) :
    c.stopPrinter.Coheres (Next c.stopPrinter.ready .printer false) := by
  obtain ⟨hr, ht⟩ := tells_discardAll c.mailbox.items
    { { c.closeMailbox.terminate with printer := .stopped }.log .printerStopped with
      mailbox := c.mailbox.close.drain }
  have hready {i : TaskId} (hi : (i ∈ c.ready ∨ i ∈ c.mailbox.waiting) ∨ i ∈ c.parked ++ watchers) :
      i ∈ c.stopPrinter.ready :=
    hr i (mem_foldl_enlist.2 (hi.imp_left mem_foldl_enlist.2))
  have hne {i : TaskId} {a : Activity} (ha : c.standing i = .busy a) : i ≠ .printer :=
    (id_of_standing ha).1
  change Tells (c.mailbox.items.filterMap Message.slot?) .hungUp (· ∈ c.stopPrinter.ready)
    c.standing c.stopPrinter.standing at ht
  have hstop : Coherent c.mailbox.close.drain c.reader .stopped true [] c.keywordWatch
      (Next c.stopPrinter.ready .printer false) c.stopPrinter.standing := Coherent.stop hc hp
    (ht.mono fun j a ha hj => ⟨hj, fun _ => hne ha⟩)
    (fun i a ha hi => ⟨hready (.inl (.inl hi)), fun _ => hne ha⟩)
    (fun hi => ⟨hready (.inl (.inl hi)), nofun⟩)
    (fun i a ha hi => ⟨hready (hi.imp .inr (List.mem_append_left _)), fun _ => hne ha⟩)
    ⟨hready (.inr (by simp [watchers])), nofun⟩
  obtain ⟨producers, ticker, ready, he⟩ := c.stopPrinter_eq
  generalize c.stopPrinter = d at he hstop ⊢
  subst he
  exact hstop

theorem Coheres.take {t : Mailbox.Taken TaskId} {r : Display.Drawn} {p : Printer}
    (hc : c.Coheres (· ∈ c.ready)) (hid : .printer ∈ c.ready) (hp : c.printer = .receiving)
    (hm : c.mailbox.take? = some t) (hs : p ≠ .stopped) (hn : p ≠ .crashed)
    (hslot : ∀ slot, t.message.slot? = some slot → p = .reading slot)
    (hcode : ∀ code, t.message.code? = some code → p = .leaving) :
    Coheres { (c.take t).shown t.message.kind r with printer := p }
      (Next ((c.take t).shown t.message.kind r).ready .printer true) := by
  have hready {i : TaskId} (hi : i ∈ c.ready ∨ t.woken = some i) : i ∈ (c.take t).ready :=
    mem_foldl_enlist.2 (by simpa using hi)
  obtain ⟨display, journal, he⟩ := (c.take t).shown_eq t.message.kind r
  rw [he]
  exact Coherent.take hc hp hm hs hn hslot hcode (fun i hi => ⟨hready (.inr hi), nofun⟩)
    (fun i hi => ⟨hready (.inl hi), nofun⟩) ⟨hready (.inl hid), nofun⟩

theorem mem_resumeRead (c : Console) (id : TaskId) {i : TaskId}
    (h : i ∈ c.ready ∨ (c.reader.resume id).woken = some i) : i ∈ (c.resumeRead id).ready :=
  mem_foldl_enlist.2 (by simpa using h)

theorem Coheres.reply {slot : ReplySlot} {result : Except Failure String} {w : Wait} {p : Printer}
    (hc : c.Coheres (· ∈ c.ready)) (hid : .printer ∈ c.ready) (hp : c.printer = .reading slot)
    (hr : (c.reader.resume .printer).result = some result)
    (he : ∃ producers ticker ready journal,
      d = { c.resumeRead .printer with producers, ticker, ready, journal })
    (hd : ∀ i ∈ (c.resumeRead .printer).ready, i ∈ d.ready)
    (ht : Tells [slot] w (· ∈ d.ready) c.standing d.standing) (hq : p = .receiving ∨ p = .leaving)
    (hw : ∀ x i s rest, x → Placed c.mailbox p c.terminated c.parked x i (s :: rest) w) :
    Coheres { d with printer := p } (Next d.ready .printer true) := by
  have hready {i : TaskId} (hi : i ∈ c.ready ∨ (c.reader.resume .printer).woken = some i) :
      Next d.ready .printer true i :=
    ⟨hd i (c.mem_resumeRead .printer hi), nofun⟩
  have hother (slot : ReplySlot) : p ≠ .reading slot := by
    rcases hq with hq | hq <;> rw [hq] <;> exact nofun
  obtain ⟨producers, ticker, ready, journal, rfl⟩ := he
  refine Coherent.reply hc hp (hc.attended.pass hr ?_ (fun j hj => hready (.inr hj))
    (fun slot hs => absurd hs (hother slot)) fun hi => hready (.inl hi)) ?_ ?_
    (ht.mono fun j a _ hj => ⟨hj, nofun⟩) (fun i s rest hi => hw _ i s rest hi)
    (fun i hi => hready (.inl hi)) (hready (.inl hid))
  · intro j hne hj
    cases j with
    | printer => exact absurd rfl hne
    | _ => exact hj
  · rcases hq with hq | hq <;> rw [hq] <;> exact nofun
  · rcases hq with hq | hq <;> rw [hq] <;> exact nofun

theorem PrinterTurn.coheres (h : PrinterTurn c d more) (hc : c.Coheres (· ∈ c.ready))
    (hid : .printer ∈ c.ready) (hd : d.printer ≠ .crashed) :
    d.Coheres (Next d.ready .printer more) := by
  cases h with
  | gone h => rcases h with h | h <;> exact hc.idle (by simp [h]) (by simp [h]) (by simp [h])
  | idle h hm =>
    exact hc.idle (by simp [h]) (fun _ => Mailbox.take?_eq_none_iff.1 hm) (by simp [h])
  | deserted h => exact hc.stopPrinter (by simp [h])
  | @choked t =>
    obtain ⟨producers, ticker, ready, he⟩ := (c.take t).crashPrinter_eq t.message
    rw [he] at hd
    exact absurd rfl hd
  | @told t r h hm hr hs hk =>
    have he : (c.take t).shown t.message.kind r =
        { (c.take t).shown t.message.kind r with printer := .receiving } := by
      obtain ⟨display, journal, he⟩ := (c.take t).shown_eq t.message.kind r
      rw [he, ← h]
      rfl
    rw [he]
    exact hc.take hid h hm nofun nofun (by simp [hs]) (by simp [hk])
  | @asked t r slot h hm hr hs =>
    refine hc.take hid h hm nofun nofun (by simp [hs]) fun code hk => ?_
    exact absurd hk (by simp [Message.code?_eq_none hs])
  | @exited t r code h hm hr hk =>
    have hx := hc.take (r := r) hid h hm (p := .leaving) nofun nofun
      (fun slot hs => absurd hk (by simp [Message.code?_eq_none hs])) (by simp [hk])
    obtain ⟨display, journal, he⟩ := (c.take t).shown_eq t.message.kind r
    rw [he] at hx ⊢
    exact hx
  | @pending slot h hr =>
    have hready {i : TaskId} (hi : i ∈ c.ready) : i ∈ (c.resumeRead .printer).ready :=
      c.mem_resumeRead .printer (.inl hi)
    exact Coherent.attend hc (hc.attended.pend ⟨slot, h⟩ hr fun j hj hi => ⟨hready hi, fun _ => hj⟩)
      (fun i a ha hi => ⟨hready hi, fun _ => (id_of_standing ha).1⟩)
      (fun hp => absurd (h.symm.trans hp) nofun) (fun hp => absurd (h.symm.trans hp) nofun)
  | @heard slot line h hr =>
    refine hc.reply hid h hr (answer_fields _ slot line) (fun i hi => mem_answer _ slot line hi)
      (tells_answer _ slot line) (.inl rfl) fun x i s rest hi => .replied hi
  | @failed slot failure h hr =>
    refine hc.reply hid h hr ?_ (fun i hi => mem_hangUp _ slot hi) (tells_hangUp _ slot) (.inr rfl)
      fun x i s rest hi => .hungUp (.inl rfl) (.inl hi)
    obtain ⟨producers, ticker, ready, he⟩ :=
      ((((c.resumeRead .printer).record (.read .printer (.error failure))).log
        (.answerFailed failure)).record (.ending .printer (.abort failure))).hangUp_eq slot
    exact ⟨producers, ticker, ready, _, he⟩
  | left h => exact hc.stopPrinter (by simp [h])

/-! The watches. -/

theorem Coheres.heed {result : Except Failure String} (hc : c.Coheres (· ∈ c.ready))
    (hr : (c.reader.resume .keywordWatch).result = some result) :
    (c.resumeRead .keywordWatch).Coheres (· ∈ (c.resumeRead .keywordWatch).ready) := by
  have hready {i : TaskId}
      (hi : i ∈ c.ready ∨ (c.reader.resume .keywordWatch).woken = some i) :
      i ∈ (c.resumeRead .keywordWatch).ready :=
    c.mem_resumeRead .keywordWatch hi
  exact Coherent.attend hc (hc.attended.pass hr (fun _ _ hj => hj) (fun j hj => hready (.inr hj))
    (fun slot hp => ⟨hp, nofun⟩) fun hi => hready (.inl hi)) (fun i _ _ hi => hready (.inl hi))
    (fun _ hi => .inl (hready (.inl hi))) fun _ hi => hready (.inl hi)

theorem Coheres.endKeywordWatch (hc : c.Coheres (· ∈ c.ready)) :
    c.endKeywordWatch.Coheres (Next c.endKeywordWatch.ready .keywordWatch false) := by
  have hready {i : TaskId} (hi : i ∈ c.ready ∨ (c.reader.abandon .keywordWatch).2 = some i) :
      i ∈ c.endKeywordWatch.ready :=
    mem_letGo (mem_foldl_enlist.2 (by simpa using hi))
  have hprinter (hi : TaskId.printer ∈ c.ready) :
      Next c.endKeywordWatch.ready .keywordWatch false .printer :=
    ⟨hready (.inl hi), nofun⟩
  exact Coherent.attend hc
    (hc.attended.abandon (fun j hj hw => ⟨hready (.inr hw), fun _ => hj⟩) hprinter)
    (fun i a ha hi => ⟨hready (.inl hi), fun _ => (id_of_standing ha).2⟩)
    (fun _ hi => .inl (hprinter hi)) fun _ => hprinter

theorem KeywordWatchTurn.coheres (h : KeywordWatchTurn c d more) (hc : c.Coheres (· ∈ c.ready)) :
    d.Coheres (Next d.ready .keywordWatch more) := by
  cases h with
  | off h => exact hc.retire nofun (fun hr => by rw [h] at hr; cases hr) nofun
  | stop => exact hc.endKeywordWatch
  | pending h ht hr =>
    have hready {i : TaskId} (hi : i ∈ c.ready) : i ∈ (c.resumeRead .keywordWatch).ready :=
      c.mem_resumeRead .keywordWatch (.inl hi)
    exact Coherent.attend hc (hc.attended.pend h hr fun j hj hi => ⟨hready hi, fun _ => hj⟩)
      (fun i a ha hi => ⟨hready hi, fun _ => (id_of_standing ha).2⟩)
      (fun _ hi => .inl ⟨hready hi, nofun⟩) fun _ hi => ⟨hready hi, nofun⟩
  | @keyword line h ht hr =>
    exact Coheres.endKeywordWatch (c := (((c.resumeRead .keywordWatch).record
      (.read .keywordWatch (.ok line))).log .keywordReceived).offer .keyword) (hc.heed hr)
  | other h ht hr => exact (hc.heed hr).mono fun i hi => ⟨hi, nofun⟩
  | @failed failure h ht hr =>
    exact Coheres.endKeywordWatch (c := (((c.resumeRead .keywordWatch).record
      (.read .keywordWatch (.error failure))).log (.watchFailed failure)).record
        (.ending .keywordWatch (.abort failure))) (hc.heed hr)

theorem SignalWatchTurn.coheres (h : SignalWatchTurn c d more) (hc : c.Coheres (· ∈ c.ready)) :
    d.Coheres (Next d.ready .signalWatch more) := by
  have hr : c.Coheres (Next c.ready .signalWatch false) := hc.retire nofun (fun h => h) nofun
  have hn : c.Coheres (Next c.ready .signalWatch more) :=
    hr.mono fun i hi => ⟨hi.1, fun _ => hi.2 rfl⟩
  cases h <;> exact hn

/-! A run. -/

theorem Coheres.step (hc : c.Coheres (· ∈ c.ready)) (hid : id ∈ c.ready)
    (hd : (c.step id).printer ≠ .crashed) : (c.step id).Coheres (· ∈ (c.step id).ready) := by
  have hp : (c.turn id).1.printer ≠ .crashed := by
    obtain ⟨ready, he⟩ := c.turn_eq_step id
    rw [he] at hd
    exact hd
  have ht : (c.turn id).1.Coheres (Next (c.turn id).1.ready id (c.turn id).2) := by
    cases id with
    | printer => exact (printerTurn_cases c).coheres hc hid hp
    | signalWatch => exact (signalWatchTurn_cases c).coheres hc
    | keywordWatch => exact (keywordWatchTurn_cases c).coheres hc
    | ticker => exact (tickerTurn_cases c).coheres hc hid
    | producer n => exact (producerTurn_cases c n).coheres hc hid
  unfold Console.step
  dsimp only
  split
  · exact ht.mono fun i hi => hi.1
  · rename_i hmore
    have hmore : (c.turn id).2 = false := by simpa using hmore
    exact ht.mono fun i hi => (List.mem_erase_of_ne (hi.2 hmore)).2 hi.1

theorem Coheres.input (hc : c.Coheres (· ∈ c.ready)) (source : Source) :
    (wakeReader { c with reader.source := source }).Coheres
      (· ∈ (wakeReader { c with reader.source := source }).ready) := by
  have hready {i : TaskId} (hi : i ∈ c.ready ∨ c.reader.owner = some i) :
      i ∈ (wakeReader { c with reader.source := source }).ready :=
    mem_foldl_enlist.2 (by simpa using hi)
  exact Coherent.attend hc (hc.attended.feed rfl rfl (fun i hi => hready (.inr hi)) fun hi =>
    hready (.inl hi)) (fun i _ _ hi => hready (.inl hi)) (fun _ hi => .inl (hready (.inl hi)))
    fun _ hi => hready (.inl hi)

theorem Coheres.start (hc : c.Coheres (· ∈ c.ready)) (k : Nat) (interactive : Bool) :
    (c.supervise k interactive).1.Coheres (· ∈ (c.supervise k interactive).1.ready) := by
  have hn : .signalWatch ∉ c.mailbox.granted ++ c.mailbox.waiting := hc.not_in_line nofun
  rw [List.mem_append, not_or] at hn
  have ha := apart_supervise hc hn.1 k interactive
  have hs := c.supervise_cases k interactive
  have hw : .signalWatch ∉ (c.supervise k interactive).1.mailbox.waiting := by
    generalize (c.supervise k interactive).1 = d, (c.supervise k interactive).2 = first at hs ⊢
    cases hs <;> exact hn.2
  exact ha.coherent hs.beside hc nofun nofun (fun i hi _ => hi) (fun i _ => hs.standing_eq i) nofun
    (fun hi => absurd hi hw) nofun

theorem Coheres.act (hc : c.Coheres (· ∈ c.ready)) (m : Move) (ha : c.allows m)
    (hd : (c.act m).printer ≠ .crashed) : (c.act m).Coheres (· ∈ (c.act m).ready) := by
  cases m with
  | step id => exact hc.step (by simpa [allows] using ha) hd
  | pass time => exact hc.mono fun i hi => mem_foldl_enlist.2 (.inl hi)
  | spawn p => exact hc.spawn p
  | kill n => exact hc.kill n
  | feed piece => exact hc.input _
  | close => exact hc.input _
  | raise s =>
    change (c.raise s).Coheres (· ∈ (c.raise s).ready)
    unfold Console.raise
    split
    · exact hc.mono fun i hi => mem_enlist.2 (.inl hi)
    · exact hc
  | setSink sink => exact hc
  | start k interactive => exact hc.start k interactive
  | deafen cause => exact hc
  | release => exact hc.mono fun i hi => mem_letGo hi

theorem coheres_new {settings : Settings} {jobs : List Job} {source : Source} {sink : Sink}
    (h₀ : new? settings jobs source sink = some c) : c.Coheres (· ∈ c.ready) := by
  obtain ⟨-, rfl⟩ := new?_eq_some.1 h₀
  constructor
  case phase => exact .running nofun nofun rfl rfl
  case balanced => exact ⟨Nat.zero_le _, nofun, List.nodup_nil⟩
  case placed =>
    intro i a hi
    cases i <;> cases hi
  case attended => exact ⟨⟨List.nodup_nil, fun _ => rfl⟩, nofun, nofun, nofun⟩
  case receiving => exact fun _ => .inr rfl
  all_goals exact nofun

/-! Coherence, ties decided either way. -/

theorem Coheres.pend (hc : c.Coheres (· ∈ c.ready)) (hk : c.keywordWatch = true)
    (hr : (c.reader.resume .keywordWatch).result = none) :
    (c.resumeRead .keywordWatch).Coheres (· ∈ (c.resumeRead .keywordWatch).ready) := by
  have hready {i : TaskId} (hi : i ∈ c.ready) : i ∈ (c.resumeRead .keywordWatch).ready :=
    c.mem_resumeRead .keywordWatch (.inl hi)
  exact Coherent.attend hc (hc.attended.pend hk hr fun _ _ hi => hready hi)
    (fun _ _ _ hi => hready hi) (fun _ hi => .inl (hready hi)) fun _ hi => hready hi

theorem SignalWatchTurn.coheres_work (h : SignalWatchTurn { c with terminated := false } d more)
    (hc : c.Coheres (· ∈ c.ready)) :
    Coheres { d with terminated := c.terminated } (· ∈ d.ready) := by
  cases h <;> exact hc

theorem KeywordWatchTurn.coheres_work
    (h : KeywordWatchTurn { c with terminated := false } d more) (hc : c.Coheres (· ∈ c.ready)) :
    Coheres { d with terminated := c.terminated } (· ∈ d.ready) := by
  cases h with
  | off => exact hc
  | stop _ ht => cases ht
  | pending hk _ hr => exact hc.pend hk hr
  | @keyword line _ _ hr =>
    have hd := Coheres.endKeywordWatch (c := (((c.resumeRead .keywordWatch).record
      (.read .keywordWatch (.ok line))).log .keywordReceived).offer .keyword) (hc.heed hr)
    exact hd.mono fun i hi => hi.1
  | other _ _ hr => exact hc.heed hr
  | @failed failure _ _ hr =>
    have hd := Coheres.endKeywordWatch (c := (((c.resumeRead .keywordWatch).record
      (.read .keywordWatch (.error failure))).log (.watchFailed failure)).record
        (.ending .keywordWatch (.abort failure))) (hc.heed hr)
    exact hd.mono fun i hi => hi.1

theorem TickerTurn.coheres_work (h : TickerTurn { c with terminated := false } d more)
    (hc : c.Coheres (· ∈ c.ready)) (hr : .ticker ∈ c.ready)
    (hn : ∀ s request a, TaskId.ticker = .ticker → c.supervision = some s →
      c.ticker ≠ .calling request a) :
    Coheres { d with terminated := c.terminated } (· ∈ d.ready) := by
  cases h with
  | off => exact hc
  | stop _ _ ht => cases ht
  | @call s hs hk =>
    have hd := (hc.beginCall hr hk s).mono fun i hi => hi.1
    have he : { beginCall { c with terminated := false } s with terminated := c.terminated } =
        c.beginCall s := by
      unfold beginCall
      cases c.request <;> rfl
    have hready : (beginCall { c with terminated := false } s).ready = (c.beginCall s).ready := by
      rw [← he]
    rw [he, hready]
    exact hd
  | on hs hk => exact absurd hk (hn _ _ _ rfl hs)
  | ended hs hk => exact absurd hk (hn _ _ _ rfl hs)
  | crashed hs hk => exact absurd hk (hn _ _ _ rfl hs)
  | due hk => exact (hc.due hk).mono fun i hi => hi.1
  | asleep => exact hc

theorem Coheres.work (hc : c.Coheres (· ∈ c.ready)) (hi : id ∈ watchers) (hr : id ∈ c.ready) :
    (c.work id).Coheres (· ∈ (c.work id).ready) := by
  rcases c.work_cases id with ⟨s, request, a, rfl, hs, hk, he⟩ | ⟨hn, he⟩ <;> rw [he]
  · have hd : (c.continueCall s request a).1.Coheres
        (Next (c.continueCall s request a).1.ready .ticker true) :=
      (callTurn_cases c s request a).coheres hc (standing_calling hs hk) hr fun _ => rfl
    exact hd.mono fun i hi => hi.1
  · cases id with
    | printer => exact absurd rfl (not_printer_of_watchers hi)
    | signalWatch =>
      exact (signalWatchTurn_cases { c with terminated := false }).coheres_work hc
    | keywordWatch =>
      exact (keywordWatchTurn_cases { c with terminated := false }).coheres_work hc
    | ticker => exact (tickerTurn_cases { c with terminated := false }).coheres_work hc hr hn
    | producer n => simp [watchers] at hi

theorem Attainable.coheres (h : c.Attainable) (hp : c.printer ≠ .crashed) :
    c.Coheres (· ∈ c.ready) := by
  apply h.invariant (P := fun c => c.printer ≠ .crashed → c.Coheres (· ∈ c.ready)) _ _ _ hp
  · exact fun h₀ _ => coheres_new h₀
  · exact fun c m _ ha hc hd => (hc fun hx => hd (act_crashed hx m)).act m ha hd
  · intro c id _ hi hr _ hc hd
    rw [(c.beside_work hi).printer] at hd
    exact (hc hd).work hi hr

/-! Nobody runs. -/

/-- When no task can run, a task inside a call that sends a message waits, in the end, for input:
the printer reads the answer to a prompt that is to be seen, and there is nothing to read. A task
that waits for room has all the messages before it that the mailbox is meant to hold. -/
theorem waits_for_input {settings : Settings} {jobs : List Job} {source : Source} {sink : Sink}
    {c₀ : Console} {xs : List Stride} (h₀ : new? settings jobs source sink = some c₀)
    (h : Course c₀ xs c) (hp : c.printer ≠ .crashed) (hq : c.ready = []) {a : Activity}
    (hb : c.standing id = .busy a) :
    (∀ s rest, a.program = s :: rest → s.sends = true →
      ∃ slot, c.printer = .reading slot ∧ Shows { sink } c.events slot ∧
        c.reader.source.pieces = [] ∧ c.reader.source.closed = false) ∧
      ∀ m, a.wait = .room m → c.mailbox.items.length = c.settings.capacity := by
  have hattainable : c.Attainable := h.attainable (.new h₀)
  have hsize := hattainable.sized
  have hroom := c.settings.one_le_capacity
  have hc : c.Coheres fun _ => False := (hattainable.coheres hp).mono fun i hi => by simp [hq] at hi
  constructor
  · intro s rest ha hs
    obtain ⟨slot, hr⟩ := Coherent.waits hc (by omega) hp hb ha hs
    obtain ⟨hpieces, hopen⟩ := Coherent.silent hc hr
    exact ⟨slot, hr, h.asking h₀ slot hr, hpieces, hopen⟩
  · intro m hm
    rw [← hsize]
    exact Coherent.room hc hb hm

def standstill : List Stride :=
  ([.spawn [.prompt "name"], .step (.producer 0), .step (.producer 0), .step .printer,
    .step .printer, .spawn [.info "one"], .step (.producer 1), .step (.producer 1),
    .spawn [.info "two"], .step (.producer 2)] : List Move).map .move

theorem waits_of_standstill : ∃ c₀, new? { mailboxCapacity := 0 } [] {} {} = some c₀ ∧
    Course c₀ standstill (c₀.follow standstill) ∧ (c₀.follow standstill).ready = [] ∧
      (c₀.follow standstill).mailbox.items.length = 1 ∧
        ∃ slot, (c₀.follow standstill).printer = .reading slot ∧
          Shows {} (c₀.follow standstill).events slot := by
  obtain ⟨c₀, h₀⟩ : ∃ c₀, new? { mailboxCapacity := 0 } [] {} {} = some c₀ := ⟨_, rfl⟩
  have h : Course c₀ standstill (c₀.follow standstill) := .of_lawful (by
    cases h₀
    decide)
  have hq : (c₀.follow standstill).ready = [] := by
    cases h₀
    decide
  have hp : (c₀.follow standstill).printer ≠ .crashed := by
    cases h₀
    decide
  have hb : (c₀.follow standstill).standing (.producer 2) =
      .busy ⟨[.info "two"], 0, .room (.info "two")⟩ := by
    cases h₀
    exact standing_producer.2 (by decide)
  have hw := waits_for_input h₀ h hp hq hb
  obtain ⟨slot, hs, hshows, -⟩ := hw.1 _ _ rfl rfl
  refine ⟨c₀, h₀, h, hq, (hw.2 _ rfl).trans ?_, slot, hs, hshows⟩
  cases h₀
  rfl

end Console

end JobConsole
