import JobConsole.Proofs.Parking
import JobConsole.Proofs.Quiescence

namespace JobConsole.Console

def Serves (c : Console) : TaskId → Prop
  | .signalWatch => c.signalWatch ≠ .absent
  | .keywordWatch => c.keywordWatch = true
  | .ticker => c.ticker.isAlive = true
  | _ => False

def Staffed (c : Console) : Prop :=
  c.ticker.isAlive = true → c.supervision.isSome = true

/-- No task of the supervision falls asleep, and one that begins runs. -/
structure Stirs (c d : Console) : Prop where
  ready : ∀ i ∈ watchers, i ∈ c.ready → i ∈ d.ready
  serves : ∀ i, d.Serves i → c.Serves i ∨ i ∈ d.ready ∧ d.supervision.isSome = true
  supervised : c.supervision.isSome = true → d.supervision.isSome = true

variable {c d e : Console} {id i : TaskId} {a : Activity} {s : Statement} {w : Wait} {stage : Stage}
  {note : Outcome → Event} {pace : Pace} {more : Bool}

theorem mem_watchers_of_serves (h : c.Serves i) : i ∈ watchers := by
  cases i <;> first | cases h | decide

theorem serves_congr (hs : d.signalWatch = c.signalWatch) (hk : d.keywordWatch = c.keywordWatch)
    (ht : d.ticker.isAlive = c.ticker.isAlive) (h : d.Serves i) : c.Serves i := by
  cases i <;> simp_all [Serves]

theorem Stirs.same (hs : d.signalWatch = c.signalWatch) (hk : d.keywordWatch = c.keywordWatch)
    (ht : d.ticker.isAlive = c.ticker.isAlive) (hv : d.supervision = c.supervision)
    (hr : ∀ i ∈ watchers, i ∈ c.ready → i ∈ d.ready) : Stirs c d :=
  ⟨hr, fun _ h => .inl (serves_congr hs hk ht h), fun h => by rwa [hv]⟩

theorem Stirs.trans (h : Stirs c d) (g : Stirs d e) : Stirs c e := by
  refine ⟨fun i hi hc => g.ready i hi (h.ready i hi hc), fun i hi => ?_,
    fun hc => g.supervised (h.supervised hc)⟩
  rcases g.serves i hi with hd | hr
  · exact (h.serves i hd).imp_right fun hr =>
      ⟨g.ready i (mem_watchers_of_serves hd) hr.1, g.supervised hr.2⟩
  · exact .inr hr

theorem Stirs.staffed (h : Stirs c d) (hc : c.Staffed) : d.Staffed :=
  fun hd => (h.serves .ticker hd).elim (fun ht => h.supervised (hc ht)) And.right

/-! Whether the ticker is alive. -/

theorem isAlive_setActivity (c : Console) (id : TaskId) (a : Activity) :
    (c.setActivity id a).ticker.isAlive = c.ticker.isAlive := by
  cases id with
  | ticker =>
    unfold setActivity
    cases c.ticker <;> rfl
  | _ => rfl

theorem isAlive_hangUp (c : Console) (slot : ReplySlot) :
    (c.hangUp slot).ticker.isAlive = c.ticker.isAlive := by
  rcases c.hangUp_cases slot with ⟨-, he⟩ | ⟨a, -, -, he⟩ <;> rw [he]
  exact c.isAlive_setActivity slot.asker _

theorem isAlive_hangUpOn (c : Console) (m : Message) :
    (c.hangUpOn m).ticker.isAlive = c.ticker.isAlive := by
  cases m with
  | prompt text slot => exact c.isAlive_hangUp slot
  | _ => rfl

theorem isAlive_answer (c : Console) (slot : ReplySlot) (line : String) :
    (c.answer slot line).ticker.isAlive = c.ticker.isAlive := by
  rcases c.answer_cases slot line with ⟨-, he⟩ | ⟨a, -, -, he⟩ <;> rw [he]
  · rfl
  · exact c.isAlive_setActivity slot.asker _

theorem isAlive_discardAll (ms : List Message) : ∀ c : Console,
    (ms.foldl (fun c m => (c.record (.discarded m)).hangUpOn m) c).ticker.isAlive =
      c.ticker.isAlive := by
  induction ms with
  | nil => exact fun _ => rfl
  | cons m ms ih =>
    intro c
    rw [List.foldl_cons, ih]
    exact (c.record (.discarded m)).isAlive_hangUpOn m

theorem isAlive_stopPrinter (c : Console) : c.stopPrinter.ticker.isAlive = c.ticker.isAlive :=
  isAlive_discardAll _ _

theorem isAlive_crashPrinter (c : Console) (m : Message) :
    (c.crashPrinter m).ticker.isAlive = c.ticker.isAlive :=
  (isAlive_discardAll _ _).trans (c.isAlive_hangUpOn m)

theorem PrinterTurn.isAlive_eq (h : PrinterTurn c d more) :
    d.ticker.isAlive = c.ticker.isAlive := by
  cases h with
  | gone | idle | pending => rfl
  | deserted | left => exact c.isAlive_stopPrinter
  | @choked t => exact (c.take t).isAlive_crashPrinter t.message
  | @told t r | @asked t r | @exited t r =>
    obtain ⟨display, journal, he⟩ := (c.take t).shown_eq t.message.kind r
    rw [he]
    rfl
  | @heard slot line => exact isAlive_answer _ slot line
  | @failed slot failure => exact isAlive_hangUp _ slot

theorem PrinterTurn.staffed (h : PrinterTurn c d more) (hc : c.Staffed) : d.Staffed := by
  intro hd
  have hs : c.supervision.isSome = true := hc (h.isAlive_eq ▸ hd)
  obtain ⟨_, _, _, _, _, _, _, _, _, _, rfl⟩ := h.frame
  exact hs

/-! What stirs. -/

theorem Supervised.stirs {k : Nat} {interactive first : Bool}
    (h : Supervised c k interactive d first) : Stirs c d := by
  cases h with
  | already => exact .same rfl rfl rfl rfl fun _ _ hi => hi
  | @started ready hs hr =>
    refine ⟨fun i _ hi => (hr i).2 (.inl hi), fun i hi => ?_, fun _ => rfl⟩
    dsimp only at hi ⊢
    rw [hr]
    cases i with
    | signalWatch =>
      cases hw : c.settings.watchSignals with
      | true => exact .inr ⟨.inr (.inr (.inl ⟨rfl, rfl⟩)), rfl⟩
      | false => exact .inl (by simpa [Serves, hw] using hi)
    | keywordWatch =>
      cases interactive with
      | true => exact .inl (by simpa [Serves] using hi)
      | false => exact .inr ⟨.inr (.inr (.inr ⟨rfl, rfl⟩)), rfl⟩
    | ticker => exact .inr ⟨.inr (.inl rfl), rfl⟩
    | _ => cases hi

theorem Deed.stirs (h : Deed c id s w d stage) : Stirs c d := by
  have hr (i : TaskId) (_ : i ∈ watchers) (hi : i ∈ c.ready) : i ∈ d.ready := h.mem_ready hi
  cases h with
  | still => exact .same rfl rfl rfl rfl hr
  | accept => exact .same rfl rfl rfl rfl hr
  | refuse => exact .same rfl rfl rfl rfl hr
  | join => exact .same rfl rfl rfl rfl hr
  | park =>
    obtain ⟨parked, he⟩ := c.park_eq id
    rw [he]
    exact .same rfl rfl rfl rfl fun _ _ hi => hi
  | @supervise k interactive => exact (c.supervise_cases k interactive).stirs
  | sleep => exact .same rfl rfl rfl rfl hr

theorem stirs_setActivity (c : Console) (id : TaskId) (a : Activity) :
    Stirs c (c.setActivity id a) := by
  have ht := c.isAlive_setActivity id a
  obtain ⟨producers, ticker, he⟩ := c.setActivity_eq id a
  rw [he] at ht ⊢
  exact .same rfl rfl ht rfl fun _ _ hi => hi

theorem Pursuit.stirs (h : Pursuit c id a note d pace) : Stirs c d := by
  have hd {s : Statement} {w : Wait} {d : Console} {stage : Stage}
      (he : c.perform id s w = (d, stage)) : Stirs c d :=
    (deed_of_perform he).stirs
  cases h with
  | ended => exact .same rfl rfl rfl rfl fun _ _ hi => hi
  | rested _ he => exact (hd he).trans (stirs_setActivity _ _ _)
  | moved _ he => exact (hd he).trans (stirs_setActivity _ _ _)
  | crashed _ he => exact hd he
  | followed _ he => exact (hd he).trans (stirs_setActivity _ _ _)
  | @finished _ _ d o _ he =>
    have hn : Stirs d (d.record (note o)) := .same rfl rfl rfl rfl fun _ _ hi => hi
    exact ((hd he).trans hn).trans (stirs_setActivity _ _ _)

theorem ProducerTurn.stirs {n : Nat} (h : ProducerTurn c n d more) : Stirs c d := by
  cases h with
  | off => exact .same rfl rfl rfl rfl fun _ _ hi => hi
  | on _ hd => exact hd.stirs
  | quit _ hd => exact hd.stirs.trans (.same rfl rfl rfl rfl fun _ _ hi => mem_letGo hi)

theorem SignalWatchTurn.stirs (h : SignalWatchTurn c d more) : Stirs c d := by
  have hof {d : Console} (hr : d.ready = c.ready) (hk : d.keywordWatch = c.keywordWatch)
      (ht : d.ticker = c.ticker) (hv : d.supervision = c.supervision)
      (hs : d.signalWatch ≠ .absent → c.signalWatch ≠ .absent) : Stirs c d := by
    refine ⟨fun i _ hi => by rwa [hr], fun i hi => .inl ?_, fun hc => by rwa [hv]⟩
    cases i <;> simp_all [Serves]
  cases h with
  | off => exact hof rfl rfl rfl rfl fun h => h
  | register h => exact hof rfl rfl rfl rfl fun _ => by simp [h]
  | disable => exact hof rfl rfl rfl rfl (absurd rfl)
  | stop => exact hof rfl rfl rfl rfl (absurd rfl)
  | quiet => exact hof rfl rfl rfl rfl fun h => h
  | hear h => exact hof rfl rfl rfl rfl fun _ => by simp [h]

theorem stirs_resumeRead (c : Console) (id : TaskId) : Stirs c (c.resumeRead id) :=
  .same rfl rfl rfl rfl fun _ _ hi => c.mem_resumeRead id (.inl hi)

theorem stirs_endKeywordWatch (c : Console) : Stirs c c.endKeywordWatch := by
  refine ⟨fun i _ hi => mem_letGo (mem_foldl_enlist.2 (.inl hi)), fun i hi => .inl ?_, fun hc => hc⟩
  cases i <;> first | exact hi | cases hi

theorem KeywordWatchTurn.stirs (h : KeywordWatchTurn c d more) : Stirs c d := by
  have hr := c.stirs_resumeRead .keywordWatch
  cases h with
  | off => exact .same rfl rfl rfl rfl fun _ _ hi => hi
  | stop => exact c.stirs_endKeywordWatch
  | pending => exact hr
  | keyword =>
    refine (hr.trans ?_).trans (stirs_endKeywordWatch _)
    exact .same rfl rfl rfl rfl fun _ _ hi => hi
  | other => exact hr.trans (.same rfl rfl rfl rfl fun _ _ hi => hi)
  | failed =>
    refine (hr.trans ?_).trans (stirs_endKeywordWatch _)
    exact .same rfl rfl rfl rfl fun _ _ hi => hi

theorem Stirs.tick (h : Stirs c d) (ht : c.ticker.isAlive = true)
    (hs : c.supervision.isSome = true) (hw : e.signalWatch = d.signalWatch)
    (hk : e.keywordWatch = d.keywordWatch) (hr : e.ready = d.ready)
    (hv : d.supervision.isSome = true → e.supervision.isSome = true) : Stirs c e := by
  refine ⟨fun i hi hc => by rw [hr]; exact h.ready i hi hc, fun i hi => ?_,
    fun hc => hv (h.supervised hc)⟩
  have hv := hv (h.supervised hs)
  cases i with
  | ticker => exact .inl ht
  | signalWatch =>
    have hd : d.Serves .signalWatch := by rw [Serves, ← hw]; exact hi
    exact (h.serves _ hd).imp_right fun hd => ⟨hr ▸ hd.1, hv⟩
  | keywordWatch =>
    have hd : d.Serves .keywordWatch := by rw [Serves, ← hk]; exact hi
    exact (h.serves _ hd).imp_right fun hd => ⟨hr ▸ hd.1, hv⟩
  | _ => cases hi

theorem Stirs.refl (c : Console) : Stirs c c :=
  .same rfl rfl rfl rfl fun _ _ hi => hi

theorem CallTurn.stirs {s : Supervision} {request : Option Request}
    (h : CallTurn c s request a d more) (hs : c.supervision = some s)
    (hk : c.ticker = .calling request a) : Stirs c d := by
  have ht : c.ticker.isAlive = true := by rw [hk]; rfl
  have hs : c.supervision.isSome = true := by rw [hs]; rfl
  cases h with
  | on hd => exact hd.stirs
  | ended hd => exact hd.stirs.tick ht hs rfl rfl rfl fun h => h
  | crashed hd => cases request <;> exact hd.stirs.tick ht hs rfl rfl rfl fun h => h

theorem TickerTurn.stirs (h : TickerTurn c d more) (ht : c.terminated = false) : Stirs c d := by
  cases h with
  | off => exact .refl c
  | stop _ _ hn => rw [ht] at hn; cases hn
  | @call s hs hk =>
    have hb := (c.beginCall_spec s).2.1
    obtain ⟨request, supervision, ticker, journal, he⟩ := c.beginCall_eq s
    rw [he] at hb ⊢
    exact (Stirs.refl c).tick (by rw [hk]; rfl) (by rw [hs]; rfl) rfl rfl rfl
      fun _ => by rw [hb]; rfl
  | on hs hk _ hd hp => exact (CallTurn.on hd hp).stirs hs hk
  | ended hs hk _ hd => exact (CallTurn.ended hd).stirs hs hk
  | crashed hs hk _ hd => exact (CallTurn.crashed hd).stirs hs hk
  | due hk => exact .same rfl rfl (by rw [hk]; rfl) rfl fun _ _ hi => hi
  | asleep => exact .refl c

theorem turn_stirs (c : Console) (hp : id ≠ .printer) (ht : c.terminated = false) :
    Stirs c (c.turn id).1 := by
  cases id with
  | printer => exact absurd rfl hp
  | signalWatch => exact (signalWatchTurn_cases c).stirs
  | keywordWatch => exact (keywordWatchTurn_cases c).stirs
  | ticker => exact (tickerTurn_cases c).stirs ht
  | producer n => exact (producerTurn_cases c n).stirs

theorem work_stirs (c : Console) (hi : id ∈ watchers) : Stirs c (c.work id) := by
  rcases c.work_cases id with ⟨s, request, a, -, hs, hk, he⟩ | ⟨-, he⟩ <;> rw [he]
  · exact (callTurn_cases c s request a).stirs hs hk
  · have h := turn_stirs { c with terminated := false } (not_printer_of_watchers hi) rfl
    exact ⟨h.ready, h.serves, h.supervised⟩

/-! Behind termination. -/

def Awake (c : Console) : Prop :=
  ∀ i, c.Serves i → i ∈ c.ready

theorem Stirs.awake (h : Stirs c d) (hc : c.Awake) : d.Awake := by
  intro i hi
  rcases h.serves i hi with hs | hr
  · exact h.ready i (mem_watchers_of_serves hs) (hc i hs)
  · exact hr.1

/-! Whoever comes to rest is gone. -/

theorem SignalWatchTurn.awake (h : SignalWatchTurn c d more) (hc : c.Awake)
    (ht : c.terminated = true) (hi : d.Serves i) : Next d.ready .signalWatch more i := by
  refine ⟨h.stirs.awake hc i hi, ?_⟩
  rintro hm rfl
  cases h with
  | off h => exact hi h
  | register => cases hm
  | disable => exact hi rfl
  | stop => exact hi rfl
  | quiet _ hn => rw [ht] at hn; cases hn
  | hear => cases hm

theorem KeywordWatchTurn.awake (h : KeywordWatchTurn c d more) (hc : c.Awake)
    (ht : c.terminated = true) (hi : d.Serves i) : Next d.ready .keywordWatch more i := by
  refine ⟨h.stirs.awake hc i hi, ?_⟩
  rintro hm rfl
  cases h with
  | off h => rw [Serves, h] at hi; cases hi
  | stop => cases hi
  | pending _ hn => rw [ht] at hn; cases hn
  | keyword => cases hi
  | other => cases hm
  | failed => cases hi

theorem TickerTurn.awake (h : TickerTurn c d more) (hc : c.Awake) (hs : c.Staffed)
    (ht : c.terminated = true) (hi : d.Serves i) : Next d.ready .ticker more i := by
  cases h with
  | off h =>
    refine ⟨hc i hi, ?_⟩
    rintro - rfl
    rcases h with h | h
    · have hn := hs hi
      rw [h] at hn
      cases hn
    · rw [Serves, h] at hi
      cases hi
  | @stop s =>
    have hne : i ≠ .ticker := by
      rintro rfl
      cases hi
    have hr : i ∈ c.ready := by
      apply hc
      cases i with
      | ticker => exact absurd rfl hne
      | _ => exact hi
    exact ⟨mem_letGo (mem_foldl_enlist.2 (.inl ((List.mem_erase_of_ne hne).2 hr))), fun _ => hne⟩
  | call _ _ hn => rw [ht] at hn; cases hn
  | on _ _ hn => rw [ht] at hn; cases hn
  | ended _ _ hn => rw [ht] at hn; cases hn
  | crashed _ _ hn => rw [ht] at hn; cases hn
  | due _ hn => rw [ht] at hn; cases hn
  | asleep _ hn => rw [ht] at hn; cases hn

theorem turn_awake (hc : c.Awake) (hs : c.Staffed) (ht : c.terminated = true)
    (hp : c.printer = .stopped) (id : TaskId) (hi : (c.turn id).1.Serves i) :
    Next (c.turn id).1.ready id (c.turn id).2 i := by
  cases id with
  | printer =>
    rw [turn_gone (.inl hp)] at hi ⊢
    refine ⟨hc i hi, ?_⟩
    rintro - rfl
    cases hi
  | signalWatch => exact (signalWatchTurn_cases c).awake hc ht hi
  | keywordWatch => exact (keywordWatchTurn_cases c).awake hc ht hi
  | ticker => exact (tickerTurn_cases c).awake hc hs ht hi
  | producer n =>
    refine ⟨(producerTurn_cases c n).stirs.awake hc i hi, ?_⟩
    rintro - rfl
    cases hi

theorem step_awake (hc : c.Awake) (hs : c.Staffed) (ht : c.terminated = true)
    (hp : c.printer = .stopped) (id : TaskId) : (c.step id).Awake := by
  intro i
  unfold step
  dsimp only
  split
  · exact fun hi => (turn_awake hc hs ht hp id hi).1
  · rename_i hm
    intro hi
    have hi := turn_awake hc hs ht hp id hi
    exact (List.mem_erase_of_ne (hi.2 (by simpa using hm))).2 hi.1

theorem awake_stopPrinter (c : Console) : c.stopPrinter.Awake := by
  intro i hi
  obtain ⟨hr, -⟩ := tells_discardAll c.mailbox.items
    { { c.closeMailbox.terminate with printer := .stopped }.log .printerStopped with
      mailbox := c.mailbox.close.drain }
  apply hr
  apply mem_foldl_enlist.2
  exact .inr (List.mem_append_right _ (mem_watchers_of_serves hi))

theorem act_stirs (c : Console) (m : Move) (hm : ∀ id, m ≠ .step id) : Stirs c (c.act m) := by
  cases m with
  | step id => exact absurd rfl (hm id)
  | spawn p => exact .same rfl rfl rfl rfl fun _ _ hi => mem_enlist.2 (.inl hi)
  | kill n =>
    rw [act, kill]
    split
    · exact .refl c
    · refine .same rfl rfl rfl rfl fun i hw hi => mem_letGo (mem_foldl_enlist.2 (.inl ?_))
      have hne : i ≠ .producer n := by
        rintro rfl
        simp [watchers] at hw
      exact (List.mem_erase_of_ne hne).2 hi
  | raise s =>
    rw [act, raise]
    split
    · rename_i pending h
      refine ⟨fun _ _ hi => mem_enlist.2 (.inl hi), fun i hi => .inl ?_, fun hs => hs⟩
      cases i with
      | signalWatch => simp [Serves, h]
      | _ => exact hi
    · exact .refl c
  | start k interactive =>
    exact (c.supervise_cases k interactive).stirs.trans (.same rfl rfl rfl rfl fun _ _ hi => hi)
  | pass time => exact .same rfl rfl rfl rfl fun _ _ hi => mem_foldl_enlist.2 (.inl hi)
  | feed piece => exact .same rfl rfl rfl rfl fun _ _ hi => mem_foldl_enlist.2 (.inl hi)
  | close => exact .same rfl rfl rfl rfl fun _ _ hi => mem_foldl_enlist.2 (.inl hi)
  | setSink sink => exact .same rfl rfl rfl rfl fun _ _ hi => hi
  | deafen cause => exact .same rfl rfl rfl rfl fun _ _ hi => hi
  | release => exact .same rfl rfl rfl rfl fun _ _ hi => mem_letGo hi

theorem turn_staffed (hc : c.Staffed) (id : TaskId) : (c.turn id).1.Staffed := by
  cases id with
  | printer => exact (printerTurn_cases c).staffed hc
  | signalWatch => exact (signalWatchTurn_cases c).stirs.staffed hc
  | keywordWatch => exact (keywordWatchTurn_cases c).stirs.staffed hc
  | producer n => exact (producerTurn_cases c n).stirs.staffed hc
  | ticker =>
    cases ht : c.terminated with
    | false => exact ((tickerTurn_cases c).stirs ht).staffed hc
    | true =>
      have h := tickerTurn_cases c
      change c.tickerTurn.1.Staffed
      generalize c.tickerTurn.1 = d, c.tickerTurn.2 = more at h ⊢
      cases h with
      | off => exact hc
      | stop => exact nofun
      | call _ _ hn => rw [ht] at hn; cases hn
      | on _ _ hn => rw [ht] at hn; cases hn
      | ended _ _ hn => rw [ht] at hn; cases hn
      | crashed _ _ hn => rw [ht] at hn; cases hn
      | due _ hn => rw [ht] at hn; cases hn
      | asleep _ hn => rw [ht] at hn; cases hn

theorem Attainable.staffed (h : c.Attainable) : c.Staffed := by
  apply h.invariant (P := Staffed)
  · intro settings jobs source sink c₀ h₀
    obtain ⟨-, rfl⟩ := new?_eq_some.1 h₀
    exact nofun
  · intro c m _ _ hc
    by_cases hm : ∃ id, m = .step id
    · obtain ⟨id, rfl⟩ := hm
      have ht := turn_staffed hc id
      obtain ⟨ready, he⟩ := c.turn_eq_step id
      rw [Console.act, he]
      exact ht
    · exact (c.act_stirs m fun id hid => hm ⟨id, hid⟩).staffed hc
  · exact fun c id _ hi _ _ hc => (c.work_stirs hi).staffed hc

theorem Attainable.awake (h : c.Attainable) (ht : c.terminated = true) : c.Awake := by
  apply h.invariant (P := fun c => c.terminated = true → c.Awake) _ _ _ ht
  · intro settings jobs source sink c₀ h₀ ht
    obtain ⟨-, rfl⟩ := new?_eq_some.1 h₀
    cases ht
  · intro c m h _ hc hd
    cases ht : c.terminated with
    | true =>
      have hp := h.staged.terminated_iff.1 ht
      by_cases hm : ∃ id, m = .step id
      · obtain ⟨id, rfl⟩ := hm
        exact step_awake (hc ht) h.staffed ht hp id
      · exact (c.act_stirs m fun id hid => hm ⟨id, hid⟩).awake (hc ht)
    | false =>
      rw [(act_terminates h.staged ht hd).1]
      intro i hi
      have hne : i ≠ .printer := not_printer_of_watchers (mem_watchers_of_serves hi)
      exact (List.mem_erase_of_ne hne).2 (c.awake_stopPrinter i hi)
  · exact fun c id _ hi _ ht hc _ => (c.work_stirs hi).awake (hc ht)

end JobConsole.Console
