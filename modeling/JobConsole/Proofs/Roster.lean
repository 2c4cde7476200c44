import JobConsole.Proofs.Pruning
import Mathlib.Data.List.Perm.Subperm

namespace JobConsole

namespace Mailbox

variable {ι : Type} {b : Mailbox ι} {ids : List ι}

def line (b : Mailbox ι) : List ι :=
  b.granted ++ b.waiting

theorem line_grant (h : b.line ⊆ ids) : b.grant.1.line ⊆ ids ∧ b.grant.2.toList ⊆ ids := by
  rcases b.grant_cases with ⟨-, he⟩ | ⟨i, rest, hw, he⟩ <;> rw [he]
  · exact ⟨h, List.nil_subset ids⟩
  · have hl : line { b with granted := b.granted ++ [i], waiting := rest } = b.line := by
      simp [line, hw]
    rw [hl]
    refine ⟨h, fun j hj => h ?_⟩
    rw [Option.toList_some, List.mem_singleton] at hj
    simp [line, hw, hj]

theorem line_take? {t : Taken ι} (h : b.line ⊆ ids) (ht : b.take? = some t) :
    t.mailbox.line ⊆ ids ∧ t.woken.toList ⊆ ids := by
  obtain ⟨rest, -, hm, hw⟩ := take?_eq_some ht
  rw [hm, hw]
  exact line_grant (b := { b with items := rest }) h

variable [DecidableEq ι]

theorem line_leave (h : b.line ⊆ ids) (i : ι) :
    (b.leave i).1.line ⊆ ids ∧ (b.leave i).2.toList ⊆ ids := by
  unfold leave
  split
  · refine line_grant (b := { b with granted := b.granted.erase i }) fun j hj => h ?_
    exact (List.erase_sublist.append_right b.waiting).subset hj
  · refine ⟨fun j hj => h ?_, List.nil_subset ids⟩
    exact (List.erase_sublist.append_left b.granted).subset hj

end Mailbox

namespace LineReader

variable {ι : Type} [DecidableEq ι] {r : LineReader ι} {ids : List ι}

omit [DecidableEq ι] in
theorem woken_release (h : r.waiting ⊆ ids) : r.release.2.toList ⊆ ids := by
  unfold release
  cases hw : r.waiting with
  | nil => exact List.nil_subset ids
  | cons i rest =>
    rw [hw] at h
    intro j hj
    rw [List.head?_cons, Option.toList_some, List.mem_singleton] at hj
    exact h (hj ▸ List.mem_cons_self)

theorem line_resume_subset (h : r.line ⊆ ids) {i : ι} (hi : i ∈ ids) :
    (r.resume i).reader.line ⊆ ids ∧ (r.resume i).woken.toList ⊆ ids := by
  have hwaiting : r.waiting ⊆ ids := fun j hj => h (List.mem_append_right _ hj)
  have hr := resume_resumption r i
  generalize r.resume i = p at hr ⊢
  cases hr with
  | stalled _ _ ho hw =>
    refine ⟨fun j hj => ?_, List.nil_subset ids⟩
    rw [line, ho, hw, Option.toList_some, List.singleton_append, List.mem_cons] at hj
    exact hj.elim (· ▸ hi) (hwaiting ·)
  | done _ hw => exact ⟨line_release _ ▸ hw ▸ hwaiting, woken_release (hw ▸ hwaiting)⟩
  | inLine => exact ⟨h, List.nil_subset ids⟩
  | join =>
    refine ⟨fun j hj => ?_, List.nil_subset ids⟩
    rw [line, ← List.append_assoc, List.mem_append, List.mem_singleton] at hj
    exact hj.elim (h ·) (· ▸ hi)

theorem line_abandon_subset (h : r.line ⊆ ids) (i : ι) :
    (r.abandon i).1.line ⊆ ids ∧ (r.abandon i).2.toList ⊆ ids := by
  refine ⟨line_abandon r i ▸ List.Subset.trans List.erase_subset h, ?_⟩
  unfold abandon
  split
  · exact woken_release fun j hj => h (List.mem_append_right _ hj)
  · exact List.nil_subset ids

end LineReader

namespace Console

def roster (c : Console) : List TaskId :=
  [.printer, .signalWatch, .keywordWatch, .ticker] ++
    (List.range c.producers.length).map TaskId.producer

theorem length_roster (c : Console) : c.roster.length = c.taskCount := by
  simp only [roster, taskCount, List.length_append, List.length_cons, List.length_nil,
    List.length_map, List.length_range]
  omega

/-- These are the tasks of a console: nobody else is anywhere in it, and nobody can run twice. -/
structure Enrolled (ids : List TaskId) (c : Console) : Prop where
  roster : c.roster = ids
  distinct : c.ready.Nodup
  ready : c.ready ⊆ ids
  parked : c.parked ⊆ ids
  timers : c.timers.map Timer.task ⊆ ids
  mailbox : c.mailbox.line ⊆ ids
  readers : c.reader.line ⊆ ids

variable {c d : Console} {ids : List TaskId} {id : TaskId} {a : Activity} {s : Statement} {w : Wait}
  {stage : Stage} {note : Outcome → Event} {pace : Pace} {more : Bool}

theorem mem_roster_of_watchers (hi : id ∈ watchers) : id ∈ c.roster := by
  simp only [watchers, List.mem_cons, List.not_mem_nil, or_false] at hi
  rcases hi with rfl | rfl | rfl <;> simp [Console.roster]

theorem mem_roster_of_activity? (h : c.activity? id = some a) : id ∈ c.roster := by
  cases id with
  | ticker => exact mem_roster_of_watchers (by simp [watchers])
  | producer n =>
    rw [activity?, Option.join_eq_some_iff] at h
    have hn : n < c.producers.length := (List.getElem?_eq_some_iff.1 h).1
    exact List.mem_append_right _ (List.mem_map_of_mem (List.mem_range.2 hn))
  | _ => cases h

theorem roster_congr (h : d.producers.length = c.producers.length) : d.roster = c.roster := by
  rw [roster, roster, h]

theorem nodup_foldl_enlist (ids : List TaskId) :
    ∀ {ready : List TaskId}, ready.Nodup → (ids.foldl enlist ready).Nodup := by
  induction ids with
  | nil => exact fun h => h
  | cons i ids ih => exact fun h => ih (nodup_enlist i h)

namespace Enrolled

theorem length_ready (h : Enrolled ids c) : c.ready.length ≤ c.taskCount := by
  rw [← length_roster, h.roster]
  exact (List.subperm_of_subset h.distinct h.ready).length_le

theorem watchers (h : Enrolled ids c) : Console.watchers ⊆ ids :=
  fun _ hi => h.roster ▸ mem_roster_of_watchers hi

theorem ticker (h : Enrolled ids c) : .ticker ∈ ids :=
  h.watchers (by simp [Console.watchers])

theorem printer (h : Enrolled ids c) : .printer ∈ ids :=
  h.roster ▸ List.mem_cons_self

theorem active (h : Enrolled ids c) (ha : c.activity? id = some a) : id ∈ ids :=
  h.roster ▸ mem_roster_of_activity? ha

/-! What does not bring in anybody. -/

theorem setProducers {producers : List (Option Activity)} (h : Enrolled ids c)
    (hl : producers.length = c.producers.length) : Enrolled ids { c with producers } :=
  { h with roster := (roster_congr (c := c) hl).trans h.roster }

theorem setReady {ready : List TaskId} (h : Enrolled ids c) (hn : ready.Nodup) (hr : ready ⊆ ids) :
    Enrolled ids { c with ready } :=
  { h with distinct := hn, ready := hr }

theorem record (h : Enrolled ids c) (e : Event) : Enrolled ids (c.record e) :=
  { h with }

theorem log (h : Enrolled ids c) (x : Diagnostic) : Enrolled ids (c.log x) :=
  h.record _

theorem wakeAll {woken : List TaskId} (h : Enrolled ids c) (hw : woken ⊆ ids) :
    Enrolled ids (c.wakeAll woken) :=
  h.setReady (nodup_foldl_enlist woken h.distinct)
    fun _ hi => (mem_foldl_enlist.1 hi).elim (h.ready ·) (hw ·)

theorem wake (h : Enrolled ids c) (hi : id ∈ ids) : Enrolled ids (c.wake id) :=
  h.setReady (nodup_enlist id h.distinct) fun _ hj => (mem_enlist.1 hj).elim (h.ready ·) (· ▸ hi)

theorem wakeReceiver (h : Enrolled ids c) : Enrolled ids c.wakeReceiver := by
  have hw := h.wake h.printer
  unfold Console.wakeReceiver
  split
  · exact hw
  · exact h

theorem letGo (h : Enrolled ids c) : Enrolled ids c.letGo := by
  have hw := h.wakeReceiver
  unfold Console.letGo
  split
  · exact h
  · exact hw

theorem setActivity (h : Enrolled ids c) (id : TaskId) (a : Activity) :
    Enrolled ids (c.setActivity id a) := by
  cases id with
  | producer n => exact h.setProducers (List.length_set ..)
  | ticker => exact { h with }
  | _ => exact h

theorem setWait (h : Enrolled ids c) (id : TaskId) (w : Wait) : Enrolled ids (c.setWait id w) := by
  unfold Console.setWait
  split
  · exact h.setActivity _ _
  · exact h

theorem mem_of_expects {slot : ReplySlot} (h : Enrolled ids c) (he : c.expects slot = true) :
    slot.asker ∈ ids := by
  obtain ⟨a, ha, -⟩ := c.expects_eq_true slot he
  exact h.active ha

theorem hangUp (h : Enrolled ids c) (slot : ReplySlot) : Enrolled ids (c.hangUp slot) := by
  unfold Console.hangUp
  split
  · rename_i he
    exact (h.setWait _ _).wake (h.mem_of_expects he)
  · exact h

theorem answer (h : Enrolled ids c) (slot : ReplySlot) (line : String) :
    Enrolled ids (c.answer slot line) := by
  unfold Console.answer
  split
  · rename_i he
    exact (h.setWait _ _).wake (h.mem_of_expects he)
  · exact h.log _

theorem hangUpOn (h : Enrolled ids c) (m : Message) : Enrolled ids (c.hangUpOn m) := by
  cases m with
  | prompt text slot => exact h.hangUp slot
  | _ => exact h

theorem discardAll (ms : List Message) : ∀ {c : Console}, Enrolled ids c →
    Enrolled ids (ms.foldl (fun c m => (c.record (.discarded m)).hangUpOn m) c) := by
  induction ms with
  | nil => exact fun h => h
  | cons m ms ih => exact fun h => ih ((h.record _).hangUpOn m)

theorem discard (h : Enrolled ids c) : Enrolled ids c.discard :=
  discardAll _ { h with }

/-! Small steps of statements. -/

theorem park (h : Enrolled ids c) (hi : id ∈ ids) : Enrolled ids (c.park id) := by
  unfold Console.park
  split
  · exact h
  · refine { h with parked := fun i hp => ?_ }
    exact (List.mem_append.1 hp).elim (h.parked ·) fun hp => List.mem_singleton.1 hp ▸ hi

theorem setTimer {t : Timer} (h : Enrolled ids c) (hi : t.task ∈ ids) :
    Enrolled ids (c.setTimer t) := by
  refine { h with timers := fun i ht => ?_ }
  obtain ⟨u, hu, rfl⟩ := List.mem_map.1 ht
  rcases List.mem_append.1 hu with hu | hu
  · exact h.timers (List.mem_map_of_mem ((List.takeWhile_prefix _).subset hu))
  · rcases List.mem_cons.1 hu with rfl | hu
    · exact hi
    · exact h.timers (List.mem_map_of_mem ((List.dropWhile_suffix _).subset hu))

theorem station (h : Enrolled ids c) (signals keyword : Bool) :
    Enrolled ids (c.station signals keyword) := by
  have hsignals : Enrolled ids (Console.wake { c with signalWatch := .registering } .signalWatch) :=
    wake { h with } (h.watchers (by simp [Console.watchers]))
  have hkeyword {c : Console} (h : Enrolled ids c) :
      Enrolled ids (Console.wake { c with keywordWatch := true } .keywordWatch) :=
    wake { h with } (h.watchers (by simp [Console.watchers]))
  cases signals <;> cases keyword
  · exact h
  · exact hkeyword h
  · exact hsignals
  · exact hkeyword hsignals

theorem supervise (h : Enrolled ids c) (k : Nat) (interactive : Bool) :
    Enrolled ids (c.supervise k interactive).1 := by
  cases hs : c.supervision with
  | some s =>
    rw [supervise_lost hs]
    exact h.log _
  | none =>
    rw [supervise_first hs rfl]
    have hc : Enrolled ids { c with supervision := some { job := k }, ticker := .checking } :=
      { h with }
    exact ((hc.station _ _).log _).wake (h.watchers (by simp [Console.watchers]))

theorem deed (h : Enrolled ids c) (hi : id ∈ ids) (hd : Deed c id s w d stage) :
    Enrolled ids d := by
  cases hd with
  | still => exact h
  | @accept m slots mailbox _ _ hb =>
    have hm : Enrolled ids { c with slots, mailbox } := by
      refine { h with mailbox := ?_ }
      cases hb with
      | free => exact h.mailbox
      | granted => exact List.Subset.trans (List.erase_sublist.append_right _).subset h.mailbox
    exact (hm.record _).wakeReceiver
  | @refuse m slots =>
    have hs : Enrolled ids { c with slots } := { h with }
    exact (hs.record _).log _
  | join =>
    refine { h with mailbox := fun i hj => ?_ }
    rw [Mailbox.line, Mailbox.join, ← List.append_assoc, List.mem_append] at hj
    exact hj.elim (h.mailbox ·) fun hj => List.mem_singleton.1 hj ▸ hi
  | park => exact h.park hi
  | supervise => exact h.supervise _ _
  | sleep => exact h.setTimer hi

theorem pursuit (h : Enrolled ids c) (hi : id ∈ ids) (hd : Pursuit c id a note d pace) :
    Enrolled ids d := by
  cases hd with
  | ended => exact h
  | rested _ he | moved _ he | followed _ he =>
    exact (h.deed hi (deed_of_perform he)).setActivity _ _
  | crashed _ he => exact h.deed hi (deed_of_perform he)
  | finished _ he => exact ((h.deed hi (deed_of_perform he)).record _).setActivity _ _

theorem endProducer (h : Enrolled ids c) (n : Nat) : Enrolled ids (c.endProducer n) :=
  letGo (h.setProducers (List.length_set ..))

theorem withdraw (h : Enrolled ids c) (id : TaskId) : Enrolled ids (c.withdraw id) := by
  obtain ⟨hline, hwoken⟩ := Mailbox.line_leave h.mailbox id
  refine wakeAll ⟨h.roster, h.distinct.erase id, List.Subset.trans List.erase_subset h.ready,
    List.Subset.trans List.erase_subset h.parked, fun i hi => h.timers ?_, hline, h.readers⟩ hwoken
  exact (List.filter_sublist.map _).subset hi

/-! Turns. -/

theorem producerTurn {n : Nat} (h : Enrolled ids c) (hd : ProducerTurn c n d more) :
    Enrolled ids d := by
  cases hd with
  | off => exact h
  | on ha hd => exact h.pursuit (h.active ha) hd
  | quit ha hd => exact (h.pursuit (h.active ha) hd).endProducer n

theorem pause (h : Enrolled ids c) : Enrolled ids c.pause :=
  setTimer { h with } h.ticker

theorem offer (h : Enrolled ids c) (r : Request) : Enrolled ids (c.offer r) :=
  { h with }

theorem recover (h : Enrolled ids c) (v : Supervision) (request : Option Request) :
    Enrolled ids (c.recover v request) := by
  cases request with
  | none => exact h.log _
  | some r => exact (h.log _).offer r

theorem beginCall (h : Enrolled ids c) (v : Supervision) : Enrolled ids (c.beginCall v) := by
  obtain ⟨request, supervision, ticker, journal, he⟩ := c.beginCall_eq v
  rw [he]
  exact { h with }

theorem callTurn {v : Supervision} {request : Option Request} (h : Enrolled ids c)
    (hd : CallTurn c v request a d more) : Enrolled ids d := by
  cases hd with
  | on hd => exact h.pursuit h.ticker hd
  | ended hd => exact ((h.pursuit h.ticker hd).record _).pause
  | crashed hd => exact (((h.pursuit h.ticker hd).record _).recover _ _).pause

theorem stopTicker (h : Enrolled ids c) (v : Supervision) : Enrolled ids (c.stopTicker v) := by
  have hw : Enrolled ids { c.withdraw .ticker with ticker := .absent } :=
    { h.withdraw .ticker with }
  exact (hw.log _).letGo

theorem tickerTurn (h : Enrolled ids c) (hd : TickerTurn c d more) : Enrolled ids d := by
  cases hd with
  | off => exact h
  | stop => exact h.stopTicker _
  | call => exact h.beginCall _
  | on _ _ _ hd hp => exact h.callTurn (.on hd hp)
  | ended _ _ _ hd => exact h.callTurn (.ended hd)
  | crashed _ _ _ hd => exact h.callTurn (.crashed hd)
  | due => exact { h with }
  | asleep => exact h

theorem signalWatchTurn (h : Enrolled ids c) (hd : SignalWatchTurn c d more) : Enrolled ids d := by
  obtain ⟨request, signalWatch, journal, rfl⟩ := hd.frame
  exact { h with }

theorem resumeRead (h : Enrolled ids c) (hi : id ∈ ids) : Enrolled ids (c.resumeRead id) := by
  obtain ⟨hreaders, hwoken⟩ := LineReader.line_resume_subset h.readers hi
  exact wakeAll { h with readers := hreaders } hwoken

theorem endKeywordWatch (h : Enrolled ids c) : Enrolled ids c.endKeywordWatch := by
  obtain ⟨hreaders, hwoken⟩ := LineReader.line_abandon_subset h.readers .keywordWatch
  exact letGo (wakeAll (c := { c with
    reader := (c.reader.abandon .keywordWatch).1, keywordWatch := false })
      { h with readers := hreaders } hwoken)

theorem keywordWatchTurn (h : Enrolled ids c) (hd : KeywordWatchTurn c d more) :
    Enrolled ids d := by
  have hr := h.resumeRead (h.watchers (by simp [Console.watchers]) : .keywordWatch ∈ ids)
  cases hd with
  | off => exact h
  | stop => exact h.endKeywordWatch
  | pending => exact hr
  | keyword => exact (((hr.record _).log _).offer _).endKeywordWatch
  | other => exact hr.record _
  | failed => exact (((hr.record _).log _).record _).endKeywordWatch

theorem closeMailbox (h : Enrolled ids c) : Enrolled ids c.closeMailbox :=
  wakeAll { h with mailbox := List.nil_subset ids }
    fun _ hi => h.mailbox (List.mem_append_right _ hi)

theorem terminate (h : Enrolled ids c) : Enrolled ids c.terminate :=
  wakeAll { h with parked := List.nil_subset ids } (List.append_subset.2 ⟨h.parked, h.watchers⟩)

theorem stopPrinter (h : Enrolled ids c) : Enrolled ids c.stopPrinter := by
  have hs : Enrolled ids { c.closeMailbox.terminate with printer := .stopped } :=
    { h.closeMailbox.terminate with }
  exact (hs.log _).discard

theorem crashPrinter (h : Enrolled ids c) (m : Message) : Enrolled ids (c.crashPrinter m) := by
  have hc : Enrolled ids { c.hangUpOn m with printer := .crashed } := { h.hangUpOn m with }
  exact hc.closeMailbox.discard

theorem take {t : Mailbox.Taken TaskId} (h : Enrolled ids c) (ht : c.mailbox.take? = some t) :
    Enrolled ids (c.take t) := by
  obtain ⟨hline, hwoken⟩ := Mailbox.line_take? h.mailbox ht
  have hm : Enrolled ids { c with mailbox := t.mailbox } := { h with mailbox := hline }
  exact (hm.wakeAll hwoken).record _

theorem shown (h : Enrolled ids c) (kind : Kind) (r : Display.Drawn) :
    Enrolled ids (c.shown kind r) := by
  obtain ⟨display, journal, he⟩ := c.shown_eq kind r
  rw [he]
  exact { h with }

theorem printerTurn (h : Enrolled ids c) (hd : PrinterTurn c d more) : Enrolled ids d := by
  have hr := h.resumeRead h.printer
  cases hd with
  | gone | idle => exact h
  | deserted | left => exact h.stopPrinter
  | choked _ hm => exact (h.take hm).crashPrinter _
  | told _ hm => exact (h.take hm).shown _ _
  | asked _ hm => exact { (h.take hm).shown _ _ with }
  | @exited t r code _ hm =>
    exact { (((h.take hm).shown t.message.kind r).log (.exiting code)).record
      (.ending .printer (.exit code)) with }
  | pending => exact hr
  | @heard slot line => exact { (hr.record (.read .printer (.ok line))).answer slot line with }
  | @failed slot failure =>
    exact { (((hr.record (.read .printer (.error failure))).log (.answerFailed failure)).record
      (.ending .printer (.abort failure))).hangUp slot with }

theorem turn (h : Enrolled ids c) (id : TaskId) : Enrolled ids (c.turn id).1 := by
  cases id with
  | printer => exact h.printerTurn (printerTurn_cases c)
  | signalWatch => exact h.signalWatchTurn (signalWatchTurn_cases c)
  | keywordWatch => exact h.keywordWatchTurn (keywordWatchTurn_cases c)
  | ticker => exact h.tickerTurn (tickerTurn_cases c)
  | producer n => exact h.producerTurn (producerTurn_cases c n)

theorem step (h : Enrolled ids c) (id : TaskId) : Enrolled ids (c.step id) := by
  have ht := h.turn id
  unfold Console.step
  dsimp only
  split
  · exact ht
  · exact ht.setReady (ht.distinct.erase id) (List.Subset.trans List.erase_subset ht.ready)

theorem settle (h : Enrolled ids c) : Enrolled ids c.settle :=
  settle_induction (fun _ id h _ => h.step id) h

theorem work (h : Enrolled ids c) (id : TaskId) : Enrolled ids (c.work id) := by
  rcases c.work_cases id with ⟨v, request, a, -, -, -, he⟩ | ⟨-, he⟩ <;> rw [he]
  · exact h.callTurn (callTurn_cases c v request a)
  · have hc : Enrolled ids { c with terminated := false } := { h with }
    exact { hc.turn id with }

/-! What comes from outside. -/

theorem ring (h : Enrolled ids c) (time : Nat) : Enrolled ids (c.ring time) := by
  have hf (p : Timer → Bool) : (c.timers.filter p).map Timer.task ⊆ ids :=
    List.Subset.trans (List.filter_sublist.map _).subset h.timers
  exact wakeAll { h with timers := hf _ } (hf _)

theorem roster_spawn (c : Console) (p : Program) :
    (c.spawn p).roster = c.roster ++ [.producer c.producers.length] := by
  have hl : (c.spawn p).producers.length = c.producers.length + 1 := List.length_append ..
  rw [Console.roster, Console.roster, hl, List.range_succ, List.map_append, List.map_singleton,
    List.append_assoc]

theorem spawn (h : Enrolled ids c) (p : Program) :
    Enrolled (ids ++ [.producer c.producers.length]) (c.spawn p) := by
  have hs : ids ⊆ ids ++ [.producer c.producers.length] := List.subset_append_left ..
  refine ⟨h.roster ▸ roster_spawn c p, nodup_enlist _ h.distinct, fun i hi => ?_,
    List.Subset.trans h.parked hs, List.Subset.trans h.timers hs,
    List.Subset.trans h.mailbox hs, List.Subset.trans h.readers hs⟩
  exact List.mem_append.2 ((mem_enlist.1 hi).imp (h.ready ·) List.mem_singleton.2)

theorem wakeReader (h : Enrolled ids c) : Enrolled ids c.wakeReader :=
  h.wakeAll fun _ hi => h.readers (List.mem_append_left _ hi)

theorem kill (h : Enrolled ids c) (n : Nat) : Enrolled ids (c.kill n) := by
  unfold Console.kill
  split
  · exact h
  · exact (h.withdraw _).endProducer n

theorem raise (h : Enrolled ids c) (s : Signal) : Enrolled ids (c.raise s) := by
  unfold Console.raise
  split
  · exact wake { h with } (h.watchers (by simp [Console.watchers]))
  · exact h

theorem act (h : Enrolled ids c) (m : Move) : ∃ ids', Enrolled ids' (c.act m) := by
  cases m with
  | spawn p => exact ⟨_, h.spawn p⟩
  | step id => exact ⟨ids, h.step id⟩
  | pass time => exact ⟨ids, h.ring time⟩
  | kill n => exact ⟨ids, h.kill n⟩
  | feed p =>
    have hs : Enrolled ids { c with reader.source := c.reader.source.feed p } := { h with }
    exact ⟨ids, hs.wakeReader⟩
  | close =>
    have hs : Enrolled ids { c with reader.source := c.reader.source.close } := { h with }
    exact ⟨ids, hs.wakeReader⟩
  | raise s => exact ⟨ids, h.raise s⟩
  | setSink s => exact ⟨ids, { h with }⟩
  | start k interactive => exact ⟨ids, (h.supervise k interactive).record _⟩
  | deafen cause => exact ⟨ids, { h with }⟩
  | release =>
    have hr : Enrolled ids { c with hosted := false } := { h with }
    exact ⟨ids, hr.letGo⟩

end Enrolled

theorem Attainable.enrolled (h : c.Attainable) : Enrolled c.roster c := by
  suffices hs : ∃ ids, Enrolled ids c by
    obtain ⟨ids, hs⟩ := hs
    exact hs.roster ▸ hs
  apply h.invariant (P := fun c => ∃ ids, Enrolled ids c)
  · intro settings jobs source sink c₀ h₀
    obtain ⟨-, rfl⟩ := new?_eq_some.1 h₀
    exact ⟨_, rfl, List.pairwise_singleton .., by simp [Console.roster], List.nil_subset _,
      List.nil_subset _, List.nil_subset _, List.nil_subset _⟩
  · rintro c m - - ⟨ids, hc⟩
    exact hc.act m
  · rintro c id - - - - ⟨ids, hc⟩
    exact ⟨ids, hc.work id⟩

end Console

end JobConsole
