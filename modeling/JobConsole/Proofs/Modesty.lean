import JobConsole.Proofs.Unplugging
import JobConsole.Proofs.Overflow

namespace JobConsole

def Message.isModest : Message → Bool
  | progress text => text.toList.length ≤ Display.widestPad
  | _ => true

def Statement.isModest : Statement → Bool
  | progress text => text.toList.length ≤ Display.widestPad
  | _ => true

def Program.isModest (p : Program) : Bool :=
  p.all Statement.isModest

def Wait.isModest : Wait → Bool
  | room m => m.isModest
  | _ => true

def Activity.isModest (a : Activity) : Bool :=
  Program.isModest a.program && a.wait.isModest

def Job.IsModest (j : Job) : Prop :=
  ∀ t request, Program.isModest (j.call t request)

theorem Display.line_of_draw {d : Display} {kind : Kind} {text : String} {r : Drawn}
    (h : d.draw kind text = some r) :
    r.display.line = d.line ∨ r.display.line = nextLine d.line text kind := by
  obtain ⟨cells, -, rfl⟩ := Option.map_eq_some_iff.1 h
  dsimp only
  split
  · exact .inr rfl
  · exact .inl rfl

namespace Console

structure Modest (c : Console) : Prop where
  jobs : ∀ j ∈ c.jobs, j.IsModest
  activities : ∀ id a, c.activity? id = some a → a.isModest
  items : ∀ m ∈ c.mailbox.items, m.isModest
  line : c.display.line.toList.length ≤ Display.widestPad

variable {c d : Console} {id : TaskId} {a : Activity} {s : Statement} {rest : Program} {w : Wait}
  {m : Message} {stage : Stage} {note : Outcome → Event} {pace : Pace} {more : Bool}

theorem isModest_message? {slot : ReplySlot} (hs : s.isModest) (hm : s.message? slot = some m) :
    m.isModest := by
  cases s <;> cases hm <;> first | rfl | exact hs

theorem isModest_followUp {o : Outcome} {next : Statement} (h : s.followUp o = some next) :
    next.isModest := by
  unfold Statement.followUp at h
  split at h
  · cases h
    rfl
  · split at h <;> cases h
    rfl
  · cases h

theorem isModest_sending? (hs : s.isModest) (hw : w.isModest) (hm : c.sending? id s w = some m) :
    m.isModest := by
  cases w with
  | fresh => exact isModest_message? hs hm
  | room m' =>
    cases hm
    exact hw
  | _ => cases hm

theorem isModest_cons (h : Program.isModest (s :: rest)) : s.isModest ∧ Program.isModest rest := by
  simpa [Program.isModest] using h

theorem isModest_activity : a.isModest ↔ Program.isModest a.program ∧ a.wait.isModest := by
  simp [Activity.isModest]

theorem isModest_call (h : c.Modest) (k : Nat) (t : Tally) (request : Option Request) :
    Program.isModest ((c.job k).call t request) := by
  unfold job
  cases hj : c.jobs[k]? with
  | none => cases request <;> rfl
  | some j => exact h.jobs j (List.mem_of_getElem? hj) t request

theorem activity?_setActivity {i : TaskId} {b : Activity}
    (h : (c.setActivity id a).activity? i = some b) : b = a ∨ c.activity? i = some b := by
  cases id with
  | producer n =>
    cases i with
    | producer k =>
      simp only [setActivity, activity?, List.getElem?_set, Option.join_eq_some_iff] at h ⊢
      split at h
      · split at h
        · exact .inl (Option.some.inj (Option.some.inj h)).symm
        · cases h
      · exact .inr h
    | ticker => exact .inr h
    | _ => cases h
  | ticker =>
    cases i with
    | ticker =>
      simp only [setActivity, activity?] at h ⊢
      cases hk : c.ticker with
      | calling request b' =>
        rw [hk] at h
        exact .inl (Option.some.inj h).symm
      | _ =>
        rw [hk] at h
        cases h
    | producer k => exact .inr h
    | _ => cases h
  | _ => exact .inr h

namespace Modest

/-- What lets go of messages and activities, and leaves the progress line as it is. -/
theorem less (h : c.Modest) (hj : d.jobs = c.jobs)
    (ha : ∀ id a, d.activity? id = some a → c.activity? id = some a)
    (hi : d.mailbox.items ⊆ c.mailbox.items) (hl : d.display.line = c.display.line) : d.Modest :=
  ⟨hj ▸ h.jobs, fun id a hd => h.activities id a (ha id a hd), fun m hm => h.items m (hi hm),
    hl ▸ h.line⟩

theorem same (h : c.Modest) (hj : d.jobs = c.jobs) (hp : d.producers = c.producers)
    (ht : d.ticker = c.ticker) (hi : d.mailbox.items = c.mailbox.items)
    (hl : d.display.line = c.display.line) : d.Modest := by
  refine h.less hj (fun id a ha => ?_) (fun m hm => hi ▸ hm) hl
  cases id with
  | producer n => rwa [activity?, ← hp]
  | ticker => rwa [activity?, ← ht]
  | _ => cases ha

theorem setActivity (h : c.Modest) (id : TaskId) (ha : a.isModest) :
    (c.setActivity id a).Modest := by
  refine ⟨?_, fun i b hb => ?_, ?_, ?_⟩
  · cases id <;> exact h.jobs
  · rcases activity?_setActivity hb with rfl | hb
    · exact ha
    · exact h.activities i b hb
  · cases id <;> exact h.items
  · cases id <;> exact h.line

/-! Statements. -/

theorem idle (h : c.Modest) (hj : d.jobs = c.jobs) (hp : d.producers = c.producers)
    (ht : d.ticker.activity? = none) (hi : d.mailbox.items = c.mailbox.items)
    (hl : d.display.line = c.display.line) : d.Modest := by
  refine h.less hj (fun id a ha => ?_) (fun m hm => hi ▸ hm) hl
  cases id with
  | producer n => rwa [activity?, ← hp]
  | ticker =>
    rw [activity?, ht] at ha
    cases ha
  | _ => cases ha

theorem supervise {k : Nat} {interactive first : Bool} (h : c.Modest)
    (hd : Supervised c k interactive d first) : d.Modest := by
  cases hd with
  | already => exact h.same rfl rfl rfl rfl rfl
  | started => exact h.idle rfl rfl rfl rfl rfl

theorem deed (h : c.Modest) (hs : s.isModest) (hw : w.isModest) (hd : Deed c id s w d stage) :
    d.Modest ∧ ∀ w', stage = .blocked w' ∨ stage = .moving w' → w'.isModest := by
  have hsent {accepted : Bool} {m : Message} {w' : Wait} (hw' : afterSend accepted m = .blocked w' ∨
      afterSend accepted m = .moving w') : w'.isModest := by
    cases m <;> cases accepted <;> rcases hw' with hw' | hw' <;> cases hw' <;> rfl
  cases hd with
  | still hd =>
    refine ⟨h, fun w' hw' => ?_⟩
    cases hd with
    | unserved =>
      rcases hw' with hw' | hw' <;> cases hw'
      exact hw
    | _ => rcases hw' with hw' | hw' <;> cases hw' <;> rfl
  | @accept m slots mailbox hm _ hb =>
    have hi : mailbox.items = c.mailbox.items ++ [m] := by cases hb <;> rfl
    refine ⟨⟨h.jobs, h.activities, fun x hx => ?_, h.line⟩, fun w' => hsent⟩
    change x ∈ mailbox.items at hx
    rw [hi] at hx
    rcases List.mem_append.1 hx with hx | hx
    · exact h.items x hx
    · rw [List.mem_singleton.1 hx]
      exact isModest_sending? hs hw hm
  | refuse => exact ⟨h.same rfl rfl rfl rfl rfl, fun w' => hsent⟩
  | join _ hm =>
    refine ⟨h.same rfl rfl rfl rfl rfl, fun w' hw' => ?_⟩
    rcases hw' with hw' | hw' <;> cases hw'
    exact isModest_sending? hs hw hm
  | park hp =>
    obtain ⟨parked, he⟩ := c.park_eq id
    refine ⟨he ▸ h.same rfl rfl rfl rfl rfl, fun w' hw' => ?_⟩
    rcases hw' with hw' | hw' <;> cases hw'
    rcases hp with rfl | rfl <;> rfl
  | @supervise k interactive =>
    refine ⟨?_, fun w' hw' => by rcases hw' with hw' | hw' <;> cases hw'⟩
    exact h.supervise (c.supervise_cases k interactive)
  | sleep =>
    refine ⟨h.same rfl rfl rfl rfl rfl, fun w' hw' => ?_⟩
    rcases hw' with hw' | hw' <;> cases hw'
    rfl

theorem pursuit (h : c.Modest) (ha : a.isModest) (hd : Pursuit c id a note d pace) :
    d.Modest := by
  obtain ⟨hp, hw⟩ := isModest_activity.1 ha
  have hperform {s : Statement} {rest : Program} {d : Console} {stage : Stage}
      (hs : a.program = s :: rest) (he : c.perform id s a.wait = (d, stage)) : d.Modest ∧
        Program.isModest rest ∧ ∀ w, stage = .blocked w ∨ stage = .moving w → w.isModest := by
    rw [hs] at hp
    obtain ⟨hs, hrest⟩ := isModest_cons hp
    exact (h.deed hs hw (deed_of_perform he)).imp_right fun hw => ⟨hrest, hw⟩
  cases hd with
  | ended => exact h
  | rested hs he =>
    obtain ⟨hd, -, hw⟩ := hperform hs he
    exact hd.setActivity id (isModest_activity.2 ⟨hp, hw _ (.inl rfl)⟩)
  | moved hs he =>
    obtain ⟨hd, -, hw⟩ := hperform hs he
    exact hd.setActivity id (isModest_activity.2 ⟨hp, hw _ (.inr rfl)⟩)
  | crashed hs he => exact (hperform hs he).1
  | followed hs he hf =>
    obtain ⟨hd, hrest, -⟩ := hperform hs he
    refine hd.setActivity id (isModest_activity.2 ⟨?_, rfl⟩)
    exact List.all_cons.trans (Bool.and_eq_true_iff.2 ⟨isModest_followUp hf, hrest⟩)
  | @finished _ _ d o hs he =>
    obtain ⟨hd, hrest, -⟩ := hperform hs he
    have hn : (d.record (note o)).Modest := hd.same rfl rfl rfl rfl rfl
    exact hn.setActivity id (isModest_activity.2 ⟨hrest, rfl⟩)

theorem endProducer (h : c.Modest) (n : Nat) : (c.endProducer n).Modest := by
  refine h.less rfl (fun id a ha => ?_) (fun _ hm => hm) rfl
  cases id with
  | producer k =>
    simp only [activity?, Console.endProducer, letGo, List.getElem?_set,
      Option.join_eq_some_iff] at ha ⊢
    split at ha
    · split at ha <;> cases ha
    · exact ha
  | ticker => exact ha
  | _ => cases ha

theorem producerTurn {n : Nat} (h : c.Modest) (hd : ProducerTurn c n d more) : d.Modest := by
  cases hd with
  | off => exact h
  | on ha hd => exact h.pursuit (h.activities _ _ ha) hd
  | quit ha hd => exact (h.pursuit (h.activities _ _ ha) hd).endProducer n

/-! The ticker and the watches. -/

theorem callTurn {v : Supervision} {request : Option Request} (h : c.Modest)
    (hk : c.ticker = .calling request a) (hd : CallTurn c v request a d more) : d.Modest := by
  have ha : a.isModest := h.activities .ticker a (by rw [activity?, hk]; rfl)
  cases hd with
  | on hd => exact h.pursuit ha hd
  | ended hd => exact (h.pursuit ha hd).idle rfl rfl rfl rfl rfl
  | crashed hd => cases request <;> exact (h.pursuit ha hd).idle rfl rfl rfl rfl rfl

theorem beginCall (h : c.Modest) (v : Supervision) : (c.beginCall v).Modest := by
  obtain ⟨-, -, hk⟩ := c.beginCall_spec v
  obtain ⟨request, supervision, ticker, journal, he⟩ := c.beginCall_eq v
  rw [he] at hk ⊢
  refine ⟨h.jobs, fun id a ha => ?_, h.items, h.line⟩
  cases id with
  | ticker =>
    rw [activity?, hk] at ha
    cases ha
    exact isModest_activity.2 ⟨isModest_call h _ _ _, rfl⟩
  | producer n => exact h.activities (.producer n) a ha
  | _ => cases ha

theorem tickerTurn (h : c.Modest) (hd : TickerTurn c d more) : d.Modest := by
  cases hd with
  | off => exact h
  | stop => exact h.idle rfl rfl rfl (c.mailbox.leave_items .ticker).1 rfl
  | call => exact h.beginCall _
  | on _ hk _ hd hp => exact h.callTurn hk (.on hd hp)
  | ended _ hk _ hd => exact h.callTurn hk (.ended hd)
  | crashed _ hk _ hd => exact h.callTurn hk (.crashed hd)
  | due => exact h.idle rfl rfl rfl rfl rfl
  | asleep => exact h

theorem signalWatchTurn (h : c.Modest) (hd : SignalWatchTurn c d more) : d.Modest := by
  cases hd <;> exact h.same rfl rfl rfl rfl rfl

theorem endKeywordWatch (h : c.Modest) : c.endKeywordWatch.Modest :=
  h.same rfl rfl rfl rfl rfl

theorem keywordWatchTurn (h : c.Modest) (hd : KeywordWatchTurn c d more) : d.Modest := by
  have hr (result : Except Failure String) :
      ((c.resumeRead .keywordWatch).record (.read .keywordWatch result)).Modest :=
    h.same rfl rfl rfl rfl rfl
  cases hd with
  | off => exact h
  | stop => exact h.endKeywordWatch
  | pending => exact h.same rfl rfl rfl rfl rfl
  | @keyword line =>
    have ho : ((((c.resumeRead .keywordWatch).record (.read .keywordWatch (.ok line))).log
        .keywordReceived).offer .keyword).Modest := (hr (.ok line)).same rfl rfl rfl rfl rfl
    exact ho.endKeywordWatch
  | other => exact hr _
  | @failed failure =>
    have he : ((((c.resumeRead .keywordWatch).record
        (.read .keywordWatch (.error failure))).log (.watchFailed failure)).record
          (.ending .keywordWatch (.abort failure))).Modest :=
      (hr (.error failure)).same rfl rfl rfl rfl rfl
    exact he.endKeywordWatch

/-! The printer. -/

theorem setWait (h : c.Modest) (ha : c.activity? id = some a) (hw : w.isModest) :
    (c.setActivity id { a with wait := w }).Modest :=
  h.setActivity id (isModest_activity.2 ⟨(isModest_activity.1 (h.activities id a ha)).1, hw⟩)

theorem hangUp (h : c.Modest) (slot : ReplySlot) : (c.hangUp slot).Modest := by
  rcases c.hangUp_cases slot with ⟨-, he⟩ | ⟨a, ha, -, he⟩ <;> rw [he]
  · exact h
  · exact (h.setWait ha rfl).same rfl rfl rfl rfl rfl

theorem answer (h : c.Modest) (slot : ReplySlot) (line : String) :
    (c.answer slot line).Modest := by
  rcases c.answer_cases slot line with ⟨-, he⟩ | ⟨a, ha, -, he⟩ <;> rw [he]
  · exact h.same rfl rfl rfl rfl rfl
  · exact (h.setWait ha rfl).same rfl rfl rfl rfl rfl

theorem hangUpOn (h : c.Modest) (m : Message) : (c.hangUpOn m).Modest := by
  cases m with
  | prompt text slot => exact h.hangUp slot
  | _ => exact h

theorem discardAll (ms : List Message) : ∀ {c : Console}, c.Modest →
    (ms.foldl (fun c m => (c.record (.discarded m)).hangUpOn m) c).Modest := by
  induction ms with
  | nil => exact fun h => h
  | cons m ms ih =>
    intro c h
    have hr : (c.record (.discarded m)).Modest := h.same rfl rfl rfl rfl rfl
    exact ih (hr.hangUpOn m)

theorem discard (h : c.Modest) : c.discard.Modest := by
  refine discardAll _ ?_
  exact h.less rfl (fun _ _ ha => ha) (List.nil_subset _) rfl

theorem stopPrinter (h : c.Modest) : c.stopPrinter.Modest :=
  discard (h.same rfl rfl rfl rfl rfl)

theorem crashPrinter (h : c.Modest) (m : Message) : (c.crashPrinter m).Modest :=
  discard ((h.hangUpOn m).same rfl rfl rfl rfl rfl)

theorem take {t : Mailbox.Taken TaskId} (h : c.Modest) (ht : c.mailbox.take? = some t) :
    (c.take t).Modest ∧ t.message.isModest := by
  have hi := (Mailbox.items_of_take? ht).1
  refine ⟨h.less rfl (fun _ _ ha => ha) (fun m hm => ?_) rfl, h.items _ (by simp [hi])⟩
  rw [hi]
  exact List.mem_cons_of_mem _ hm

theorem shown {r : Display.Drawn} (h : c.Modest) (hm : m.isModest)
    (hr : c.display.draw m.kind m.text = some r) : (c.shown m.kind r).Modest := by
  have hl : r.display.line.toList.length ≤ Display.widestPad := by
    rcases Display.line_of_draw hr with hl | hl <;> rw [hl]
    · exact h.line
    · cases m with
      | progress text => exact of_decide_eq_true hm
      | _ => exact h.line
  have hd : (c.shown m.kind r).display = r.display := by
    unfold Console.shown
    split <;> rfl
  obtain ⟨display, journal, he⟩ := c.shown_eq m.kind r
  rw [he] at hd ⊢
  exact ⟨h.jobs, h.activities, h.items, hd ▸ hl⟩

theorem printerTurn (h : c.Modest) (hd : PrinterTurn c d more) : d.Modest := by
  cases hd with
  | gone => exact h
  | idle => exact h
  | deserted => exact h.stopPrinter
  | choked _ ht => exact (h.take ht).1.crashPrinter _
  | told _ ht hr => exact (h.take ht).1.shown (h.take ht).2 hr
  | asked _ ht hr => exact ((h.take ht).1.shown (h.take ht).2 hr).same rfl rfl rfl rfl rfl
  | exited _ ht hr => exact ((h.take ht).1.shown (h.take ht).2 hr).same rfl rfl rfl rfl rfl
  | pending => exact h.same rfl rfl rfl rfl rfl
  | @heard slot line =>
    have hr : ((c.resumeRead .printer).record (.read .printer (.ok line))).Modest :=
      h.same rfl rfl rfl rfl rfl
    exact (hr.answer slot line).same rfl rfl rfl rfl rfl
  | @failed slot failure =>
    have hr : ((((c.resumeRead .printer).record (.read .printer (.error failure))).log
        (.answerFailed failure)).record (.ending .printer (.abort failure))).Modest :=
      h.same rfl rfl rfl rfl rfl
    exact (hr.hangUp slot).same rfl rfl rfl rfl rfl
  | left => exact h.stopPrinter

/-! All strides. -/

theorem turn (h : c.Modest) (id : TaskId) : (c.turn id).1.Modest := by
  cases id with
  | printer => exact h.printerTurn (printerTurn_cases c)
  | signalWatch => exact h.signalWatchTurn (signalWatchTurn_cases c)
  | keywordWatch => exact h.keywordWatchTurn (keywordWatchTurn_cases c)
  | ticker => exact h.tickerTurn (tickerTurn_cases c)
  | producer n => exact h.producerTurn (producerTurn_cases c n)

theorem work (h : c.Modest) (id : TaskId) : (c.work id).Modest := by
  rcases c.work_cases id with ⟨v, request, a, -, -, hk, he⟩ | ⟨-, he⟩ <;> rw [he]
  · exact h.callTurn hk (callTurn_cases c v request a)
  · have hc : Modest { c with terminated := false } := h.same rfl rfl rfl rfl rfl
    exact (hc.turn id).same rfl rfl rfl rfl rfl

theorem spawn {p : Program} (h : c.Modest) (hp : Program.isModest p) : (c.spawn p).Modest := by
  refine ⟨h.jobs, fun id a ha => ?_, h.items, h.line⟩
  cases id with
  | producer n =>
    simp only [activity?, Console.spawn, wake, List.getElem?_append,
      Option.join_eq_some_iff] at ha
    split at ha
    · exact h.activities (.producer n) a (Option.join_eq_some_iff.2 ha)
    · cases hn : n - c.producers.length with
      | zero =>
        rw [hn] at ha
        cases ha
        exact isModest_activity.2 ⟨hp, rfl⟩
      | succ k =>
        rw [hn] at ha
        cases ha
  | ticker => exact h.activities .ticker a ha
  | _ => cases ha

theorem act (h : c.Modest) (m : Move) (hm : ∀ p, m = .spawn p → Program.isModest p) :
    (c.act m).Modest := by
  cases m with
  | step id =>
    obtain ⟨ready, he⟩ := c.turn_eq_step id
    rw [Console.act, he]
    exact (h.turn id).same rfl rfl rfl rfl rfl
  | spawn p => exact h.spawn (hm p rfl)
  | kill n =>
    rw [Console.act, kill]
    split
    · exact h
    · have hi := (c.mailbox.leave_items (.producer n)).1
      have hw : (c.withdraw (.producer n)).Modest := h.same rfl rfl rfl hi rfl
      exact hw.endProducer n
  | raise s =>
    rw [Console.act, raise]
    split
    · exact h.same rfl rfl rfl rfl rfl
    · exact h
  | start k interactive =>
    exact (h.supervise (c.supervise_cases k interactive)).same rfl rfl rfl rfl rfl
  | _ => exact h.same rfl rfl rfl rfl rfl

theorem legible (h : c.Modest) : c.Legible := by
  intro t _
  rw [← Option.ne_none_iff_isSome, ne_eq, Display.draw_eq_none_iff]
  intro ho
  have ho := of_decide_eq_true (Bool.and_eq_true_iff.1 ho).2
  have hl := h.line
  unfold Display.pad at ho
  omega

end Modest

end Console

end JobConsole
