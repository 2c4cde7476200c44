import JobConsole.Proofs.Lone

namespace JobConsole

variable {b : Mailbox TaskId} {p : Printer} {ms : List Message} {m : Message} {w : Option Wait}
  {t : Mailbox.Taken TaskId}

/-! Messages. -/

theorem Backlog.rest (h : Backlog (m :: ms) w) (hm : m.isPlain = true) : Backlog ms w := by
  cases h with
  | asked | exiting => cases hm
  | plain _ h => exact h

theorem Backlog.asks {slot : ReplySlot} (h : Backlog (m :: ms) w) (hm : m.slot? = some slot) :
    ms = [] ∧ slot.asker = soloist ∧ w = some (.reply slot.number) := by
  cases h with
  | asked =>
    cases hm
    exact ⟨rfl, rfl, rfl⟩
  | exiting => cases hm
  | plain hp =>
    cases m with
    | progress | info => cases hm
    | prompt | exit => cases hp

theorem Backlog.exits {code : ExitCode} (h : Backlog (m :: ms) w) (hm : m.code? = some code) :
    ms = [] ∧ w = some .termination := by
  cases h with
  | exiting => exact ⟨rfl, rfl⟩
  | asked => cases hm
  | plain hp =>
    cases m with
    | progress | info => cases hm
    | prompt | exit => cases hp

theorem Message.isPlain_of_none (hs : m.slot? = none) (hc : m.code? = none) : m.isPlain = true := by
  cases m with
  | progress | info => rfl
  | prompt => cases hs
  | exit => cases hc

theorem Queue.take {here here' : Prop} (h : Queue b here w) (ht : b.take? = some t)
    (hh : here → here') (hw : t.woken = some soloist → here') : Queue t.mailbox here' w := by
  obtain ⟨rest, -, hm, hwoken⟩ := Mailbox.take?_eq_some ht
  rw [hm]
  rw [hwoken] at hw
  rcases ({ b with items := rest }).grant_cases with ⟨hi, he⟩ | ⟨i, line, hi, he⟩ <;>
    rw [he] at hw ⊢ <;> dsimp only at hi
  · cases h with
    | idle hg hwt hn => exact .idle hg hwt hn
    | inLine _ hwt => rw [hwt] at hi; cases hi
    | called hg hwt h => exact .called hg hwt (hh h)
    | turned hc hg hwt h => exact .turned hc hg hwt (hh h)
  · cases h with
    | idle _ hwt | called _ hwt | turned _ _ hwt => rw [hwt] at hi; cases hi
    | inLine hg hwt =>
      rw [hwt] at hi
      cases hi
      exact .called (by simp [hg]) rfl (hw rfl)

namespace Console

variable {c d : Console} {here here' : TaskId → Prop} {id : TaskId} {a : Activity} {more : Bool}
  {o o' : Option Activity}

/-! What the producer is told. -/

/-- The producer does what it did, but if it waits for a reply it may have been told one, or that
there is none. -/
inductive Hears (v : Wait) (here : Prop) : Option Activity → Option Activity → Prop
  | same (o : Option Activity) : Hears v here o o
  | told {a : Activity} {n : Nat} (hw : a.wait = .reply n) (h : here) :
      Hears v here (some a) (some { a with wait := v })

theorem soloWait_eq_some {w : Wait} :
    c.soloWait = some w ↔ ∃ a, c.activity? soloist = some a ∧ a.wait = w :=
  Option.map_eq_some_iff

theorem Hears.duty {v : Wait} (h : Hears v (here' soloist) (c.activity? soloist) (some a))
    (hc : Lone here c) (hv : v = .hungUp ∨ ∃ line, v = .replied line)
    (hh : here soloist → here' soloist) (ht : d.timers = c.timers) (hn : d.now = c.now)
    (hp : soloist ∈ c.parked → here' soloist ∨ d.terminated = c.terminated ∧ soloist ∈ d.parked) :
    Duty d (here' soloist) a := by
  generalize ho : c.activity? soloist = o at h
  cases h with
  | same =>
    have hd := hc.duty a ho
    refine ⟨?_, hd.modest, hd.spent, ?_, hd.sends⟩
    · rcases hd.idles with hi | ⟨hne, hi⟩
      · exact .inl (hh hi)
      · unfold Idles
        generalize a.wait = w at hi
        cases w with
        | hungUp | termination =>
          refine (hp hi.2).imp_right fun ⟨ht, hin⟩ => ⟨hne, ht.trans hi.1, hin⟩
        | fresh | replied => exact hi.elim
        | _ => exact .inr ⟨hne, trivial⟩
    · rw [ht, hn]
      exact fun deadline hw => (hd.alarm deadline hw).imp_right (And.imp_left hh)
  | @told a n hw h =>
    have hd := hc.duty a ho
    refine ⟨.inl h, hd.modest, fun hp => ?_, ?_, ?_⟩
    · cases hw.symm.trans (hd.spent hp)
    all_goals
      intro x hx
      rcases hv with rfl | ⟨line, rfl⟩ <;> cases hx

/-! The printer. -/

theorem Lone.shift {v : Wait} (h : Lone (· ∈ c.ready) c) (hs : d.Solitary) (hst : d.Staged)
    (hcap : d.mailbox.capacity = c.mailbox.capacity)
    (hshake : Handshake d.printer d.mailbox.items d.soloWait)
    (hqueue : Queue d.mailbox (soloist ∈ d.ready) d.soloWait)
    (hreader : d.reader.waiting = [] ∧ (d.reader.owner = none ∨ d.reader.owner = some .printer))
    (hprinter : Next d.ready .printer more .printer ∨ d.Stalls)
    (hears : Hears v (soloist ∈ d.ready) (c.activity? soloist) (d.activity? soloist))
    (hv : v = .hungUp ∨ ∃ line, v = .replied line) (hh : soloist ∈ c.ready → soloist ∈ d.ready)
    (ht : d.timers = c.timers) (hn : d.now = c.now)
    (hp : soloist ∈ c.parked →
      soloist ∈ d.ready ∨ d.terminated = c.terminated ∧ soloist ∈ d.parked) :
    Lone (Next d.ready .printer more) d := by
  have hnext : Next d.ready .printer more soloist = (soloist ∈ d.ready) :=
    propext ⟨And.left, fun hi => ⟨hi, nofun⟩⟩
  refine ⟨hs, hst, hcap ▸ h.capacity, hshake, hqueue.enter hnext.mpr, hreader, hprinter, ?_⟩
  intro a ha
  rw [ha] at hears
  rw [hnext]
  have hears' : Hears v ((fun i => i ∈ d.ready) soloist) (c.activity? soloist) (some a) := hears
  exact hears'.duty h hv hh ht hn hp

theorem Lone.drawn {display : Display} {journal : List Entry} (h : Lone (· ∈ c.ready) c)
    (hm : c.mailbox.take? = some t) (hid : .printer ∈ c.ready)
    (hst : Staged { c.take t with display, journal, printer := p })
    (hshake : Handshake p t.mailbox.items c.soloWait) :
    Lone (Next (c.take t).ready .printer true) { c.take t with display, journal, printer := p } := by
  have hready {i : TaskId} (hi : i ∈ c.ready) : i ∈ (c.take t).ready := mem_foldl_enlist.2 (.inl hi)
  have hcap : t.mailbox.capacity = c.mailbox.capacity := by
    obtain ⟨rest, -, ht, -⟩ := Mailbox.take?_eq_some hm
    rw [ht]
    exact ({ c.mailbox with items := rest }).grant_items.2.2
  refine h.shift (d := { c.take t with display, journal, printer := p }) (v := .hungUp)
    { h.solitary with } hst hcap hshake ?_ h.reader (.inl ⟨hready hid, nofun⟩) (.same _) (.inl rfl)
    hready rfl rfl fun hi => .inr ⟨rfl, hi⟩
  refine h.queue.take hm hready fun hw => ?_
  exact mem_foldl_enlist.2 (.inr (by simp [hw]))

theorem Lone.ends {v : Wait} (h : Lone (· ∈ c.ready) c) (hs : d.Solitary) (hst : d.Staged)
    (hcap : d.mailbox.capacity = c.mailbox.capacity) (hshut : d.mailbox.IsShut)
    (hend : d.printer = .stopped ∨ d.printer = .crashed)
    (hw : ∀ n, d.soloWait ≠ some (.reply n)) (hr : d.reader = c.reader)
    (hears : Hears v (soloist ∈ d.ready) (c.activity? soloist) (d.activity? soloist))
    (hv : v = .hungUp ∨ ∃ line, v = .replied line)
    (hh : soloist ∈ c.ready ∨ soloist ∈ c.mailbox.waiting → soloist ∈ d.ready)
    (ht : d.timers = c.timers) (hn : d.now = c.now)
    (hp : soloist ∈ c.parked →
      soloist ∈ d.ready ∨ d.terminated = c.terminated ∧ soloist ∈ d.parked) :
    Lone (Next d.ready .printer false) d := by
  refine h.shift hs hst hcap ?_ ?_ (hr ▸ h.reader) (.inr ?_) hears hv
    (fun hi => hh (.inl hi)) ht hn hp
  · rw [hshut.items]
    exact .ended hend hw
  · by_cases hroom : ∃ m, d.soloWait = some (.room m)
    · obtain ⟨m, hm⟩ := hroom
      have hcw : c.soloWait = some (.room m) := by
        obtain ⟨a, ha, hw⟩ := soloWait_eq_some.1 hm
        rw [ha] at hears
        generalize ho : c.activity? soloist = o at hears
        cases hears with
        | same => exact soloWait_eq_some.2 ⟨a, ho, hw⟩
        | told => rcases hv with rfl | ⟨line, rfl⟩ <;> cases hw
      have hqueue := h.queue
      rw [hcw] at hqueue
      rw [hm]
      refine .turned hshut.closed hshut.granted hshut.waiting (hh ?_)
      cases hqueue with
      | idle _ _ hn => exact absurd rfl (hn m)
      | inLine _ hw => exact .inr (by simp [hw])
      | called _ _ hi | turned _ _ _ hi => exact .inl hi
    · exact .idle hshut.granted hshut.waiting fun m hm => hroom ⟨m, hm⟩
  · rcases hend with he | he <;> simp only [Stalls, he]

theorem stopPrinter_of_nil (hi : c.mailbox.items = []) : c.stopPrinter =
    { c.closeMailbox.terminate with
      printer := .stopped, mailbox := c.mailbox.close.drain
      journal := ⟨c.now, .logged .printerStopped⟩ :: c.journal } := by
  unfold Console.stopPrinter discard
  have hitems : ({ c.closeMailbox.terminate with printer := .stopped }.log
      .printerStopped).mailbox.items = [] := hi
  rw [hitems]
  rfl

theorem Lone.stopPrinter (h : Lone (· ∈ c.ready) c) (hi : c.mailbox.items = [])
    (hw : ∀ n, c.soloWait ≠ some (.reply n)) :
    Lone (Next c.stopPrinter.ready .printer false) c.stopPrinter := by
  have he := stopPrinter_of_nil hi
  have hready {i : TaskId} (hi : (i ∈ c.ready ∨ i ∈ c.mailbox.waiting) ∨ i ∈ c.parked) :
      i ∈ c.closeMailbox.terminate.ready :=
    mem_foldl_enlist.2 (hi.imp mem_foldl_enlist.2 (List.mem_append_left _))
  have hst := staged_stopPrinter c
  rw [he] at hst ⊢
  exact h.ends (v := .hungUp) { h.solitary with } hst rfl (Mailbox.isShut_close_drain _)
    (.inl rfl) hw
    rfl (.same _) (.inl rfl) (fun hi => hready (.inl hi)) rfl rfl fun hi => .inl (hready (.inr hi))

/-- Nothing differs but that a producer that waited for a reply was told that there is none. -/
structure LetsDown (c d : Console) : Prop where
  frame : ∃ producers ready journal, d = { c with producers, ready, journal }
  producers : d.producers.length = c.producers.length
  ready : ∀ i ∈ c.ready, i ∈ d.ready
  hears : Hears .hungUp (soloist ∈ d.ready) (c.activity? soloist) (d.activity? soloist)
  wait : ∀ n, d.soloWait ≠ some (.reply n)

theorem hangUp_soloist {n : Nat} (ha : c.activity? soloist = some a) (hw : a.wait = .reply n) :
    c.hangUp ⟨n, soloist⟩ = (c.setActivity soloist { a with wait := .hungUp }).wake soloist := by
  rcases c.hangUp_cases ⟨n, soloist⟩ with ⟨hn, -⟩ | ⟨b, hb, -, he⟩
  · exact absurd hw (expects_eq_false hn ha)
  · rw [ha] at hb
    cases hb
    exact he

theorem letsDown_hangUp {n : Nat} (hw : c.soloWait = some (.reply n)) :
    LetsDown c (c.hangUp ⟨n, soloist⟩) := by
  obtain ⟨a, ha, hw⟩ := soloWait_eq_some.1 hw
  rw [hangUp_soloist ha hw]
  have hput : ((c.setActivity soloist { a with wait := .hungUp }).wake soloist).activity? soloist =
      some { a with wait := .hungUp } := activity?_put ha _
  have hon : soloist ∈ ((c.setActivity soloist { a with wait := .hungUp }).wake soloist).ready :=
    mem_enlist.2 (.inr rfl)
  refine ⟨⟨_, _, _, rfl⟩, List.length_set .., fun i hi => mem_enlist.2 (.inl hi), ?_, ?_⟩
  · rw [hput, ha]
    exact .told hw hon
  · rw [soloWait_of hput]
    exact nofun

theorem LetsDown.of_wait (hw : ∀ n, c.soloWait ≠ some (.reply n)) (journal : List Entry) :
    LetsDown c { c with journal } :=
  ⟨⟨_, _, _, rfl⟩, rfl, fun _ h => h, .same _, hw⟩

theorem LetsDown.behind {journal : List Entry} (h : LetsDown { c with journal } d) :
    LetsDown c d := by
  obtain ⟨producers, ready, journal', he⟩ := h.frame
  exact ⟨⟨producers, ready, journal', he⟩, h.producers, h.ready, h.hears, h.wait⟩

theorem letsDown_discardAll {w : Option Wait} (hb : Backlog ms w) : ∀ c : Console, c.soloWait = w →
    LetsDown c (ms.foldl (fun c m => (c.record (.discarded m)).hangUpOn m) c) := by
  induction hb with
  | nil hw =>
    intro c hc
    exact .of_wait (hc ▸ hw) c.journal
  | asked =>
    intro c hc
    rw [List.foldl_cons, List.foldl_nil]
    exact LetsDown.behind (letsDown_hangUp hc)
  | exiting =>
    intro c hc
    exact .of_wait (by rw [hc]; exact nofun) _
  | @plain m ms w hm hb ih =>
    intro c hc
    have he : (c.record (.discarded m)).hangUpOn m = c.record (.discarded m) := by
      cases m with
      | progress | info => rfl
      | prompt | exit => cases hm
    rw [List.foldl_cons, he]
    exact LetsDown.behind (ih (c.record (.discarded m)) hc)

theorem crashPrinter_prompt {n : Nat} (hi : c.mailbox.items = [])
    (ha : c.activity? soloist = some a) (hw : a.wait = .reply n) (text : String) :
    c.crashPrinter (.prompt text ⟨n, soloist⟩) =
      { c with
        mailbox := c.mailbox.close.drain, printer := .crashed
        producers := c.producers.set 0 (some { a with wait := .hungUp })
        ready := c.mailbox.waiting.foldl enlist (enlist c.ready soloist) } := by
  have hn : c.hangUpOn (.prompt text ⟨n, soloist⟩) =
      (c.setActivity soloist { a with wait := .hungUp }).wake soloist := hangUp_soloist ha hw
  have hitems : (closeMailbox { (c.setActivity soloist { a with wait := .hungUp }).wake soloist with
      printer := .crashed }).mailbox.items = [] := hi
  unfold crashPrinter
  rw [hn]
  unfold discard
  rw [hitems]
  rfl

theorem letsDown_crashPrinter (hb : Backlog (m :: c.mailbox.items) c.soloWait) :
    LetsDown
      { c with
        mailbox := c.mailbox.close.drain, printer := .crashed
        ready := (c.wakeAll c.mailbox.waiting).ready } (c.crashPrinter m) := by
  have hrest (hn : c.hangUpOn m = c) (hb : Backlog c.mailbox.items c.soloWait) : LetsDown
      { c with
        mailbox := c.mailbox.close.drain, printer := .crashed
        ready := (c.wakeAll c.mailbox.waiting).ready } (c.crashPrinter m) := by
    unfold crashPrinter
    rw [hn]
    exact letsDown_discardAll hb _ rfl
  cases m with
  | prompt text slot =>
    obtain ⟨hnil, hs, hw⟩ := hb.asks rfl
    obtain ⟨n, asker⟩ := slot
    dsimp only at hs hw
    subst hs
    obtain ⟨a, ha, hwait⟩ := soloWait_eq_some.1 hw
    have he := crashPrinter_prompt hnil ha hwait text
    have hput : (c.crashPrinter (.prompt text ⟨n, soloist⟩)).activity? soloist =
        some { a with wait := .hungUp } := by
      rw [he]
      exact activity?_put ha _
    refine ⟨⟨_, _, _, he⟩, ?_, fun i hi => ?_, ?_, ?_⟩
    · rw [he]
      exact List.length_set ..
    · rw [he]
      exact mem_foldl_enlist.2 ((mem_foldl_enlist.1 hi).imp_left fun hi => mem_enlist.2 (.inl hi))
    · rw [hput, he]
      change Hears .hungUp _ (c.activity? soloist) _
      rw [ha]
      exact .told hwait (mem_foldl_enlist.2 (.inl (mem_enlist.2 (.inr rfl))))
    · rw [soloWait_of hput]
      exact nofun
  | exit text code =>
    obtain ⟨hnil, hw⟩ := hb.exits rfl
    rw [hnil, hw] at hrest
    exact hrest rfl (.nil nofun)
  | progress | info => exact hrest rfl (hb.rest rfl)

theorem Lone.backlog (h : Lone here c) (hr : c.printer = .receiving)
    (hm : c.mailbox.take? = some t) : Backlog (t.message :: t.mailbox.items) c.soloWait := by
  have hshake := h.handshake
  rw [hr, (Mailbox.items_of_take? hm).1] at hshake
  cases hshake with
  | taking hb => exact hb

theorem Lone.crashPrinter (h : Lone (· ∈ c.ready) c) (hr : c.printer = .receiving)
    (hm : c.mailbox.take? = some t) :
    Lone (Next ((c.take t).crashPrinter t.message).ready .printer false)
      ((c.take t).crashPrinter t.message) := by
  have hd := letsDown_crashPrinter (c := c.take t) (h.backlog hr hm)
  have ht : Staged ((c.take t).crashPrinter t.message) := by
    cases h.staged with
    | running _ _ _ ht => exact staged_crashPrinter t.message ht
    | stopped hp | crashed hp => rw [hr] at hp; cases hp
  obtain ⟨rest, -, hbox, hwoken⟩ := Mailbox.take?_eq_some hm
  have hready {i : TaskId} (hi : i ∈ c.ready ∨ i ∈ c.mailbox.waiting) :
      i ∈ ((c.take t).crashPrinter t.message).ready := by
    refine hd.ready i (mem_foldl_enlist.2 ?_)
    rcases hi with hi | hi
    · exact .inl (mem_foldl_enlist.2 (.inl hi))
    · rcases (({ c.mailbox with items := rest }).mem_grant i).2.1 hi with hi | hi
      · exact .inr (by rw [← hbox] at hi; exact hi)
      · exact .inl (mem_foldl_enlist.2 (.inr (by simp [hwoken, hi])))
  have hcap : t.mailbox.capacity = c.mailbox.capacity := by
    rw [hbox]
    exact ({ c.mailbox with items := rest }).grant_items.2.2
  obtain ⟨-, hlength, -, hears, hwait⟩ := id hd
  obtain ⟨producers, ready, journal, he⟩ := hd.frame
  generalize (c.take t).crashPrinter t.message = d at *
  subst he
  exact h.ends { h.solitary with producers := hlength.trans_le h.solitary.producers } ht hcap
    (Mailbox.isShut_close_drain _) (.inr rfl) hwait rfl hears (.inl rfl) hready rfl rfl
    fun hi => .inr ⟨rfl, hi⟩

theorem answer_soloist {n : Nat} (ha : c.activity? soloist = some a) (hw : a.wait = .reply n)
    (line : String) : c.answer ⟨n, soloist⟩ line =
      (c.setActivity soloist { a with wait := .replied line }).wake soloist := by
  rcases c.answer_cases ⟨n, soloist⟩ line with ⟨hn, -⟩ | ⟨b, hb, -, he⟩
  · exact absurd hw (expects_eq_false hn ha)
  · rw [ha] at hb
    cases hb
    exact he

theorem Lone.reading {slot : ReplySlot} (h : Lone here c) (hr : c.printer = .reading slot) :
    c.mailbox.items = [] ∧ ∃ a n, slot = ⟨n, soloist⟩ ∧ c.activity? soloist = some a ∧
      a.wait = .reply n := by
  have hshake := h.handshake
  rw [hr] at hshake
  generalize c.mailbox.items = ms, hw : c.soloWait = w at hshake
  cases hshake with
  | reading =>
    obtain ⟨a, ha, hw⟩ := soloWait_eq_some.1 hw
    exact ⟨rfl, a, _, rfl, ha, hw⟩
  | ended hp => rcases hp with hp | hp <;> cases hp

def tell (c : Console) (source : Source) (p : Printer) (journal : List Entry) (a : Activity)
    (v : Wait) : Console :=
  { c with
    reader := { source }, printer := p, journal, ready := enlist c.ready soloist
    producers := c.producers.set 0 (some { a with wait := v }) }

theorem activity?_tell {v : Wait} {source : Source} {journal : List Entry}
    (ha : c.activity? soloist = some a) :
    (c.tell source p journal a v).activity? soloist = some { a with wait := v } :=
  activity?_soloist_set ha _

theorem Lone.tell {n : Nat} {v : Wait} {source : Source} {journal : List Entry}
    (h : Lone (· ∈ c.ready) c) (hid : .printer ∈ c.ready) (hr : c.printer = .reading ⟨n, soloist⟩)
    (ha : c.activity? soloist = some a) (hw : a.wait = .reply n)
    (hv : v = .hungUp ∧ p = .leaving ∨ ∃ line, v = .replied line ∧ p = .receiving) :
    Lone (Next (c.tell source p journal a v).ready .printer true) (c.tell source p journal a v) := by
  have hqueue := h.queue
  have hst := Phase.open h.staged (by rw [hr]; exact nofun) (by rw [hr]; exact nofun)
  rw [soloWait_of ha, hw] at hqueue
  have hput : (c.tell source p journal a v).activity? soloist = some { a with wait := v } :=
    activity?_tell ha
  obtain ⟨hg, hwt⟩ := hqueue.empty nofun
  have hitems := (h.reading hr).1
  have hon : soloist ∈ enlist c.ready soloist := mem_enlist.2 (.inr rfl)
  refine h.shift (v := v) (d := c.tell source p journal a v)
    { h.solitary with producers := (List.length_set ..).trans_le h.solitary.producers } ?_ rfl ?_ ?_
    ⟨rfl, .inl rfl⟩ (.inl ⟨mem_enlist.2 (.inl hid), nofun⟩) ?_ ?_ (fun hi => mem_enlist.2 (.inl hi)) rfl
    rfl fun hi => .inr ⟨rfl, hi⟩
  · rcases hv with ⟨-, rfl⟩ | ⟨line, -, rfl⟩ <;> exact .running nofun nofun hst.1 hst.2
  · rw [soloWait_of hput]
    change Handshake p c.mailbox.items _
    rw [hitems]
    rcases hv with ⟨rfl, rfl⟩ | ⟨line, rfl, rfl⟩
    · exact .leaving (.inl rfl)
    · exact .taking (.nil nofun)
  · rw [soloWait_of hput]
    refine .idle hg hwt fun m hm => ?_
    rcases hv with ⟨rfl, -⟩ | ⟨line, rfl, -⟩ <;> cases hm
  · rw [hput, ha]
    exact .told hw hon
  · exact hv.imp And.left fun ⟨line, hl, _⟩ => ⟨line, hl⟩

theorem Lone.resume (h : Lone here c) : (c.reader.resume .printer).woken = none ∧
    (c.reader.resume .printer).reader.waiting = [] ∧
      match (c.reader.resume .printer).result with
      | none => (c.reader.resume .printer).reader.Silent ∧
          (c.reader.resume .printer).reader.owner = some .printer
      | some _ => (c.reader.resume .printer).reader =
          { source := (c.reader.resume .printer).reader.source } := by
  obtain ⟨hw, ho⟩ := h.reader
  have hr := LineReader.resume_resumption c.reader TaskId.printer
  generalize c.reader.resume .printer = r at hr ⊢
  cases hr with
  | stalled _ hs ho' hw' => exact ⟨rfl, hw'.trans hw, hs, ho'⟩
  | done _ hw' =>
    have hnil := hw'.trans hw
    simp [LineReader.release, hnil]
  | inLine hj hne | join hj hne =>
    rcases ho with ho | ho <;> rw [ho] at hj <;> cases hj
    exact absurd rfl hne

theorem Lone.resumeRead_eq {result : Except Failure String} (h : Lone here c)
    (hr : (c.reader.resume .printer).result = some result) :
    ∃ source, (c.reader.resume .printer).reader = { source } ∧
      c.resumeRead .printer = { c with reader := { source } } := by
  obtain ⟨hwoken, -, hres⟩ := h.resume
  rw [hr] at hres
  refine ⟨(c.reader.resume .printer).reader.source, hres, ?_⟩
  rw [resumeRead, hwoken, ← hres]
  rfl

theorem Lone.resumeRead_of_none (h : Lone here c) :
    c.resumeRead .printer = { c with reader := (c.reader.resume .printer).reader } := by
  rw [resumeRead, h.resume.1]
  rfl

theorem Lone.answer_eq {n : Nat} {line : String} (h : Lone here c)
    (ha : c.activity? soloist = some a) (hw : a.wait = .reply n)
    (hr : (c.reader.resume .printer).result = some (.ok line)) :
    ∃ source, (c.reader.resume .printer).reader = { source } ∧
      { ((c.resumeRead .printer).record (.read .printer (.ok line))).answer ⟨n, soloist⟩ line with
        printer := .receiving } =
      c.tell source .receiving (⟨c.now, .read .printer (.ok line)⟩ :: c.journal) a
        (.replied line) := by
  obtain ⟨source, hreader, he⟩ := h.resumeRead_eq hr
  refine ⟨source, hreader, ?_⟩
  rw [he, answer_soloist (by exact ha) hw]
  rfl

theorem Lone.hangUp_eq {n : Nat} {failure : Failure} (h : Lone here c)
    (ha : c.activity? soloist = some a) (hw : a.wait = .reply n)
    (hr : (c.reader.resume .printer).result = some (.error failure)) :
    ∃ source, (c.reader.resume .printer).reader = { source } ∧
      { ((((c.resumeRead .printer).record (.read .printer (.error failure))).log
          (.answerFailed failure)).record (.ending .printer (.abort failure))).hangUp
            ⟨n, soloist⟩ with printer := .leaving } =
      c.tell source .leaving (⟨c.now, .ending .printer (.abort failure)⟩ ::
        ⟨c.now, .logged (.answerFailed failure)⟩ :: ⟨c.now, .read .printer (.error failure)⟩ ::
          c.journal) a .hungUp := by
  obtain ⟨source, hreader, he⟩ := h.resumeRead_eq hr
  refine ⟨source, hreader, ?_⟩
  rw [he, hangUp_soloist (by exact ha) hw]
  rfl

theorem Lone.leaving (h : Lone here c) (hp : c.printer = .leaving) :
    c.mailbox.items = [] ∧ ∀ n, c.soloWait ≠ some (.reply n) := by
  have hshake := h.handshake
  rw [hp] at hshake
  generalize c.mailbox.items = ms, c.soloWait = w at hshake
  cases hshake with
  | leaving hl =>
    refine ⟨rfl, fun n he => ?_⟩
    rcases hl with rfl | rfl <;> cases he
  | ended ho => rcases ho with ho | ho <;> cases ho

theorem Lone.printerTurn (h : Lone (· ∈ c.ready) c) (hd : PrinterTurn c d more)
    (hid : .printer ∈ c.ready) : Lone (Next d.ready .printer more) d := by
  have hst := hd.staged h.staged
  have hstay (hs : c.Stalls) : Lone (Next c.ready .printer false) c :=
    h.enter (fun hi => ⟨hi, nofun⟩) (.inr hs)
  cases hd with
  | gone hp =>
    refine hstay ?_
    rcases hp with hp | hp <;> simp only [Stalls, hp]
  | idle hp hm hh =>
    refine hstay ?_
    simp only [Stalls, hp]
    exact ⟨Mailbox.take?_eq_none_iff.1 hm, hh⟩
  | deserted _ hm hh =>
    refine h.stopPrinter (Mailbox.take?_eq_none_iff.1 hm) fun n hw => ?_
    obtain ⟨a, ha, -⟩ := soloWait_eq_some.1 hw
    rw [h.solitary.isHeld, ha] at hh
    simp at hh
  | choked hp hm => exact h.crashPrinter hp hm
  | @told t r hp hm hr hs hk =>
    obtain ⟨display, journal, he⟩ := (c.take t).shown_eq t.message.kind r
    have he : (c.take t).shown t.message.kind r =
        { c.take t with display, journal, printer := .receiving } := by
      rw [he, ← hp]
      rfl
    rw [he] at hst ⊢
    exact h.drawn hm hid hst
      (.taking ((h.backlog hp hm).rest (Message.isPlain_of_none hs hk)))
  | @asked t r slot hp hm hr hs =>
    obtain ⟨hnil, hslot, hw⟩ := (h.backlog hp hm).asks hs
    obtain ⟨n, asker⟩ := slot
    dsimp only at hslot hw
    subst hslot
    obtain ⟨display, journal, he⟩ := (c.take t).shown_eq t.message.kind r
    rw [he] at hst ⊢
    refine h.drawn hm hid hst ?_
    rw [hnil, hw]
    exact .reading
  | @exited t r code hp hm hr hk =>
    obtain ⟨hnil, hw⟩ := (h.backlog hp hm).exits hk
    obtain ⟨display, journal, he⟩ := (c.take t).shown_eq t.message.kind r
    rw [he] at hst ⊢
    refine h.drawn hm hid hst ?_
    rw [hnil, hw]
    exact .leaving (.inr rfl)
  | @pending slot hp hr =>
    obtain ⟨-, hwaiting, hres⟩ := h.resume
    rw [hr] at hres
    rw [h.resumeRead_of_none] at hst ⊢
    refine h.shift (v := .hungUp) (d := { c with reader := (c.reader.resume .printer).reader })
      { h.solitary with } hst rfl h.handshake h.queue ⟨hwaiting, .inr hres.2⟩ (.inr ?_) (.same _) (.inl rfl)
      (fun hi => hi) rfl rfl fun hi => .inr ⟨rfl, hi⟩
    simp only [Stalls, hp]
    exact hres
  | @heard slot line hp hr =>
    obtain ⟨-, a, n, rfl, ha, hw⟩ := h.reading hp
    obtain ⟨source, -, he⟩ := h.answer_eq ha hw hr
    rw [he]
    exact h.tell hid hp ha hw (.inr ⟨line, rfl, rfl⟩)
  | @failed slot failure hp hr =>
    obtain ⟨-, a, n, rfl, ha, hw⟩ := h.reading hp
    obtain ⟨source, -, he⟩ := h.hangUp_eq ha hw hr
    rw [he]
    exact h.tell hid hp ha hw (.inl ⟨rfl, rfl⟩)
  | left hp =>
    obtain ⟨hi, hw⟩ := h.leaving hp
    exact h.stopPrinter hi hw

/-! A run. -/

theorem Lone.mono (h : Lone here c) (hh : ∀ i, here i → here' i) : Lone here' c :=
  h.enter (hh soloist) (h.printer.imp_left (hh .printer))

theorem Lone.turn (h : Lone (· ∈ c.ready) c) (hid : id ∈ c.ready) :
    Lone (Next (c.turn id).1.ready id (c.turn id).2) (c.turn id).1 := by
  cases id with
  | printer => exact h.printerTurn (printerTurn_cases c) hid
  | producer n => exact h.producerTurn (producerTurn_cases c n) hid
  | signalWatch =>
    have he : c.turn .signalWatch = (c, false) := by
      simp only [Console.turn, signalWatchTurn, h.solitary.signalWatch]
    rw [he]
    exact h.aside (by simp) (by simp [soloist])
  | keywordWatch =>
    have he : c.turn .keywordWatch = (c, false) := by
      simp only [Console.turn, keywordWatchTurn, h.solitary.keywordWatch, Bool.not_false, if_true]
    rw [he]
    exact h.aside (by simp) (by simp [soloist])
  | ticker =>
    have he : c.turn .ticker = (c, false) := by
      simp only [Console.turn, tickerTurn, h.solitary.supervision]
    rw [he]
    exact h.aside (by simp) (by simp [soloist])

theorem Lone.setReady {ready : List TaskId} (h : Lone (· ∈ ready) c) :
    Lone (· ∈ ready) { c with ready } :=
  ⟨{ h.solitary with }, h.staged, h.capacity, h.handshake, h.queue, h.reader, h.printer,
    fun a ha => { h.duty a ha with }⟩

theorem Lone.step (h : Lone (· ∈ c.ready) c) (hid : id ∈ c.ready) :
    Lone (· ∈ (c.step id).ready) (c.step id) := by
  have ht := h.turn hid
  unfold Console.step
  dsimp only
  split
  · exact ht.mono fun i hi => hi.1
  · rename_i hmore
    have hmore : (c.turn id).2 = false := by simpa using hmore
    exact (ht.mono fun i hi => (List.mem_erase_of_ne (hi.2 hmore)).2 hi.1).setReady

/-! What comes from outside. -/

theorem lone_new {settings : Settings} {jobs : List Job} {source : Source} {sink : Sink}
    (h : new? settings jobs source sink = some c) : Lone (· ∈ c.ready) c := by
  obtain ⟨-, rfl⟩ := new?_eq_some.1 h
  exact ⟨⟨rfl, rfl, rfl, rfl, Nat.zero_le _⟩, .running nofun nofun rfl rfl, settings.one_le_capacity,
    .taking (.nil nofun), .idle rfl rfl nofun, ⟨rfl, .inl rfl⟩, .inl (List.mem_singleton_self _), nofun⟩

theorem Lone.ring {time : Nat} (h : Lone (· ∈ c.ready) c) (ht : c.now ≤ time) :
    Lone (· ∈ (c.ring time).ready) (c.ring time) := by
  have hready {i : TaskId} (hi : i ∈ c.ready) : i ∈ (c.ring time).ready := mem_foldl_enlist.2 (.inl hi)
  refine ⟨{ h.solitary with }, h.staged, h.capacity, h.handshake, h.queue.enter hready, h.reader,
    h.printer.imp_left hready, fun a ha => ?_⟩
  have hd := h.duty a ha
  refine ⟨hd.idles.imp_left hready, hd.modest, hd.spent, fun deadline hw => ?_, hd.sends⟩
  rcases hd.alarm deadline hw with hm | ⟨hi, hn⟩
  · by_cases hdue : deadline ≤ time
    · refine .inr ⟨mem_foldl_enlist.2 (.inr (List.mem_map.2 ⟨⟨deadline, soloist⟩, ?_, rfl⟩)), hdue⟩
      simpa using ⟨hm, hdue⟩
    · exact .inl (by simpa [Console.ring, wakeAll] using ⟨hm, Nat.lt_of_not_le hdue⟩)
  · exact .inr ⟨hready hi, hn.trans ht⟩

theorem Lone.input (h : Lone (· ∈ c.ready) c) (source : Source) :
    Lone (· ∈ (wakeReader { c with reader.source := source }).ready)
      (wakeReader { c with reader.source := source }) := by
  have hready {i : TaskId} (hi : i ∈ c.ready ∨ c.reader.owner = some i) :
      i ∈ (wakeReader { c with reader.source := source }).ready :=
    mem_foldl_enlist.2 (by simpa using hi)
  refine ⟨{ h.solitary with }, h.staged, h.capacity, h.handshake,
    h.queue.enter fun hi => hready (.inl hi), h.reader, ?_, fun a ha => ?_⟩
  · rcases h.printer with hi | hs
    · exact .inl (hready (.inl hi))
    · by_cases ho : c.reader.owner = some .printer
      · exact .inl (hready (.inr ho))
      · refine .inr ?_
        unfold Stalls at hs ⊢
        cases hp : c.printer with
        | reading slot =>
          rw [hp] at hs
          exact absurd hs.2 ho
        | _ =>
          rw [hp] at hs
          exact hs
  · have hd := h.duty a ha
    exact ⟨hd.idles.imp_left fun hi => hready (.inl hi), hd.modest, hd.spent,
      fun deadline hw => (hd.alarm deadline hw).imp_right (And.imp_left fun hi => hready (.inl hi)),
      hd.sends⟩

theorem Lone.setSink (h : Lone (· ∈ c.ready) c) (sink : Sink) :
    Lone (· ∈ (c.setSink sink).ready) (c.setSink sink) :=
  ⟨{ h.solitary with }, h.staged, h.capacity, h.handshake, h.queue, h.reader, h.printer,
    fun a ha => { h.duty a ha with }⟩

theorem Lone.raise (h : Lone (· ∈ c.ready) c) (s : Signal) : c.raise s = c := by
  simp only [Console.raise, h.solitary.signalWatch]

theorem Lone.release (h : Lone (· ∈ c.ready) c) :
    Lone (· ∈ c.release.ready) c.release := by
  have hready {i : TaskId} (hi : i ∈ c.ready) : i ∈ c.release.ready :=
    mem_letGo (c := { c with hosted := false }) hi
  refine ⟨{ h.solitary with }, h.staged, h.capacity, h.handshake, h.queue.enter hready, h.reader,
    Stalls.letGo (d := { c with hosted := false }) h.printer rfl rfl rfl rfl, fun a ha => ?_⟩
  have hd := h.duty a ha
  exact ⟨hd.idles.imp_left hready, hd.modest, hd.spent,
    fun deadline hw => (hd.alarm deadline hw).imp_right (And.imp_left hready), hd.sends⟩

theorem Lone.spawn {program : Program} (h : Lone (· ∈ c.ready) c) (hn : c.producers = [])
    (hx : ∀ x ∈ program, x.starts = false) :
    Lone (· ∈ (c.spawn program).ready) (c.spawn program) := by
  have hwait : c.soloWait = none := by simp [soloWait, activity?, soloist, hn]
  have hput : (c.spawn program).activity? soloist = some { program } := by
    simp [activity?, soloist, Console.spawn, wake, hn]
  have hready {i : TaskId} (hi : i ∈ c.ready) : i ∈ (c.spawn program).ready := mem_enlist.2 (.inl hi)
  have hon : soloist ∈ (c.spawn program).ready := mem_enlist.2 (.inr (by rw [hn]; rfl))
  have hheld : (c.spawn program).isHeld = true := by simp [Console.spawn, wake, isHeld]
  have hshake := h.handshake
  have hqueue := h.queue
  rw [hwait] at hshake hqueue
  refine ⟨{ h.solitary with producers := by simp [Console.spawn, wake, hn] }, h.staged, h.capacity, ?_,
    ?_, h.reader, h.printer.imp hready fun hst => hst.of_eq rfl rfl rfl fun _ _ => hheld,
    fun a ha => ?_⟩
  · rw [soloWait_of hput]
    exact hshake.goOn (.inl fun w he => by cases he) fun n he => by cases he
  · rw [soloWait_of hput]
    cases hqueue with
    | idle hg hw => exact .idle hg hw fun m he => by cases he
  · rw [hput] at ha
    cases ha
    refine ⟨.inl hon, hx, fun _ => rfl, fun deadline he => ?_, fun m he => ?_⟩ <;> cases he

end Console

end JobConsole
