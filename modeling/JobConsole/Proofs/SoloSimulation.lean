import JobConsole.Proofs.Handover

/-!
The console of a lone producer simulates its solo, in which each message is drawn the moment it is
sent. Every small step of the console is a step of the solo or none, and where no task can run nothing
happens next in the solo.
-/

namespace JobConsole

open Solo

def Event.isSight : Event → Bool
  | wrote _ | flushed | ending .. => true
  | _ => false

def Printer.mode : Printer → Mode
  | receiving => .taking
  | reading _ => .asking
  | leaving => .leaving
  | stopped | crashed => .gone

/-- What a wait comes to behind a printer that has drawn all that it was sent. -/
def Wait.solo (mode : Mode) : Wait → Wait
  | room _ => .fresh
  | reply _ => awaitReply mode
  | w => w

namespace Console

def sights (c : Console) : List Event :=
  (c.journal.map Entry.event).filter Event.isSight

def results (c : Console) : List Script.ProducerLine :=
  c.journal.filterMap Script.producerLine?

def front (c : Console) : Front where
  display := c.display
  mode := c.printer.mode
  shown := c.sights

/-- The printer as it will be when it has drawn all that is in the mailbox. -/
def ahead (c : Console) : Front :=
  c.mailbox.items.foldl Front.draw c.front

def solo (c : Console) : Solo where
  front := c.ahead
  reader := c.reader
  now := c.now
  timers := c.timers
  terminated := c.terminated
  hosted := c.hosted
  activity := (c.activity? soloist).map fun a => { a with wait := a.wait.solo c.ahead.mode }
  results := c.results

end Console

theorem LineReader.Silent.resume {ι : Type} [DecidableEq ι] {r : LineReader ι} {i : ι}
    (h : r.Silent) (ho : r.owner = some i) : r.resume i = ⟨r, none, none⟩ := by
  obtain ⟨⟨pieces, closed⟩, owner, taken, waiting⟩ := r
  obtain ⟨rfl, rfl⟩ := h
  dsimp only at ho
  subst ho
  simp [LineReader.resume, LineReader.collect, gather]

namespace Solo

variable {s : Solo} {f : Front} {a : Activity} {x : Statement} {rest : Program} {m : Message}
  {p : Printer} {ms : List Message} {w : Option Wait}

theorem draw_of_ne (h : f.mode ≠ .taking) (m : Message) : f.draw m = f := by
  unfold Front.draw
  split
  · rename_i hm
    exact absurd hm h
  · rfl

theorem foldl_draw_of_ne (h : f.mode ≠ .taking) (ms : List Message) :
    ms.foldl Front.draw f = f := by
  induction ms with
  | nil => rfl
  | cons m ms ih => rw [List.foldl_cons, draw_of_ne h, ih]

theorem mode_draw (h : f.mode = .taking) (m : Message) :
    (f.draw m).mode = .gone ∨ (f.draw m).mode = .behind m := by
  simp only [Front.draw, h]
  split
  · exact .inl rfl
  · exact .inr rfl

theorem mode_foldl_draw (hb : Backlog ms w) : ∀ f : Front, f.mode = .taking →
    ((ms.foldl Front.draw f).mode = .taking ∨ (ms.foldl Front.draw f).mode = .gone) ∨
      ((ms.foldl Front.draw f).mode = .asking ∧ ∃ n, w = some (.reply n)) ∨
        (ms.foldl Front.draw f).mode = .leaving ∧ w = some .termination := by
  induction hb with
  | nil => exact fun f hf => .inl (.inl hf)
  | asked =>
    intro f hf
    exact (mode_draw hf _).elim (fun h => .inl (.inr h)) fun h => .inr (.inl ⟨h, _, rfl⟩)
  | @exiting text code =>
    intro f hf
    exact (mode_draw hf (.exit text code)).elim (fun h => .inl (.inr h)) fun h => .inr
      (.inr ⟨h, rfl⟩)
  | @plain m ms w hm hb ih =>
    intro f hf
    rw [List.foldl_cons]
    rcases mode_draw hf m with h | h
    · rw [foldl_draw_of_ne (by rw [h]; exact nofun)]
      exact .inl (.inr h)
    · refine ih _ (h.trans ?_)
      cases m with
      | progress | info => rfl
      | prompt | exit => cases hm

theorem step_eq_proceed (hm : s.front.mode = .taking ∨ s.front.mode = .gone)
    (ha : s.activity = some a) : s.step = s.proceed := by
  rcases hm with hm | hm <;> simp [Solo.step, hm, ha]

theorem goOn_wait (s : Solo) (a : Activity) (v w : Wait) :
    s.goOn { a with wait := v } x rest w = s.goOn a x rest w := by
  cases w with
  | fresh => cases x <;> rfl
  | _ => rfl

def arrive (s : Solo) (a : Activity) (x : Statement) (rest : Program) : Console.Stage → Solo
  | .blocked w | .moving w => s.rest a (w.solo s.front.mode)
  | .finished o => s.finish a x rest o
  | .crashed => { s with activity := none }

theorem arrive_activity (s : Solo) (a : Activity) (o : Option Activity) (stage : Console.Stage) :
    arrive { s with activity := o } a x rest stage = s.arrive a x rest stage := by
  cases stage with
  | finished o =>
    simp only [arrive, Solo.finish]
  | _ => rfl

theorem begin_eq_send {n : Nat} (h : x.message? ⟨n, soloist⟩ = some m) :
    s.begin a x rest = s.send a x rest m := by
  cases x <;> cases h <;> rfl

theorem send_eq_arrive (accepted : Bool) (h : accepted = false → (s.front.draw m).mode ≠ .asking) :
    s.send a x rest m =
      arrive { s with front := s.front.draw m } a x rest (Console.afterSend accepted m) := by
  cases m with
  | progress | info | exit => rfl
  | prompt text slot =>
    cases accepted with
    | true => rfl
    | false => simp [Solo.send, arrive, Console.afterSend, awaitReply, h rfl, Wait.solo]

end Solo

namespace Console

variable {c d e : Console} {here here' : TaskId → Prop} {id : TaskId} {a y : Activity}
  {x : Statement} {rest : Program} {stage : Stage} {note : Outcome → Event} {pace : Pace}
  {more : Bool} {t : Mailbox.Taken TaskId}

theorem Lone.mode_ahead (h : Lone here c) :
    (c.ahead.mode = .taking ∨ c.ahead.mode = .gone) ∨
      (c.ahead.mode = .asking ∧ ∃ n, c.soloWait = some (.reply n)) ∨
        c.ahead.mode = .leaving ∧
          (c.soloWait = some .hungUp ∨ c.soloWait = some .termination) := by
  have hshake := h.handshake
  unfold ahead
  generalize hp : c.printer = p, c.mailbox.items = ms, c.soloWait = w at hshake ⊢
  have hf : c.front.mode = p.mode := congrArg Printer.mode hp
  cases hshake with
  | taking hb => exact (mode_foldl_draw hb _ hf).imp_right (Or.imp_right (And.imp_right .inr))
  | reading => exact .inr (.inl ⟨hf, _, rfl⟩)
  | leaving hw => exact .inr (.inr ⟨hf, hw.imp (congrArg some) (congrArg some)⟩)
  | ended hp => exact .inl (.inr (hf.trans (by rcases hp with rfl | rfl <;> rfl)))

/-! The producer. -/

theorem solo_of (h : c.activity? soloist = some a) : c.solo.activity =
    some { a with wait := a.wait.solo c.ahead.mode } := by
  rw [solo, h]
  rfl

theorem solo_put (h : e.activity? soloist = some a) (y : Activity) :
    (e.setActivity soloist y).solo =
      { e.solo with activity := some { y with wait := y.wait.solo e.ahead.mode } } := by
  have hp := activity?_put h y
  unfold solo
  rw [hp]
  rfl

theorem Lone.solo_step (h : Lone here c) (ha : c.activity? soloist = some a)
    (hf : a.wait.isFree = true ∨ c.terminated = true) : c.solo.step = c.solo.proceed := by
  refine step_eq_proceed ?_ (solo_of ha)
  have hgone (ht : c.terminated = true) : c.ahead.mode = .gone := by
    have hp := h.staged.stopped_of_terminated ht
    have hi : c.mailbox.items = [] := by
      cases h.staged with
      | running hs => exact absurd hp hs
      | stopped _ hb | crashed _ hb => exact hb.items
    simp only [ahead, hi, List.foldl_nil, front, hp, Printer.mode]
  rcases h.mode_ahead with hm | ⟨-, n, hw⟩ | ⟨-, hw⟩
  · exact hm
  · rcases hf with hf | ht
    · rw [soloWait_of ha] at hw
      rw [Option.some.inj hw] at hf
      cases hf
    · exact .inr (hgone ht)
  · rcases hf with hf | ht
    · rw [soloWait_of ha] at hw
      rcases hw with hw | hw <;> rw [Option.some.inj hw] at hf <;> cases hf
    · exact .inr (hgone ht)

theorem solo_proceed (ha : c.activity? soloist = some a) (hp : a.program = x :: rest) :
    c.solo.proceed = c.solo.goOn a x rest (a.wait.solo c.ahead.mode) := by
  obtain ⟨program, index, wait⟩ := a
  dsimp only at hp
  subst hp
  rw [proceed, solo_of ha]
  exact goOn_wait _ ⟨x :: rest, index, wait⟩ _ _

theorem solo_stay (ha : c.activity? soloist = some a) :
    c.solo.arrive a x rest (.blocked a.wait) = c.solo := by
  have hs := solo_of ha
  change { c.solo with activity := some { a with wait := a.wait.solo c.ahead.mode } } = c.solo
  rw [← hs]

/-- A small step that leaves the console as it is is one of the solo, or none. -/
theorem Still.solo (h : Still c soloist x a.wait stage) (hc : Lone here c)
    (ha : c.activity? soloist = some a) (hp : a.program = x :: rest) :
    c.solo.arrive a x rest stage = c.solo ∨ c.solo.arrive a x rest stage = c.solo.step := by
  have hstay (hs : stage = .blocked a.wait) : c.solo.arrive a x rest stage = c.solo :=
    hs ▸ solo_stay ha
  have hgo (hf : a.wait.isFree = true ∨ c.terminated = true)
      (he : c.solo.arrive a x rest stage = c.solo.goOn a x rest (a.wait.solo c.ahead.mode)) :
      c.solo.arrive a x rest stage = c.solo.step := by
    rw [hc.solo_step ha hf, solo_proceed ha hp, he]
  have hreporting : c.isReporting = false := by rw [isReporting, hc.solitary.supervision]; rfl
  have hterminated : c.solo.terminated = c.terminated := rfl
  have hnow : c.solo.now = c.now := rfl
  obtain ⟨program, index, wait⟩ := a
  dsimp only at h hstay hgo
  cases h with
  | unserved | unanswered | asleep | hung => exact .inl (hstay rfl)
  | answered => exact .inr (hgo (.inl rfl) rfl)
  | abandoned ht | released ht =>
    refine .inr (hgo (.inr ht) ?_)
    simp only [Wait.solo, goOn, hterminated, ht, if_true]
    rfl
  | awake hd =>
    refine .inr (hgo (.inl rfl) ?_)
    simp only [Wait.solo, goOn, hnow, hd, if_true]
    rfl
  | park hx | hang hx | crash hx =>
    subst hx
    exact .inr (hgo (.inl rfl) rfl)
  | look hx =>
    subst hx
    rw [hreporting] at *
    exact .inr (hgo (.inl rfl) rfl)
  | nap hx =>
    subst hx
    exact .inr (hgo (.inl rfl) rfl)

theorem arrive_solo {f : Front} (hf : e.ahead = f) (hr : e.reader = c.reader) (hn : e.now = c.now)
    (ht : e.timers = c.timers) (htm : e.terminated = c.terminated) (hh : e.hosted = c.hosted)
    (hres : e.results = c.results) :
    e.solo.arrive a x rest stage = arrive { c.solo with front := f } a x rest stage := by
  have he : e.solo = { c.solo with front := f, activity := e.solo.activity } := by
    unfold Console.solo
    rw [hf, hr, hn, ht, htm, hh, hres]
  rw [he]
  exact arrive_activity { c.solo with front := f } a _ stage

theorem Lone.solo_send {n : Nat} {m : Message} (h : Lone here c) (ha : c.activity? soloist = some a)
    (hp : a.program = x :: rest) (hm : x.message? ⟨n, soloist⟩ = some m)
    (hw : a.wait = .fresh ∨ ∃ m, a.wait = .room m) (accepted : Bool)
    (hg : accepted = false → (c.ahead.draw m).mode ≠ .asking) :
    arrive { c.solo with front := c.ahead.draw m } a x rest (afterSend accepted m) = c.solo.step := by
  have hfree : a.wait.isFree = true := by
    rcases hw with hw | ⟨_, hw⟩ <;> rw [hw] <;> rfl
  have hfresh : a.wait.solo c.ahead.mode = .fresh := by
    rcases hw with hw | ⟨_, hw⟩ <;> rw [hw] <;> rfl
  rw [h.solo_step ha (.inl hfree), solo_proceed ha hp, hfresh, Solo.goOn, begin_eq_send hm]
  exact (send_eq_arrive (s := c.solo) accepted hg).symm

theorem Deed.solo (h : Deed c soloist x a.wait e stage) (hc : Lone here c)
    (ha : c.activity? soloist = some a) (hp : a.program = x :: rest) (hx : x.starts = false) :
    e.solo.arrive a x rest stage = c.solo ∨ e.solo.arrive a x rest stage = c.solo.step := by
  have hd := hc.duty a ha
  cases h with
  | still h => exact h.solo hc ha hp
  | @accept m slots mailbox hm ho hb =>
    obtain ⟨⟨n, hn⟩, hw⟩ := hd.sending hp hm
    have hitems : mailbox.items = c.mailbox.items ++ [m] := by
      generalize a.wait = w at hb
      cases hb <;> rfl
    have hahead : (record { c with slots, mailbox } (.accepted soloist m)).wakeReceiver.ahead =
        c.ahead.draw m := by
      change mailbox.items.foldl Front.draw c.front = _
      rw [hitems, List.foldl_append]
      rfl
    rw [arrive_solo hahead rfl rfl rfl rfl rfl rfl]
    exact .inr (hc.solo_send ha hp hn hw true nofun)
  | @refuse m slots hm hcl =>
    obtain ⟨⟨n, hn⟩, hw⟩ := hd.sending hp hm
    have hgone : c.ahead.mode = .gone := by
      cases hc.staged with
      | running _ _ ho => rw [ho] at hcl; cases hcl
      | stopped hp hb | crashed hp hb =>
        simp only [ahead, hb.items, List.foldl_nil, front, hp, Printer.mode]
    have hdraw : c.ahead.draw m = c.ahead := draw_of_ne (by rw [hgone]; exact nofun) m
    have hahead : ((record { c with slots } (.refused soloist m)).log (.dropped m.kind)).ahead =
        c.ahead.draw m := by
      rw [hdraw]
      rfl
    rw [arrive_solo hahead rfl rfl rfl rfl rfl rfl]
    refine .inr (hc.solo_send ha hp hn hw false fun _ => ?_)
    rw [hdraw, hgone]
    exact nofun
  | @join m slots hw hm =>
    refine .inl ((arrive_solo (c := c) rfl rfl rfl rfl rfl rfl rfl).trans ?_)
    have hstay : c.solo.arrive a x rest (.blocked a.wait) = c.solo := solo_stay ha
    rw [hw] at hstay
    exact hstay
  | park hw ht =>
    obtain ⟨parked, he⟩ := c.park_eq soloist
    rw [he]
    exact .inl ((arrive_solo (c := c) rfl rfl rfl rfl rfl rfl rfl).trans (solo_stay ha))
  | supervise _ hs =>
    rw [hs] at hx
    cases hx
  | @sleep n hw hs hn =>
    have hfree : a.wait.isFree = true := by rw [hw]; rfl
    refine .inr ?_
    rw [hc.solo_step ha (.inl hfree), solo_proceed ha hp, hw]
    subst hs
    simp only [Wait.solo, goOn, Solo.begin, if_neg hn]
    rfl

theorem solo_endProducer (ha : c.activity? soloist = some a) :
    (c.endProducer 0).solo = { c.solo with activity := none } := by
  have hn : (c.endProducer 0).activity? soloist = none := activity?_soloist_set ha none
  unfold Console.solo
  rw [hn]
  rfl

theorem Pursuit.solo (h : Pursuit c soloist a (.finished 0 a.index) d pace) (hc : Lone here c)
    (ha : c.activity? soloist = some a) (hp : pace = .resting ∨ pace = .moving) :
    d.solo = c.solo ∨ d.solo = c.solo.step := by
  have hmodest := (hc.duty a ha).modest
  have hact {x : Statement} {e : Console} {stage : Stage} (he : Deed c soloist x a.wait e stage) :
      e.activity? soloist = some a :=
    standing_producer.1 (he.standing_self (standing_producer.2 ha))
  cases h with
  | ended => rcases hp with hp | hp <;> cases hp
  | crashed => rcases hp with hp | hp <;> cases hp
  | @rested x rest e w hprog he | @moved x rest e w hprog he =>
    have hd := deed_of_perform he
    rw [solo_put (hact hd)]
    exact hd.solo hc ha hprog (hmodest x (hprog ▸ List.mem_cons_self))
  | @followed x next rest e o hprog he hf =>
    have hd := deed_of_perform he
    have hs := hd.solo hc ha hprog (hmodest x (hprog ▸ List.mem_cons_self))
    simp only [arrive, Solo.finish, hf] at hs
    rw [solo_put (hact hd)]
    exact hs
  | @finished x rest e o hprog he hf =>
    have hd := deed_of_perform he
    have hs := hd.solo hc ha hprog (hmodest x (hprog ▸ List.mem_cons_self))
    simp only [arrive, Solo.finish, hf] at hs
    have hae : (e.record (.finished 0 a.index o)).activity? soloist = some a := (hact hd :)
    rw [solo_put hae]
    exact hs

theorem ProducerTurn.solo {n : Nat} (h : ProducerTurn c n d more) (hc : Lone here c) :
    d.solo = c.solo ∨ d.solo = c.solo.step := by
  cases h with
  | off => exact .inl rfl
  | on ha hd hp =>
    obtain rfl := hc.solitary.number ha
    exact hd.solo hc ha hp
  | @quit a d pace ha hd hp =>
    obtain rfl := hc.solitary.number ha
    obtain rfl := hd.stop_eq hp
    rw [solo_endProducer ha]
    cases hd with
    | ended hprog =>
      have hw := (hc.duty a ha).spent hprog
      rw [hc.solo_step ha (.inl (by rw [hw]; rfl))]
      refine .inr ?_
      obtain ⟨program, index, wait⟩ := a
      dsimp only at hprog
      subst hprog
      simp only [proceed, solo_of ha]
    | crashed hprog he =>
      have hmodest := (hc.duty a ha).modest
      exact (deed_of_perform he).solo hc ha hprog (hmodest _ (hprog ▸ List.mem_cons_self))
    | _ => rcases hp with hp | hp <;> cases hp

/-! The printer. -/

theorem solo_drawn {r : Display.Drawn} {journal : List Entry} {p : Printer}
    (hp : c.printer = .receiving) (hm : c.mailbox.take? = some t)
    (hr : c.display.draw t.message.kind t.message.text = some r) (hd : p.mode = .behind t.message)
    (hj : (journal.map Entry.event).filter Event.isSight = Solo.sights t.message r ++ c.sights)
    (hres : journal.filterMap Script.producerLine? = c.results) :
    solo { c.take t with display := r.display, journal, printer := p } = c.solo := by
  have hfront : front { c.take t with display := r.display, journal, printer := p } =
      c.front.draw t.message := by
    have hmode : c.front.mode = .taking := congrArg Printer.mode hp
    have hdraw : c.front.display.draw t.message.kind t.message.text = some r := hr
    simp only [Front.draw, hmode, hdraw]
    simp only [front, hd, Console.sights, hj]
  have hahead : ahead { c.take t with display := r.display, journal, printer := p } = c.ahead := by
    unfold ahead
    rw [hfront, (Mailbox.items_of_take? hm).1]
    rfl
  unfold Console.solo
  rw [hahead]
  simp only [results, hres]
  rfl

theorem sights_shown (c : Console) (m : Message) (r : Display.Drawn) :
    (c.shown m.kind r).sights =
      (if r.flushed then [.flushed] else []) ++ .wrote r.bytes :: c.sights := by
  unfold shown
  cases hf : r.fault <;> simp only [Display.Drawn.flushed, hf] <;> rfl

theorem results_shown (c : Console) (m : Message) (r : Display.Drawn) :
    (c.shown m.kind r).results = c.results := by
  unfold shown
  split <;> rfl

theorem shown_display (c : Console) (kind : Kind) (r : Display.Drawn) :
    ∃ journal, c.shown kind r = { c with display := r.display, journal } := by
  unfold shown
  split <;> exact ⟨_, rfl⟩

theorem solo_shown {r : Display.Drawn} {p : Printer} (hp : c.printer = .receiving)
    (hm : c.mailbox.take? = some t) (hr : c.display.draw t.message.kind t.message.text = some r)
    (hk : t.message.code? = none) (hd : p.mode = .behind t.message) :
    solo { (c.take t).shown t.message.kind r with printer := p } = c.solo := by
  have hsights := (c.take t).sights_shown t.message r
  have hresults := (c.take t).results_shown t.message r
  obtain ⟨journal, he⟩ := (c.take t).shown_display t.message.kind r
  rw [he] at hsights hresults ⊢
  refine solo_drawn hp hm hr hd (hsights.trans ?_) hresults
  simp only [Solo.sights, hk, Option.toList_none, List.map_nil, List.nil_append, List.append_assoc]
  rfl

theorem solo_exited {r : Display.Drawn} {code : ExitCode} (hp : c.printer = .receiving)
    (hm : c.mailbox.take? = some t) (hr : c.display.draw t.message.kind t.message.text = some r)
    (hk : t.message.code? = some code) :
    solo { (((c.take t).shown t.message.kind r).log (.exiting code)).record
      (.ending .printer (.exit code)) with printer := .leaving } = c.solo := by
  have hsights := (c.take t).sights_shown t.message r
  have hresults := (c.take t).results_shown t.message r
  obtain ⟨journal, he⟩ := (c.take t).shown_display t.message.kind r
  rw [he] at hsights hresults ⊢
  refine solo_drawn hp hm hr ?_ ?_ hresults
  · cases hmsg : t.message <;> rw [hmsg] at hk <;> first | rfl | cases hk
  · have hsee : Solo.sights t.message r ++ c.sights = .ending .printer (.exit code) ::
        ((if r.flushed then [.flushed] else []) ++ .wrote r.bytes :: c.sights) := by
      simp [Solo.sights, hk]
    exact (congrArg (Event.ending .printer (.exit code) :: ·) hsights).trans hsee.symm

theorem LetsDown.solo (h : LetsDown c d) (hm : c.ahead.mode = .gone) (hs : d.sights = c.sights)
    (hr : d.results = c.results) : d.solo = c.solo := by
  obtain ⟨producers, ready, journal, he⟩ := h.frame
  have hears := h.hears
  have hfront : d.front = c.front := by
    unfold Console.front
    rw [hs, he]
  have hahead : d.ahead = c.ahead := by
    unfold ahead
    rw [hfront, he]
  have hact : (d.activity? soloist).map (fun a => { a with wait := a.wait.solo d.ahead.mode }) =
      (c.activity? soloist).map fun a => { a with wait := a.wait.solo c.ahead.mode } := by
    rw [hahead, hm]
    generalize d.activity? soloist = o', c.activity? soloist = o at hears
    cases hears with
    | same => rfl
    | told hw =>
      simp only [Option.map_some, hw]
      rfl
  obtain ⟨hreader, hnow, htimers, hterminated, hhosted⟩ : d.reader = c.reader ∧ d.now = c.now ∧
      d.timers = c.timers ∧ d.terminated = c.terminated ∧ d.hosted = c.hosted := by
    rw [he]
    exact ⟨rfl, rfl, rfl, rfl, rfl⟩
  unfold Console.solo
  rw [hact, hahead, hreader, hnow, htimers, hterminated, hhosted, hr]

theorem unseen_crashPrinter (c : Console) (m : Message) :
    (c.crashPrinter m).sights = c.sights ∧ (c.crashPrinter m).results = c.results := by
  obtain ⟨producers, ticker, ready, he⟩ := c.crashPrinter_eq m
  rw [he]
  constructor
  · simp [Console.sights, Event.isSight]
  · simp [results, Script.producerLine?]

theorem Lone.solo_crashPrinter (h : Lone here c) (hp : c.printer = .receiving)
    (hm : c.mailbox.take? = some t)
    (hr : c.display.draw t.message.kind t.message.text = none) :
    ((c.take t).crashPrinter t.message).solo = c.solo := by
  have hmode : c.front.mode = .taking := congrArg Printer.mode hp
  have hdraw : c.front.display.draw t.message.kind t.message.text = none := hr
  have hahead : c.ahead = { c.front with mode := .gone } := by
    unfold ahead
    rw [(Mailbox.items_of_take? hm).1, List.foldl_cons]
    simp only [Front.draw, hmode, hdraw]
    exact foldl_draw_of_ne (show Mode.gone ≠ .taking from nofun) _
  obtain ⟨hsights, hresults⟩ := (c.take t).unseen_crashPrinter t.message
  have hd := letsDown_crashPrinter (c := c.take t) (h.backlog hp hm)
  refine (hd.solo rfl hsights hresults).trans ?_
  unfold Console.solo
  rw [hahead]
  rfl

theorem Wait.solo_of_ne {w : Wait} {mode mode' : Mode} (h : mode ≠ .asking) (h' : mode' ≠ .asking) :
    w.solo mode = w.solo mode' := by
  cases w <;> simp [Wait.solo, awaitReply, h, h']

theorem solo_stopPrinter (hi : c.mailbox.items = []) (hp : c.printer.mode ≠ .asking) :
    c.stopPrinter.solo = c.solo.stop := by
  have hahead : c.ahead = c.front := by rw [ahead, hi, List.foldl_nil]
  rw [stopPrinter_of_nil hi]
  have hstop : ahead { c.closeMailbox.terminate with
      printer := .stopped, mailbox := c.mailbox.close.drain
      journal := ⟨c.now, .logged .printerStopped⟩ :: c.journal } = { c.front with mode := .gone } := rfl
  have hmap (w : Wait) : w.solo .gone = w.solo c.printer.mode := Wait.solo_of_ne nofun hp
  unfold Console.solo Solo.stop
  rw [hahead, hstop]
  simp only [hmap]
  rfl

theorem Lone.ahead_of_reading {slot : ReplySlot} (h : Lone here c)
    (hp : c.printer = .reading slot) :
    c.ahead = { c.front with mode := .asking } := by
  rw [ahead, (h.reading hp).1, List.foldl_nil]
  simp only [front, hp, Printer.mode]

theorem Lone.solo_tell {slot : ReplySlot} {v : Wait} {p : Printer} {source : Source}
    {journal : List Entry} (h : Lone here c) (hp : c.printer = .reading slot)
    (ha : c.activity? soloist = some a) (hv : ∀ mode, v.solo mode = v)
    (hres : journal.filterMap Script.producerLine? = c.results) :
    (c.tell source p journal a v).solo =
      { c.solo with
        reader := { source }
        front := ⟨c.display, p.mode, (journal.map Entry.event).filter Event.isSight⟩
        activity := c.solo.activity.map ({ · with wait := v }) } := by
  have hput : (c.tell source p journal a v).activity? soloist = some { a with wait := v } :=
    activity?_tell ha
  have hahead : (c.tell source p journal a v).ahead =
      ⟨c.display, p.mode, (journal.map Entry.event).filter Event.isSight⟩ := by
    unfold ahead
    have hi : (c.tell source p journal a v).mailbox.items = [] := (h.reading hp).1
    rw [hi, List.foldl_nil]
    rfl
  rw [solo_of ha]
  unfold Console.solo
  rw [hput, hahead]
  simp only [Option.map_some, hv]
  have hr : (c.tell source p journal a v).results = c.results := hres
  rw [hr]
  rfl

/-! The turns of the printer. -/

theorem Lone.solo_deserted (h : Lone here c) (hp : c.printer = .receiving)
    (hm : c.mailbox.take? = none) (hh : c.isHeld = false) : c.stopPrinter.solo = c.solo.step := by
  have hi := Mailbox.take?_eq_none_iff.1 hm
  rw [h.solitary.isHeld, Bool.or_eq_false_iff] at hh
  have hmode : c.solo.front.mode = .taking := by
    change c.ahead.mode = .taking
    simp only [ahead, hi, List.foldl_nil, front, hp, Printer.mode]
  have hhosted : c.solo.hosted = false := hh.1
  have hact : c.solo.activity.isSome = false := by
    change ((c.activity? soloist).map _).isSome = false
    rw [Option.isSome_map]
    exact hh.2
  rw [solo_stopPrinter hi (by simp [hp, Printer.mode])]
  simp only [Solo.step, hmode, hhosted, hact, Bool.or_self, Bool.false_eq_true, if_false]

theorem Lone.solo_left (h : Lone here c) (hp : c.printer = .leaving) :
    c.stopPrinter.solo = c.solo.step := by
  have hi := (h.leaving hp).1
  have hmode : c.solo.front.mode = .leaving := by
    change c.ahead.mode = .leaving
    simp only [ahead, hi, List.foldl_nil, front, hp, Printer.mode]
  rw [solo_stopPrinter hi (by simp [hp, Printer.mode])]
  simp only [Solo.step, hmode]

theorem Lone.step_reading {slot : ReplySlot} (h : Lone here c) (hp : c.printer = .reading slot) :
    c.solo.step = c.solo.hear := by
  have hmode : c.solo.front.mode = .asking := congrArg Front.mode (h.ahead_of_reading hp)
  simp only [Solo.step, hmode]

theorem Lone.solo_pending {slot : ReplySlot} (h : Lone here c) (hp : c.printer = .reading slot)
    (hr : (c.reader.resume .printer).result = none) :
    (c.resumeRead .printer).solo = c.solo.step := by
  have hres : (c.solo.reader.resume .printer).result = none := hr
  rw [h.resumeRead_of_none, h.step_reading hp]
  simp only [Solo.hear, hres]
  rfl

theorem Lone.solo_heard {n : Nat} {line : String} (h : Lone here c)
    (hp : c.printer = .reading ⟨n, soloist⟩) (ha : c.activity? soloist = some a)
    (hw : a.wait = .reply n) (hr : (c.reader.resume .printer).result = some (.ok line)) :
    solo { ((c.resumeRead .printer).record (.read .printer (.ok line))).answer ⟨n, soloist⟩ line with
      printer := .receiving } = c.solo.step := by
  obtain ⟨source, hreader, he⟩ := h.answer_eq ha hw hr
  have hres : (c.solo.reader.resume .printer).result = some (.ok line) := hr
  have hreader : (c.solo.reader.resume .printer).reader = { source } := hreader
  have hfront : c.solo.front = { c.front with mode := .asking } := h.ahead_of_reading hp
  rw [he, h.step_reading hp, h.solo_tell hp ha]
  · simp only [Solo.hear, hres, hreader, hfront]
    rfl
  · exact fun _ => rfl
  · rfl

theorem Lone.solo_failed {n : Nat} {failure : Failure} (h : Lone here c)
    (hp : c.printer = .reading ⟨n, soloist⟩) (ha : c.activity? soloist = some a)
    (hw : a.wait = .reply n) (hr : (c.reader.resume .printer).result = some (.error failure)) :
    solo { ((((c.resumeRead .printer).record (.read .printer (.error failure))).log
        (.answerFailed failure)).record (.ending .printer (.abort failure))).hangUp
          ⟨n, soloist⟩ with printer := .leaving } = c.solo.step := by
  obtain ⟨source, hreader, he⟩ := h.hangUp_eq ha hw hr
  have hres : (c.solo.reader.resume .printer).result = some (.error failure) := hr
  have hreader : (c.solo.reader.resume .printer).reader = { source } := hreader
  have hfront : c.solo.front = { c.front with mode := .asking } := h.ahead_of_reading hp
  rw [he, h.step_reading hp, h.solo_tell hp ha]
  · simp only [Solo.hear, hres, hreader, hfront]
    rfl
  · exact fun _ => rfl
  · rfl

theorem PrinterTurn.solo (h : PrinterTurn c d more) (hc : Lone here c) :
    d.solo = c.solo ∨ d.solo = c.solo.step := by
  cases h with
  | gone | idle => exact .inl rfl
  | deserted hp hm hh => exact .inr (hc.solo_deserted hp hm hh)
  -- What the printer draws, the solo has drawn when it was sent.
  | choked hp hm hr => exact .inl (hc.solo_crashPrinter hp hm hr)
  | @told t r hp hm hr hs hk =>
    have hplain := Message.isPlain_of_none hs hk
    have hb : Printer.mode .receiving = .behind t.message := by
      cases hmsg : t.message <;> rw [hmsg] at hplain <;> first | rfl | cases hplain
    have hshown := solo_shown hp hm hr hk hb
    obtain ⟨journal, he⟩ := (c.take t).shown_display t.message.kind r
    rw [he] at hshown ⊢
    rw [← hp] at hshown
    exact .inl hshown
  | @asked t r slot hp hm hr hs =>
    refine .inl (solo_shown hp hm hr (Message.code?_eq_none hs) ?_)
    cases hmsg : t.message <;> rw [hmsg] at hs <;> first | rfl | cases hs
  | exited hp hm hr hk => exact .inl (solo_exited hp hm hr hk)
  | pending hp hr => exact .inr (hc.solo_pending hp hr)
  | heard hp hr =>
    obtain ⟨-, a, n, rfl, ha, hw⟩ := hc.reading hp
    exact .inr (hc.solo_heard hp ha hw hr)
  | failed hp hr =>
    obtain ⟨-, a, n, rfl, ha, hw⟩ := hc.reading hp
    exact .inr (hc.solo_failed hp ha hw hr)
  | left hp => exact .inr (hc.solo_left hp)

/-! A run. -/

theorem Lone.turn_solo (h : Lone here c) (id : TaskId) :
    (c.turn id).1.solo = c.solo ∨ (c.turn id).1.solo = c.solo.step := by
  cases id with
  | printer => exact (printerTurn_cases c).solo h
  | producer n => exact (producerTurn_cases c n).solo h
  | signalWatch =>
    simp only [Console.turn, signalWatchTurn, h.solitary.signalWatch, true_or]
  | keywordWatch =>
    simp only [Console.turn, keywordWatchTurn, h.solitary.keywordWatch, Bool.not_false, if_true,
      true_or]
  | ticker => simp only [Console.turn, tickerTurn, h.solitary.supervision, true_or]

theorem Lone.follows_step (h : Lone here c) (id : TaskId) :
    Solo.Follows c.solo (c.step id).solo := by
  obtain ⟨ready, he⟩ := c.turn_eq_step id
  rw [he]
  change Solo.Follows c.solo (c.turn id).1.solo
  rcases h.turn_solo id with ht | ht
  · exact ht ▸ .refl _
  · exact .next ht

theorem Lone.proceed_at_rest (h : Lone (fun _ => False) c) (hw : Wound c.now c)
    (hi : c.mailbox.items = []) (hs : c.printer.mode ≠ .asking) : c.solo.proceed = c.solo := by
  cases ha : c.activity? soloist with
  | none =>
    have hn : c.solo.activity = none := by
      change (c.activity? soloist).map _ = none
      rw [ha]
      rfl
    simp only [proceed, hn]
  | some a =>
    have hd := h.duty a ha
    have hshake := h.handshake
    have hqueue := h.queue
    obtain ⟨hne, hidle⟩ := hd.idles.resolve_left fun hn => hn
    obtain ⟨x, rest, hp⟩ := List.exists_cons_of_ne_nil hne
    rw [soloWait_of ha, hi] at hshake
    rw [soloWait_of ha] at hqueue
    rw [solo_proceed ha hp]
    have halarm := hd.alarm
    have hterminated : c.solo.terminated = c.terminated := rfl
    have hnow : c.solo.now = c.now := rfl
    generalize a.wait = v at hidle hshake hqueue halarm ⊢
    cases v with
    | fresh | replied => exact hidle.elim
    | forever => rfl
    | hungUp | termination =>
      simp only [Wait.solo, Solo.goOn, hterminated, hidle.1, Bool.false_eq_true, if_false]
    | alarm deadline =>
      have hlt := hw.ahead _ ((halarm deadline rfl).resolve_right fun hn => hn.1)
      simp only [Wait.solo, Solo.goOn, hnow, Nat.not_le.2 hlt, if_false]
    | room m =>
      -- Without room nobody would stand in line for it, and the mailbox is empty.
      cases hqueue with
      | idle _ _ hn => exact absurd rfl (hn m)
      | inLine _ _ hf =>
        have hcap := h.capacity
        rw [hi, List.length_nil] at hf
        omega
      | called _ _ hn | turned _ _ _ hn => exact hn.elim
    | reply n =>
      generalize c.printer = p at hshake hs
      cases hshake with
      | taking hb =>
        cases hb with
        | nil hw => exact absurd rfl (hw n)
      | reading => exact absurd rfl hs
      | leaving hl => rcases hl with hl | hl <;> cases hl
      | ended _ hw => exact absurd rfl (hw n)

theorem Lone.solo_at_rest (h : Lone (· ∈ c.ready) c) (hr : c.ready = []) (hw : Wound c.now c) :
    c.mailbox.items = [] ∧ c.solo.step = c.solo := by
  have h : Lone (fun _ => False) c := h.mono fun i hi => by simp [hr] at hi
  have hst := h.printer.resolve_left fun hn => hn
  have hmode (hi : c.mailbox.items = []) : c.solo.front.mode = c.printer.mode := by
    change c.ahead.mode = _
    rw [ahead, hi]
    rfl
  unfold Stalls at hst
  cases hp : c.printer with
  | receiving =>
    rw [hp] at hst
    obtain ⟨hi, hheld⟩ := hst
    refine ⟨hi, ?_⟩
    rw [h.solitary.isHeld] at hheld
    have hon : (c.solo.hosted || c.solo.activity.isSome) = true := by
      change (c.hosted || ((c.activity? soloist).map _).isSome) = true
      rwa [Option.isSome_map]
    simp only [Solo.step, hmode hi, hp, Printer.mode, hon, if_true]
    exact h.proceed_at_rest hw hi (by rw [hp]; exact nofun)
  | reading slot =>
    rw [hp] at hst
    have hi := (h.reading hp).1
    refine ⟨hi, ?_⟩
    have hres : c.solo.reader.resume .printer = ⟨c.reader, none, none⟩ := hst.1.resume hst.2
    simp only [Solo.step, hmode hi, hp, Printer.mode, Solo.hear, hres]
    rfl
  | leaving =>
    rw [hp] at hst
    exact hst.elim
  | stopped | crashed =>
    have hi : c.mailbox.items = [] := by
      cases h.staged with
      | running hs hc => simp_all
      | stopped _ hb | crashed _ hb => exact hb.items
    refine ⟨hi, ?_⟩
    simp only [Solo.step, hmode hi, hp, Printer.mode]
    exact h.proceed_at_rest hw hi (by rw [hp]; exact nofun)

end Console

end JobConsole
