import JobConsole.Proofs.Scripts
import JobConsole.Proofs.Solo

namespace JobConsole

def Message.isPlain : Message → Bool
  | progress _ | info _ => true
  | _ => false

/-- Whether a statement that has come as far as this goes on whatever the printer is at. -/
def Wait.isFree : Wait → Bool
  | reply _ | hungUp | termination => false
  | _ => true

/-- What is in the mailbox, and what the only one who sends waits for. -/
inductive Backlog : List Message → Option Wait → Prop
  | nil {w : Option Wait} (hw : ∀ n, w ≠ some (.reply n)) : Backlog [] w
  | asked {text : String} {n : Nat} : Backlog [.prompt text ⟨n, soloist⟩] (some (.reply n))
  | exiting {text : String} {code : ExitCode} : Backlog [.exit text code] (some .termination)
  | plain {m : Message} {ms : List Message} {w : Option Wait} (hm : m.isPlain = true)
      (h : Backlog ms w) : Backlog (m :: ms) w

inductive Handshake : Printer → List Message → Option Wait → Prop
  | taking {ms : List Message} {w : Option Wait} (h : Backlog ms w) : Handshake .receiving ms w
  | reading {n : Nat} : Handshake (.reading ⟨n, soloist⟩) [] (some (.reply n))
  | leaving {w : Wait} (hw : w = .hungUp ∨ w = .termination) : Handshake .leaving [] (some w)
  | ended {p : Printer} {w : Option Wait} (hp : p = .stopped ∨ p = .crashed)
      (hw : ∀ n, w ≠ some (.reply n)) : Handshake p [] w

/-- Where the producer stands in the mailbox's line; `here` if it is to run next. -/
inductive Queue (b : Mailbox TaskId) (here : Prop) : Option Wait → Prop
  | idle {w : Option Wait} (hg : b.granted = []) (hw : b.waiting = [])
      (hn : ∀ m, w ≠ some (.room m)) : Queue b here w
  | inLine {m : Message} (hg : b.granted = []) (hw : b.waiting = [soloist])
      (hf : b.capacity ≤ b.items.length) : Queue b here (some (.room m))
  | called {m : Message} (hg : b.granted = [soloist]) (hw : b.waiting = []) (h : here) :
      Queue b here (some (.room m))
  | turned {m : Message} (hc : b.closed = true) (hg : b.granted = []) (hw : b.waiting = [])
      (h : here) : Queue b here (some (.room m))

namespace Console

structure Solitary (c : Console) : Prop where
  supervision : c.supervision = none
  signalWatch : c.signalWatch = .absent
  keywordWatch : c.keywordWatch = false
  ticker : c.ticker = .absent
  producers : c.producers.length ≤ 1

def soloWait (c : Console) : Option Wait :=
  (c.activity? soloist).map Activity.wait

def Idles (c : Console) (a : Activity) : Prop :=
  a.program ≠ [] ∧
    match a.wait with
    | .fresh | .replied _ => False
    | .hungUp | .termination => c.terminated = false ∧ soloist ∈ c.parked
    | .room _ | .reply _ | .alarm _ | .forever => True

def Stalls (c : Console) : Prop :=
  match c.printer with
  | .receiving => c.mailbox.items = [] ∧ c.isHeld = true
  | .reading _ => c.reader.Silent ∧ c.reader.owner = some .printer
  | .leaving => False
  | .stopped | .crashed => True

/-- What the activity of the producer can rely on; `here` if it is to run next. -/
structure Duty (c : Console) (here : Prop) (a : Activity) : Prop where
  idles : here ∨ Idles c a
  modest : ∀ x ∈ a.program, x.starts = false
  spent : a.program = [] → a.wait = .fresh
  alarm : ∀ deadline, a.wait = .alarm deadline →
    ⟨deadline, soloist⟩ ∈ c.timers ∨ here ∧ deadline ≤ c.now
  sends : ∀ m, a.wait = .room m →
    ∃ x rest n, a.program = x :: rest ∧ x.message? ⟨n, soloist⟩ = some m

structure Lone (here : TaskId → Prop) (c : Console) : Prop where
  solitary : c.Solitary
  staged : c.Staged
  capacity : 0 < c.mailbox.capacity
  handshake : Handshake c.printer c.mailbox.items c.soloWait
  queue : Queue c.mailbox (here soloist) c.soloWait
  reader : c.reader.waiting = [] ∧ (c.reader.owner = none ∨ c.reader.owner = some .printer)
  printer : here .printer ∨ c.Stalls
  duty : ∀ a, c.activity? soloist = some a → Duty c (here soloist) a

end Console

variable {b : Mailbox TaskId} {p : Printer} {ms : List Message} {m : Message} {w : Wait}

/-! Messages. -/

theorem Backlog.push (h : Backlog ms (some w)) (hw : w = .fresh ∨ ∃ m, w = .room m) {v : Wait}
    (hm : Backlog [m] (some v)) : Backlog (ms ++ [m]) (some v) := by
  generalize hs : some w = s at h
  induction h with
  | nil => exact hm
  | asked | exiting =>
    cases hs
    rcases hw with hw | ⟨m, hw⟩ <;> cases hw
  | plain hp _ ih => exact .plain hp (ih hs)

theorem Handshake.accept (h : Handshake p ms (some w)) (hw : w = .fresh ∨ ∃ m, w = .room m)
    (hs : p ≠ .stopped) (hc : p ≠ .crashed) {v : Wait} (hm : Backlog [m] (some v)) :
    Handshake p (ms ++ [m]) (some v) := by
  cases h with
  | taking h => exact .taking (h.push hw hm)
  | reading => rcases hw with hw | ⟨m, hw⟩ <;> cases hw
  | leaving hl => rcases hl with rfl | rfl <;> rcases hw with hw | ⟨m, hw⟩ <;> cases hw
  | ended hp => exact absurd hp (by simp [hs, hc])

theorem Handshake.goOn {o v : Option Wait} (h : Handshake p ms o)
    (ho : (∀ w, o = some w → w.isFree = true) ∨ p = .stopped) (hv : ∀ n, v ≠ some (.reply n)) :
    Handshake p ms v := by
  cases h with
  | taking h =>
    rcases ho with ho | ho
    · refine .taking ?_
      induction h with
      | nil => exact .nil hv
      | asked | exiting => cases ho _ rfl
      | plain hp _ ih => exact .plain hp (ih ho)
    · cases ho
  | reading =>
    rcases ho with ho | ho
    · cases ho _ rfl
    · cases ho
  | leaving hl =>
    rcases ho with ho | ho
    · rcases hl with rfl | rfl <;> cases ho _ rfl
    · cases ho
  | ended hp => exact .ended hp hv

theorem Queue.enter {here here' : Prop} {v : Option Wait} (h : Queue b here v) (hh : here → here') :
    Queue b here' v := by
  cases h with
  | idle hg hw hn => exact .idle hg hw hn
  | inLine hg hw hf => exact .inLine hg hw hf
  | called hg hw h => exact .called hg hw (hh h)
  | turned hc hg hw h => exact .turned hc hg hw (hh h)

theorem Queue.empty {here : Prop} (h : Queue b here (some w)) (hw : ∀ m, w ≠ .room m) :
    b.granted = [] ∧ b.waiting = [] := by
  cases h with
  | idle hg hw => exact ⟨hg, hw⟩
  | inLine | called | turned => exact absurd rfl (hw _)

namespace Console

variable {c d e : Console} {here here' : TaskId → Prop} {id : TaskId} {a y : Activity}
  {x : Statement} {rest : Program} {stage : Stage} {note : Outcome → Event} {pace : Pace}
  {more : Bool}

/-! What the producer does. -/

theorem Solitary.isHeld (h : c.Solitary) :
    c.isHeld = (c.hosted || (c.activity? soloist).isSome) := by
  have hp : c.producers.any Option.isSome = (c.activity? soloist).isSome := by
    have hl := h.producers
    simp only [activity?, soloist]
    cases hc : c.producers with
    | nil => rfl
    | cons o rest =>
      rw [hc, List.length_cons] at hl
      have hr : rest = [] := List.length_eq_zero_iff.1 (by omega)
      simp [hr]
  simp [Console.isHeld, h.keywordWatch, h.ticker, Ticker.isAlive, hp]

theorem Solitary.number {n : Nat} (h : c.Solitary) (ha : c.activity? (.producer n) = some a) :
    n = 0 := by
  obtain ⟨hl, -⟩ := List.getElem?_eq_some_iff.1 (Option.join_eq_some_iff.1 ha)
  have := h.producers
  omega

theorem activity?_soloist_set (h : c.activity? soloist = some a) (o : Option Activity) :
    activity? { c with producers := c.producers.set 0 o } soloist = o := by
  have hn : c.producers[0]? = some (some a) := Option.join_eq_some_iff.1 h
  have hl := (List.getElem?_eq_some_iff.1 hn).1
  simp [activity?, soloist, List.getElem?_set_self hl]

theorem activity?_put (h : c.activity? soloist = some a) (y : Activity) :
    (c.setActivity soloist y).activity? soloist = some y :=
  activity?_soloist_set h _

theorem soloWait_of (h : c.activity? soloist = some a) : c.soloWait = some a.wait := by
  rw [soloWait, h]
  rfl

theorem Staged.stopped_of_terminated (h : c.Staged) (ht : c.terminated = true) :
    c.printer = .stopped :=
  h.terminated_iff.1 ht

def Stage.next : Stage → Wait
  | .blocked w | .moving w => w
  | .finished _ | .crashed => .fresh

structure Continues (stage : Stage) (here : Prop) (y : Activity) : Prop where
  wait : y.wait = stage.next
  modest : ∀ x ∈ y.program, x.starts = false
  runs : here ∨ (∃ w, stage = .blocked w) ∧ y.program ≠ []
  spent : y.program = [] → y.wait = .fresh

theorem Stalls.of_eq (h : c.Stalls) (hp : d.printer = c.printer)
    (hi : d.mailbox.items = c.mailbox.items) (hr : d.reader = c.reader)
    (hh : c.printer = .receiving → c.isHeld = true → d.isHeld = true) : d.Stalls := by
  unfold Stalls at h ⊢
  rw [hp, hi, hr]
  cases hc : c.printer with
  | receiving =>
    rw [hc] at h
    exact h.imp_right (hh hc)
  | _ =>
    rw [hc] at h
    exact h

theorem Deed.solitary (h : Deed c id x w e stage) (hc : c.Solitary) (hx : x.starts = false) :
    e.Solitary := by
  cases h with
  | still => exact hc
  | accept | refuse | join | sleep => exact { hc with }
  | park =>
    obtain ⟨parked, he⟩ := c.park_eq id
    rw [he]
    exact { hc with }
  | supervise _ hs =>
    rw [hs] at hx
    cases hx

theorem Solitary.put (h : c.Solitary) (y : Activity) : (c.setActivity soloist y).Solitary :=
  { h with producers := (List.length_set ..).trans_le h.producers }

theorem Lone.post (h : Lone here c) (ha : c.activity? soloist = some a) (hr : e.reader = c.reader)
    (hpr : e.producers = c.producers) (hb : Beside c e) (hs : e.Solitary)
    (hshake : Handshake c.printer e.mailbox.items (some y.wait))
    (hqueue : Queue e.mailbox (here' soloist) (some y.wait))
    (hprinter : here' .printer ∨ (e.setActivity soloist y).Stalls)
    (hduty : Duty (e.setActivity soloist y) (here' soloist) y) :
    Lone here' (e.setActivity soloist y) := by
  have hact : (e.setActivity soloist y).activity? soloist = some y := by
    refine activity?_put (a := a) ?_ y
    rw [← ha]
    exact congrArg (fun l : List (Option Activity) => (l[0]?).join) hpr
  have hd := hb.trans (beside_setActivity e soloist y)
  have hw : (e.setActivity soloist y).soloWait = some y.wait := soloWait_of hact
  have hread : (e.setActivity soloist y).reader = c.reader := hr
  constructor
  case solitary => exact hs.put y
  case staged => exact h.staged.beside hd
  case capacity => exact hd.capacity ▸ h.capacity
  case handshake =>
    rw [hw, hd.printer]
    exact hshake
  case queue =>
    rw [hw]
    exact hqueue
  case reader =>
    rw [hread]
    exact h.reader
  case printer => exact hprinter
  case duty =>
    intro b hb
    rw [hact] at hb
    cases hb
    exact hduty

theorem Solitary.isHeld_put (h : c.Solitary) (ha : c.activity? soloist = some a) (y : Activity) :
    (c.setActivity soloist y).isHeld = true := by
  rw [(h.put y).isHeld, activity?_put ha, Option.isSome_some, Bool.or_true]

theorem Lone.stay (h : Lone (· ∈ c.ready) c) (ha : c.activity? soloist = some a)
    (hm : e.mailbox = c.mailbox) (hr : e.reader = c.reader) (hpr : e.producers = c.producers)
    (hb : Beside c e) (hs : e.Solitary)
    (hshake : Handshake c.printer c.mailbox.items (some y.wait))
    (hqueue : Queue c.mailbox (here' soloist) (some y.wait))
    (hprinter : .printer ∈ c.ready → here' .printer)
    (hduty : Duty (e.setActivity soloist y) (here' soloist) y) :
    Lone here' (e.setActivity soloist y) := by
  have hae : e.activity? soloist = some a := by
    rw [← ha]
    exact congrArg (fun l : List (Option Activity) => (l[0]?).join) hpr
  refine h.post ha hr hpr hb hs (hm ▸ hshake) (hm ▸ hqueue) ?_ hduty
  have hmail : (e.setActivity soloist y).mailbox = c.mailbox := hm
  exact h.printer.imp hprinter fun hst =>
    hst.of_eq (hb.trans (beside_setActivity e soloist y)).printer (by rw [hmail]) hr
      fun _ _ => hs.isHeld_put hae y

theorem Lone.goOn (h : Lone (· ∈ c.ready) c) (ha : c.activity? soloist = some a)
    (hfree : a.wait.isFree = true ∨ c.terminated = true) (hroom : ∀ m, a.wait ≠ .room m)
    (hm : e.mailbox = c.mailbox) (hr : e.reader = c.reader) (hpr : e.producers = c.producers)
    (hb : Beside c e) (hs : e.Solitary) (hn : ∀ n, y.wait ≠ .reply n) (hrm : ∀ m, y.wait ≠ .room m)
    (hprinter : .printer ∈ c.ready → here' .printer)
    (hduty : Duty (e.setActivity soloist y) (here' soloist) y) :
    Lone here' (e.setActivity soloist y) := by
  have hw := soloWait_of ha
  have hshake := h.handshake
  have hqueue := h.queue
  rw [hw] at hshake hqueue
  obtain ⟨hg, hwt⟩ := hqueue.empty hroom
  refine h.stay ha hm hr hpr hb hs ?_ ?_ hprinter hduty
  · refine hshake.goOn (hfree.imp (fun hf w he => ?_) h.staged.stopped_of_terminated) fun n he =>
      hn n (Option.some.inj he)
    rwa [← Option.some.inj he]
  · exact .idle hg hwt fun m he => hrm m (Option.some.inj he)

theorem Continues.duty {here : Prop} (h : Continues stage here y)
    (hi : ∀ w, stage = .blocked w → y.program ≠ [] → Idles d y)
    (halarm : ∀ deadline, stage.next = .alarm deadline → ⟨deadline, soloist⟩ ∈ d.timers)
    (hsends : ∀ m, stage.next = .room m →
      ∃ x rest n, y.program = x :: rest ∧ x.message? ⟨n, soloist⟩ = some m) : Duty d here y := by
  refine ⟨h.runs.imp_right fun ⟨⟨w, hw⟩, hp⟩ => hi w hw hp, h.modest, h.spent, ?_, ?_⟩
  · exact fun deadline hw => .inl (halarm deadline (h.wait.symm.trans hw))
  · exact fun m hw => hsends m (h.wait.symm.trans hw)

theorem Lone.still (h : Lone (· ∈ c.ready) c) (ha : c.activity? soloist = some a)
    (hd : Still c soloist x a.wait stage) (hy : Continues stage (here' soloist) y)
    (hp : y.program = a.program ∨ ∀ w, stage ≠ .blocked w)
    (hprinter : .printer ∈ c.ready → here' .printer) : Lone here' (c.setActivity soloist y) := by
  have hw := soloWait_of ha
  have hshake := h.handshake
  have hqueue := h.queue
  have hduty := h.duty a ha
  rw [hw] at hshake hqueue
  have hwait := hy.wait
  have go (hfree : a.wait.isFree = true ∨ c.terminated = true) (hroom : ∀ m, a.wait ≠ .room m)
      (hn : ∀ n, y.wait ≠ .reply n) (hrm : ∀ m, y.wait ≠ .room m)
      (hdy : Duty (c.setActivity soloist y) (here' soloist) y) :
      Lone here' (c.setActivity soloist y) :=
    h.goOn ha hfree hroom rfl rfl rfl (.same rfl rfl rfl rfl rfl) h.solitary hn hrm hprinter hdy
  obtain ⟨program, index, wait⟩ := a
  dsimp only at hd hshake hqueue hp go
  cases hd with
  | @unserved m ho hg =>
    have hpr := hp.resolve_right fun hn => hn _ rfl
    refine h.stay ha rfl rfl rfl (.same rfl rfl rfl rfl rfl) h.solitary (hwait ▸ hshake)
      ?_ hprinter (hy.duty ?_ nofun ?_)
    · rw [hwait]
      cases hqueue with
      | idle _ _ hn => exact absurd rfl (hn m)
      | inLine hgr hwt hf => exact .inLine hgr hwt hf
      | called hgr => exact absurd (hgr ▸ List.mem_singleton_self _) hg
      | turned hc =>
        rw [ho] at hc
        cases hc
    · intro w _ hne
      exact ⟨hne, by rw [hwait]; trivial⟩
    · intro m' hm
      rw [hpr]
      exact hduty.sends m' hm
  | unanswered =>
    obtain ⟨hg, hwt⟩ := hqueue.empty nofun
    refine h.stay ha rfl rfl rfl (.same rfl rfl rfl rfl rfl) h.solitary (hwait ▸ hshake)
      (.idle hg hwt fun m he => ?_) hprinter (hy.duty ?_ nofun nofun)
    · cases hwait.symm.trans (Option.some.inj he)
    · intro w _ hne
      exact ⟨hne, by rw [hwait]; trivial⟩
  | answered | park | look | nap | awake | crash =>
    refine go (.inl rfl) nofun ?_ ?_ (hy.duty nofun nofun nofun) <;> rw [hwait] <;> exact nofun
  | abandoned ht | released ht =>
    refine go (.inr ht) nofun ?_ ?_ (hy.duty nofun nofun nofun) <;> rw [hwait] <;> exact nofun
  | @asleep deadline hlt =>
    refine go (.inl rfl) nofun ?_ ?_ (hy.duty ?_ ?_ nofun)
    · rw [hwait]; exact nofun
    · rw [hwait]; exact nofun
    · exact fun w _ hne => ⟨hne, by rw [hwait]; trivial⟩
    · intro d hd
      cases hd
      exact (hduty.alarm deadline rfl).resolve_right fun hn => by omega
  | hang | hung =>
    refine go (.inl rfl) nofun ?_ ?_ (hy.duty ?_ nofun nofun)
    · rw [hwait]; exact nofun
    · rw [hwait]; exact nofun
    · exact fun w _ hne => ⟨hne, by rw [hwait]; trivial⟩

theorem message?_asker {x : Statement} {n : Nat} {m : Message}
    (h : x.message? ⟨n, soloist⟩ = some m) {slot : ReplySlot} (hs : m.slot? = some slot) :
    slot.asker = soloist := by
  cases x <;> cases h <;> cases hs <;> rfl

theorem backlog_of_message? {n : Nat} {m : Message} (h : x.message? ⟨n, soloist⟩ = some m) :
    Backlog [m] (some (afterSend true m).next) := by
  cases m with
  | progress text => exact .plain rfl (.nil nofun)
  | info text => exact .plain rfl (.nil nofun)
  | prompt text slot =>
    obtain ⟨k, asker⟩ := slot
    have ha : asker = soloist := message?_asker h rfl
    subst ha
    exact .asked
  | exit text code => exact .exiting

theorem next_afterSend_false (m : Message) (n : Nat) : (afterSend false m).next ≠ .reply n := by
  cases m <;> exact nofun

theorem Duty.sending {here : Prop} (h : Duty c here a) (hp : a.program = x :: rest)
    (hm : c.sending? soloist x a.wait = some m) :
    (∃ n, x.message? ⟨n, soloist⟩ = some m) ∧ (a.wait = .fresh ∨ ∃ m, a.wait = .room m) := by
  cases hw : a.wait with
  | fresh =>
    rw [hw] at hm
    exact ⟨⟨_, hm⟩, .inl rfl⟩
  | room m' =>
    rw [hw] at hm
    cases hm
    obtain ⟨x', rest', n, hx, hn⟩ := h.sends m hw
    rw [hp] at hx
    cases hx
    exact ⟨⟨n, hn⟩, .inr ⟨m, rfl⟩⟩
  | _ =>
    rw [hw] at hm
    cases hm

theorem Lone.accept {slots : Nat} {mailbox : Mailbox TaskId} (h : Lone (· ∈ c.ready) c)
    (ha : c.activity? soloist = some a) (hp : a.program = x :: rest)
    (hm : c.sending? soloist x a.wait = some m) (ho : c.mailbox.closed = false)
    (hb : Enters c.mailbox soloist m a.wait mailbox)
    (hd : Deed c soloist x a.wait
      (record { c with slots, mailbox } (.accepted soloist m)).wakeReceiver (afterSend true m))
    (hx : x.starts = false) (hy : Continues (afterSend true m) (here' soloist) y)
    (hprinter : .printer ∈
      (record { c with slots, mailbox } (.accepted soloist m)).wakeReceiver.ready →
      here' .printer) :
    Lone here' ((record { c with slots, mailbox } (.accepted soloist m)).wakeReceiver.setActivity
      soloist y) := by
  have hshake := h.handshake
  have hqueue := h.queue
  rw [soloWait_of ha] at hshake hqueue
  obtain ⟨⟨n, hn⟩, hw⟩ := (h.duty a ha).sending hp hm
  obtain ⟨hs, hc⟩ : c.printer ≠ .stopped ∧ c.printer ≠ .crashed := by
    cases h.staged with
    | running hs hc => exact ⟨hs, hc⟩
    | stopped _ hb | crashed _ hb => rw [hb.closed] at ho; cases ho
  have hreceiving : c.printer = .receiving := by
    generalize c.printer = p, c.mailbox.items = ms, a.wait = w at hshake hs hc hw ⊢
    cases hshake with
    | taking => rfl
    | reading => rcases hw with hw | ⟨_, hw⟩ <;> cases hw
    | leaving hl =>
      rcases hl with hl | hl <;> rcases hw with hw | ⟨_, hw⟩ <;> cases hl.symm.trans hw
    | ended hp => exact absurd hp (by simp [hs, hc])
  obtain ⟨hitems, hg, hwt⟩ : mailbox.items = c.mailbox.items ++ [m] ∧ mailbox.granted = [] ∧
      mailbox.waiting = [] := by
    generalize a.wait = w at hqueue hb
    cases hb with
    | free =>
      obtain ⟨hg, hwt⟩ := hqueue.empty fun m' he => by cases he
      exact ⟨rfl, hg, hwt⟩
    | granted hin =>
      cases hqueue with
      | called hg hwt => exact ⟨rfl, by simp [Mailbox.redeem, hg], hwt⟩
      | idle hg | inLine hg | turned _ hg => rw [hg] at hin; cases hin
  have hnot (m' : Message) : y.wait ≠ .room m' := by
    rw [hy.wait]
    intro he
    cases m <;> cases he
  refine h.post ha rfl rfl hd.beside (hd.solitary h.solitary hx) ?_ ?_
    (.inl (hprinter (printer_mem_wakeReceiver hreceiving))) (hy.duty ?_ ?_ ?_)
  · change Handshake c.printer mailbox.items (some y.wait)
    rw [hitems, hy.wait]
    exact hshake.accept hw hs hc (backlog_of_message? hn)
  · exact .idle hg hwt fun m' he => hnot m' (Option.some.inj he)
  · intro w he
    cases m <;> cases he
  · intro deadline he
    cases m <;> cases he
  · exact fun m' he => absurd (hy.wait.trans he) (hnot m')

theorem Lone.refuse {slots : Nat} (h : Lone (· ∈ c.ready) c) (ha : c.activity? soloist = some a)
    (hc : c.mailbox.closed = true)
    (hd : Deed c soloist x a.wait ((record { c with slots } (.refused soloist m)).log
      (.dropped m.kind)) (afterSend false m))
    (hx : x.starts = false) (hy : Continues (afterSend false m) (here' soloist) y)
    (hprinter : .printer ∈ c.ready → here' .printer) :
    Lone here' (((record { c with slots } (.refused soloist m)).log (.dropped m.kind)).setActivity
      soloist y) := by
  have hshut := h.staged.isShut hc
  have hover : c.printer = .stopped ∨ c.printer = .crashed := by
    cases h.staged with
    | running _ _ ho => rw [ho] at hc; cases hc
    | stopped hp => exact .inl hp
    | crashed hp => exact .inr hp
  refine h.stay ha rfl rfl rfl hd.beside (hd.solitary h.solitary hx) ?_ ?_ hprinter
    (hy.duty ?_ ?_ ?_)
  · rw [hshut.items]
    exact .ended hover fun n he => next_afterSend_false m n
      (hy.wait.symm.trans (Option.some.inj he))
  · refine .idle hshut.granted hshut.waiting fun m' he => ?_
    have hn := hy.wait.symm.trans (Option.some.inj he)
    cases m <;> cases hn
  all_goals
    intro w he
    cases m <;> cases he

theorem Lone.join {slots : Nat} (h : Lone (· ∈ c.ready) c) (ha : c.activity? soloist = some a)
    (hp : a.program = x :: rest) (hw : a.wait = .fresh)
    (hm : x.message? ⟨c.slots, soloist⟩ = some m) (hr : c.mailbox.room = 0)
    (hd : Deed c soloist x a.wait { c with slots, mailbox := c.mailbox.join soloist }
      (.blocked (.room m)))
    (hx : x.starts = false) (hy : Continues (.blocked (.room m)) (here' soloist) y)
    (hpy : y.program = a.program) (hprinter : .printer ∈ c.ready → here' .printer) :
    Lone here' (setActivity { c with slots, mailbox := c.mailbox.join soloist } soloist y) := by
  have hshake := h.handshake
  have hqueue := h.queue
  rw [soloWait_of ha, hw] at hshake hqueue
  obtain ⟨hg, hwt⟩ := hqueue.empty fun m' he => by cases he
  refine h.post ha rfl rfl hd.beside (hd.solitary h.solitary hx) ?_ ?_ ?_ (hy.duty ?_ ?_ ?_)
  · rw [hy.wait]
    refine hshake.goOn (.inl fun w he => ?_) fun n he => by cases he
    rw [← Option.some.inj he]
    rfl
  · rw [hy.wait]
    refine .inLine hg (by simp [Mailbox.join, hwt]) ?_
    simp only [Mailbox.room, hg, List.length_nil] at hr
    simp only [Mailbox.join]
    omega
  · refine h.printer.imp hprinter fun hst => ?_
    exact hst.of_eq rfl rfl rfl fun _ _ => (hd.solitary h.solitary hx).isHeld_put (a := a) ha y
  · exact fun w he hne => ⟨hne, by rw [hy.wait]; trivial⟩
  · intro deadline he
    cases he
  · intro m' he
    cases he
    exact ⟨x, rest, c.slots, hpy.trans hp, hm⟩

theorem Lone.park (h : Lone (· ∈ c.ready) c) (ha : c.activity? soloist = some a)
    (hw : a.wait = .hungUp ∨ a.wait = .termination) (ht : c.terminated = false)
    (hd : Deed c soloist x a.wait (c.park soloist) (.blocked a.wait)) (hx : x.starts = false)
    (hy : Continues (.blocked a.wait) (here' soloist) y)
    (hprinter : .printer ∈ c.ready → here' .printer) :
    Lone here' ((c.park soloist).setActivity soloist y) := by
  have hshake := h.handshake
  have hqueue := h.queue
  rw [soloWait_of ha] at hshake hqueue
  obtain ⟨hin, -⟩ := c.mem_park soloist
  obtain ⟨parked, he⟩ := c.park_eq soloist
  have hroom (m : Message) : a.wait ≠ .room m := by
    intro he
    rcases hw with hw | hw <;> cases hw.symm.trans he
  obtain ⟨hg, hwt⟩ := hqueue.empty hroom
  rw [he] at hin hd ⊢
  refine h.stay ha rfl rfl rfl hd.beside (hd.solitary h.solitary hx) ?_ ?_ hprinter
    (hy.duty ?_ ?_ ?_)
  · rw [hy.wait]
    exact hshake
  · rw [hy.wait]
    exact .idle hg hwt fun m he => hroom m (Option.some.inj he)
  · intro w _ hne
    refine ⟨hne, ?_⟩
    rw [hy.wait, Stage.next]
    rcases hw with hw | hw <;> rw [hw] <;> exact ⟨ht, hin⟩
  · intro deadline hn
    rcases hw with hw | hw <;> cases hw.symm.trans hn
  · exact fun m hm => absurd hm (hroom m)

theorem Lone.deed (h : Lone (· ∈ c.ready) c) (ha : c.activity? soloist = some a)
    (hp : a.program = x :: rest) (hd : Deed c soloist x a.wait e stage) (hx : x.starts = false)
    (hy : Continues stage (here' soloist) y)
    (hpy : y.program = a.program ∨ ∀ w, stage ≠ .blocked w)
    (hh : ∀ i ∈ e.ready, i ≠ soloist → here' i) : Lone here' (e.setActivity soloist y) := by
  have hprinter (hi : .printer ∈ e.ready) : here' .printer := hh _ hi (by simp [soloist])
  have hd' := hd
  cases hd with
  | still hs => exact h.still ha hs hy hpy hprinter
  | accept hm ho hb => exact h.accept ha hp hm ho hb hd' hx hy hprinter
  | refuse hm hc => exact h.refuse ha hc hd' hx hy hprinter
  | join hw hm _ hr =>
    rw [hw] at hm
    exact h.join ha hp hw hm hr hd' hx hy (hpy.resolve_right fun hn => hn _ rfl) hprinter
  | park hw ht =>
    obtain ⟨parked, he⟩ := c.park_eq soloist
    exact h.park ha hw ht hd' hx hy fun hi => hprinter (by rw [he]; exact hi)
  | supervise _ hs =>
    rw [hs] at hx
    cases hx
  | @sleep n hw =>
    have hfresh : a.wait = .fresh := hw
    refine h.goOn ha (.inl (by rw [hfresh]; rfl)) (by simp [hfresh]) rfl rfl rfl hd'.beside
      (hd'.solitary h.solitary hx) ?_ ?_ hprinter (hy.duty ?_ ?_ ?_)
    · rw [hy.wait]
      exact fun n he => by cases he
    · rw [hy.wait]
      exact fun m he => by cases he
    · exact fun w _ hne => ⟨hne, by rw [hy.wait]; trivial⟩
    · intro deadline he
      cases he
      exact List.mem_append_right _ List.mem_cons_self
    · intro m he
      cases he

theorem Lone.record (h : Lone here c) (event : Event) : Lone here (c.record event) :=
  ⟨{ h.solitary with }, h.staged, h.capacity, h.handshake, h.queue, h.reader, h.printer,
    fun a ha => { h.duty a ha with }⟩

theorem Lone.pursuit (h : Lone (· ∈ c.ready) c) (ha : c.activity? soloist = some a)
    (hd : Pursuit c soloist a note d pace) (hp : pace = .resting ∨ pace = .moving)
    (hid : soloist ∈ c.ready) : Lone (Next d.ready soloist (pace = .moving)) d := by
  have hmodest := (h.duty a ha).modest
  have hothers {e : Console} {more : Bool} (i : TaskId) (hi : i ∈ e.ready) (hne : i ≠ soloist) :
      Next e.ready soloist more i :=
    ⟨hi, fun _ => hne⟩
  cases hd with
  | ended => rcases hp with hp | hp <;> cases hp
  | crashed => rcases hp with hp | hp <;> cases hp
  | @rested x rest e w hprog he =>
    have hd := deed_of_perform he
    have hne : a.program ≠ [] := by simp [hprog]
    exact h.deed ha hprog hd (hmodest x (hprog ▸ List.mem_cons_self))
      ⟨rfl, hmodest, .inr ⟨⟨w, rfl⟩, hne⟩, fun hn => absurd hn hne⟩ (.inl rfl) hothers
  | @moved x rest e w hprog he =>
    have hd := deed_of_perform he
    have hne : a.program ≠ [] := by simp [hprog]
    exact h.deed ha hprog hd (hmodest x (hprog ▸ List.mem_cons_self))
      ⟨rfl, hmodest, .inl ⟨hd.mem_ready hid, nofun⟩, fun hn => absurd hn hne⟩ (.inr nofun) hothers
  | @followed x next rest e o hprog he hf =>
    have hd := deed_of_perform he
    refine h.deed ha hprog hd (hmodest x (hprog ▸ List.mem_cons_self)) ⟨rfl, fun v hv => ?_,
      .inl ⟨hd.mem_ready hid, nofun⟩, nofun⟩ (.inr nofun) hothers
    rcases List.mem_cons.1 hv with rfl | hv
    · exact starts_followUp hf
    · exact hmodest v (hprog ▸ List.mem_cons_of_mem x hv)
  | @finished x rest e o hprog he hf =>
    have hd := deed_of_perform he
    rw [record_setActivity]
    have hl : Lone (Next e.ready soloist true)
        (e.setActivity soloist { program := rest, index := a.index + 1 }) :=
      h.deed ha hprog hd (hmodest x (hprog ▸ List.mem_cons_self))
        ⟨rfl, fun v hv => hmodest v (hprog ▸ List.mem_cons_of_mem x hv),
          .inl ⟨hd.mem_ready hid, nofun⟩, fun _ => rfl⟩ (.inr nofun) hothers
    exact hl.record _

theorem Lone.enter (h : Lone here c) (hs : here soloist → here' soloist)
    (hp : here' .printer ∨ c.Stalls) : Lone here' c :=
  ⟨h.solitary, h.staged, h.capacity, h.handshake, h.queue.enter hs, h.reader, hp, fun a ha =>
    have hd := h.duty a ha
    { hd with
      idles := hd.idles.imp_left hs
      alarm := fun deadline hw => (hd.alarm deadline hw).imp_right (And.imp_left hs) }⟩

theorem Lone.aside (h : Lone (· ∈ c.ready) c) (hp : id ≠ .printer)
    (ho : id = soloist → c.activity? soloist = none) : Lone (Next c.ready id false) c := by
  by_cases hi : id = soloist
  · have hnone := ho hi
    refine ⟨h.solitary, h.staged, h.capacity, h.handshake, ?_, h.reader, ?_, fun a ha => ?_⟩
    · have hqueue := h.queue
      have hwait : c.soloWait = none := by rw [soloWait, hnone]; rfl
      rw [hwait] at hqueue ⊢
      cases hqueue with
      | idle hg hw hn => exact .idle hg hw hn
    · exact h.printer.imp_left fun hr => ⟨hr, fun _ => Ne.symm hp⟩
    · rw [hnone] at ha
      cases ha
  · exact h.enter (fun hs => ⟨hs, fun _ => Ne.symm hi⟩)
      (h.printer.imp_left fun hr => ⟨hr, fun _ => Ne.symm hp⟩)

theorem Stalls.letGo (h : .printer ∈ c.ready ∨ c.Stalls) (hp : d.printer = c.printer)
    (hi : d.mailbox.items = c.mailbox.items) (hr : d.reader = c.reader) (hd : d.ready = c.ready) :
    .printer ∈ d.letGo.ready ∨ d.letGo.Stalls := by
  rcases h with h | hst
  · exact .inl (mem_letGo (hd ▸ h))
  · by_cases hn : d.printer = .receiving ∧ d.isHeld = false
    · refine .inl ?_
      simp only [Console.letGo, hn.2, Bool.false_eq_true, if_false]
      exact printer_mem_wakeReceiver hn.1
    · refine .inr (hst.of_eq hp hi hr fun hc _ => ?_)
      change d.isHeld = true
      rwa [hp, hc, eq_self, true_and, Bool.not_eq_false] at hn

theorem Lone.endProducer (h : Lone (· ∈ c.ready) c) (ha : c.activity? soloist = some a)
    (hw : a.wait = .fresh) :
    Lone (Next (c.endProducer 0).ready soloist false) (c.endProducer 0) := by
  have hnone : (c.endProducer 0).activity? soloist = none := activity?_soloist_set ha none
  have hwait : (c.endProducer 0).soloWait = none := by rw [soloWait, hnone]; rfl
  have hshake := h.handshake
  have hqueue := h.queue
  rw [soloWait_of ha, hw] at hshake hqueue
  obtain ⟨hg, hwt⟩ := hqueue.empty nofun
  have hs : Solitary (c.endProducer 0) :=
    { h.solitary with producers := (List.length_set ..).trans_le h.solitary.producers }
  refine ⟨hs, h.staged, h.capacity, ?_, ?_, h.reader, ?_, ?_⟩
  · rw [hwait]
    refine hshake.goOn (.inl fun w he => ?_) nofun
    rw [← Option.some.inj he]
    rfl
  · rw [hwait]
    exact .idle hg hwt nofun
  · exact (Stalls.letGo (d := { c with producers := c.producers.set 0 none }) h.printer rfl rfl rfl
      rfl).imp_left fun hi => ⟨hi, nofun⟩
  · intro b hb
    rw [hnone] at hb
    cases hb

theorem Pursuit.wait_of_crashed (h : Pursuit c id a note d .crashed) : a.wait = .fresh := by
  cases h with
  | crashed _ he =>
    have hd := deed_of_perform he
    generalize a.wait = w, hst : Stage.crashed = stage at hd
    cases hd with
    | still hs =>
      subst hst
      cases hs
      rfl
    | @accept m | @refuse m => cases m <;> cases hst
    | _ => cases hst

theorem Lone.producerTurn {n : Nat} (h : Lone (· ∈ c.ready) c) (hd : ProducerTurn c n d more)
    (hid : .producer n ∈ c.ready) : Lone (Next d.ready (.producer n) more) d := by
  cases hd with
  | off ho => exact h.aside nofun fun he => he ▸ ho
  | @on b d pace hb hp hpace =>
    obtain rfl := h.solitary.number hb
    exact h.pursuit hb hp hpace hid
  | @quit b d pace hb hp hpace =>
    obtain rfl := h.solitary.number hb
    obtain rfl := hp.stop_eq hpace
    refine h.endProducer hb ?_
    rcases hpace with rfl | rfl
    · cases hp with
      | ended hprog => exact (h.duty b hb).spent hprog
    · exact hp.wait_of_crashed

end Console

end JobConsole
