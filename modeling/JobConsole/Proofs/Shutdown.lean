import JobConsole.Proofs.Frame
import JobConsole.Proofs.Mailbox

namespace JobConsole

inductive Phase (p : Printer) (b : Mailbox TaskId) (terminated : Bool) : Prop
  | running (hs : p ≠ .stopped) (hc : p ≠ .crashed) (ho : b.closed = false)
      (ht : terminated = false)
  | stopped (hp : p = .stopped) (hb : b.IsShut) (ht : terminated = true)
  | crashed (hp : p = .crashed) (hb : b.IsShut) (ht : terminated = false)

theorem Phase.open {p : Printer} {b : Mailbox TaskId} {t : Bool} (h : Phase p b t)
    (hs : p ≠ .stopped) (hc : p ≠ .crashed) : b.closed = false ∧ t = false := by
  cases h with
  | running _ _ ho ht => exact ⟨ho, ht⟩
  | stopped hp => exact absurd hp hs
  | crashed hp => exact absurd hp hc

namespace Console

def Staged (c : Console) : Prop :=
  Phase c.printer c.mailbox c.terminated

structure Beside (c d : Console) : Prop where
  printer : d.printer = c.printer
  terminated : d.terminated = c.terminated
  display : d.display = c.display
  settings : d.settings = c.settings
  capacity : d.mailbox.capacity = c.mailbox.capacity
  closed : d.mailbox.closed = c.mailbox.closed
  shut : c.mailbox.IsShut → d.mailbox.IsShut

variable {c d e : Console} {id : TaskId}

theorem Beside.same (hp : d.printer = c.printer) (ht : d.terminated = c.terminated)
    (hd : d.display = c.display) (hs : d.settings = c.settings) (hb : d.mailbox = c.mailbox) :
    Beside c d :=
  ⟨hp, ht, hd, hs, by rw [hb], by rw [hb], fun h => by rwa [hb]⟩

theorem Beside.trans (h : Beside c d) (g : Beside d e) : Beside c e :=
  ⟨g.printer.trans h.printer, g.terminated.trans h.terminated, g.display.trans h.display,
    g.settings.trans h.settings, g.capacity.trans h.capacity, g.closed.trans h.closed,
    fun hb => g.shut (h.shut hb)⟩

theorem Staged.beside (h : Staged c) (hd : Beside c d) : Staged d := by
  obtain ⟨hp, ht, -, -, -, hc, hb⟩ := hd
  cases h with
  | running hs hn ho hn' =>
    exact .running (by rwa [hp]) (by rwa [hp]) (by rwa [hc]) (by rwa [ht])
  | stopped hs hi ht' => exact .stopped (by rwa [hp]) (hb hi) (by rwa [ht])
  | crashed hs hi ht' => exact .crashed (by rwa [hp]) (hb hi) (by rwa [ht])

theorem Enters.keeps {b b' : Mailbox TaskId} {m : Message} {w : Wait} (h : Enters b id m w b') :
    b'.capacity = b.capacity ∧ b'.closed = b.closed := by
  cases h <;> exact ⟨rfl, rfl⟩

theorem Beside.of_open (hp : d.printer = c.printer) (ht : d.terminated = c.terminated)
    (hd : d.display = c.display) (hs : d.settings = c.settings) (ho : c.mailbox.closed = false)
    (hc : d.mailbox.capacity = c.mailbox.capacity ∧ d.mailbox.closed = c.mailbox.closed) :
    Beside c d :=
  ⟨hp, ht, hd, hs, hc.1, hc.2, fun hb => absurd hb.closed (by simp [ho])⟩

theorem beside_setActivity (c : Console) (id : TaskId) (a : Activity) :
    Beside c (c.setActivity id a) := by
  obtain ⟨producers, ticker, h⟩ := c.setActivity_eq id a
  rw [h]
  exact .same rfl rfl rfl rfl rfl

theorem beside_withdraw (c : Console) (id : TaskId) : Beside c (c.withdraw id) :=
  ⟨rfl, rfl, rfl, rfl, (c.mailbox.leave_items id).2.2, (c.mailbox.leave_items id).2.1,
    fun hb => hb.leave id⟩

theorem beside_recover (c : Console) (s : Supervision) (r : Option Request) :
    Beside c (c.recover s r).pause := by
  cases r <;> exact .same rfl rfl rfl rfl rfl

theorem beside_endKeywordWatch (c : Console) : Beside c c.endKeywordWatch :=
  .same rfl rfl rfl rfl rfl

theorem beside_beginCall (c : Console) (s : Supervision) : Beside c (c.beginCall s) := by
  unfold beginCall
  cases c.request <;> exact .same rfl rfl rfl rfl rfl

theorem Supervised.beside {k : Nat} {interactive first : Bool}
    (h : Supervised c k interactive d first) : Beside c d := by
  cases h <;> exact .same rfl rfl rfl rfl rfl

theorem Deed.beside {s : Statement} {w : Wait} {stage : Stage} (h : Deed c id s w d stage) :
    Beside c d := by
  cases h with
  | still => exact .same rfl rfl rfl rfl rfl
  | accept hm ho hb => exact .of_open rfl rfl rfl rfl ho hb.keeps
  | refuse => exact .same rfl rfl rfl rfl rfl
  | join hw hm ho hr => exact .of_open rfl rfl rfl rfl ho ⟨rfl, rfl⟩
  | park =>
    unfold Console.park
    split <;> exact .same rfl rfl rfl rfl rfl
  | @supervise k interactive => exact (c.supervise_cases k interactive).beside
  | sleep => exact .same rfl rfl rfl rfl rfl

theorem Pursuit.beside {a : Activity} {note : Outcome → Event} {pace : Pace}
    (h : Pursuit c id a note d pace) : Beside c d := by
  cases h with
  | ended => exact .same rfl rfl rfl rfl rfl
  | rested hp he => exact (deed_of_perform he).beside.trans (beside_setActivity _ _ _)
  | moved hp he => exact (deed_of_perform he).beside.trans (beside_setActivity _ _ _)
  | crashed hp he => exact (deed_of_perform he).beside
  | followed hp he => exact (deed_of_perform he).beside.trans (beside_setActivity _ _ _)
  | finished hp he =>
    refine (deed_of_perform he).beside.trans (.trans ?_ (beside_setActivity _ _ _))
    exact .same rfl rfl rfl rfl rfl

theorem ProducerTurn.beside {n : Nat} {more : Bool} (h : ProducerTurn c n d more) :
    Beside c d := by
  cases h with
  | off => exact .same rfl rfl rfl rfl rfl
  | on h hd => exact hd.beside
  | quit h hd => exact hd.beside.trans (.same rfl rfl rfl rfl rfl)

theorem CallTurn.beside {s : Supervision} {request : Option Request} {a : Activity} {more : Bool}
    (h : CallTurn c s request a d more) : Beside c d := by
  cases h with
  | on hd => exact hd.beside
  | ended hd => exact hd.beside.trans (.same rfl rfl rfl rfl rfl)
  | crashed hd =>
    refine hd.beside.trans (.trans ?_ (beside_recover _ _ _))
    exact .same rfl rfl rfl rfl rfl

theorem TickerTurn.beside {more : Bool} (h : TickerTurn c d more) : Beside c d := by
  cases h with
  | off => exact .same rfl rfl rfl rfl rfl
  | stop => exact (beside_withdraw c .ticker).trans (.same rfl rfl rfl rfl rfl)
  | call => exact beside_beginCall c _
  | on _ _ _ hd hp => exact (CallTurn.on hd hp).beside
  | ended _ _ _ hd => exact (CallTurn.ended hd).beside
  | crashed _ _ _ hd => exact (CallTurn.crashed hd).beside
  | due => exact .same rfl rfl rfl rfl rfl
  | asleep => exact .same rfl rfl rfl rfl rfl

theorem SignalWatchTurn.beside {more : Bool} (h : SignalWatchTurn c d more) : Beside c d := by
  cases h <;> exact .same rfl rfl rfl rfl rfl

theorem KeywordWatchTurn.beside {more : Bool} (h : KeywordWatchTurn c d more) : Beside c d := by
  cases h with
  | off => exact .same rfl rfl rfl rfl rfl
  | stop => exact beside_endKeywordWatch c
  | pending => exact .same rfl rfl rfl rfl rfl
  | keyword =>
    refine .trans ?_ (beside_endKeywordWatch _)
    exact .same rfl rfl rfl rfl rfl
  | other => exact .same rfl rfl rfl rfl rfl
  | failed =>
    refine .trans ?_ (beside_endKeywordWatch _)
    exact .same rfl rfl rfl rfl rfl

theorem turn_beside (c : Console) (h : id ≠ .printer) : Beside c (c.turn id).1 := by
  cases id with
  | printer => exact absurd rfl h
  | signalWatch => exact (signalWatchTurn_cases c).beside
  | keywordWatch => exact (keywordWatchTurn_cases c).beside
  | ticker => exact (tickerTurn_cases c).beside
  | producer n => exact (producerTurn_cases c n).beside

theorem staged_stopPrinter (c : Console) : Staged c.stopPrinter := by
  obtain ⟨producers, ticker, ready, h⟩ := c.stopPrinter_eq
  rw [h]
  exact .stopped rfl c.mailbox.isShut_close_drain rfl

theorem staged_crashPrinter (m : Message) (ht : c.terminated = false) :
    Staged (c.crashPrinter m) := by
  obtain ⟨producers, ticker, ready, h⟩ := c.crashPrinter_eq m
  rw [h]
  exact .crashed rfl c.mailbox.isShut_close_drain ht

theorem Staged.open (h : Staged c) (hs : c.printer ≠ .stopped) (hc : c.printer ≠ .crashed) :
    c.mailbox.closed = false ∧ c.terminated = false :=
  Phase.open h hs hc

theorem Staged.isShut (h : Staged c) (hc : c.mailbox.closed = true) : c.mailbox.IsShut := by
  cases h with
  | running _ _ ho => rw [ho] at hc; cases hc
  | stopped _ hb => exact hb
  | crashed _ hb => exact hb

theorem PrinterTurn.staged {more : Bool} (h : PrinterTurn c d more) (hc : Staged c) : Staged d := by
  cases h with
  | gone => exact hc
  | idle => exact hc
  | deserted => exact staged_stopPrinter c
  | choked h =>
    have ht := (hc.open (by simp [h]) (by simp [h])).2
    exact staged_crashPrinter _ ht
  | @told t d h hm =>
    obtain ⟨ho, ht⟩ := hc.open (by simp [h]) (by simp [h])
    have hb : t.mailbox.closed = false := by rw [(Mailbox.items_of_take? hm).2, ho]
    unfold shown
    split <;> exact .running (by simp [h, record, log, take, wakeAll])
      (by simp [h, record, log, take, wakeAll]) hb ht
  | @asked t d slot h hm =>
    obtain ⟨ho, ht⟩ := hc.open (by simp [h]) (by simp [h])
    have hb : t.mailbox.closed = false := by rw [(Mailbox.items_of_take? hm).2, ho]
    unfold shown
    split <;> exact .running (by simp) (by simp) hb ht
  | @exited t d code h hm =>
    obtain ⟨ho, ht⟩ := hc.open (by simp [h]) (by simp [h])
    have hb : t.mailbox.closed = false := by rw [(Mailbox.items_of_take? hm).2, ho]
    unfold shown
    split <;> exact .running (by simp) (by simp) hb ht
  | pending h hr => exact hc
  | @heard slot line h =>
    obtain ⟨ho, ht⟩ := hc.open (by simp [h]) (by simp [h])
    rcases ((c.resumeRead .printer).record (.read .printer (.ok line))).answer_eq slot line with
      ⟨producers, ticker, ready, he⟩ | he <;> rw [he] <;> exact .running (by simp) (by simp) ho ht
  | @failed slot failure h =>
    obtain ⟨ho, ht⟩ := hc.open (by simp [h]) (by simp [h])
    obtain ⟨producers, ticker, ready, he⟩ :=
      ((((c.resumeRead .printer).record (.read .printer (.error failure))).log
        (.answerFailed failure)).record (.ending .printer (.abort failure))).hangUp_eq slot
    rw [he]
    exact .running (by simp) (by simp) ho ht
  | left => exact staged_stopPrinter c

theorem Staged.step (h : Staged c) (id : TaskId) : Staged (c.step id) := by
  obtain ⟨ready, he⟩ := c.turn_eq_step id
  have ht : Staged (c.turn id).1 := by
    by_cases hp : id = .printer
    · subst hp
      exact (printerTurn_cases c).staged h
    · exact h.beside (turn_beside c hp)
  rw [he]
  exact ht

theorem Staged.act (h : Staged c) (m : Move) : Staged (c.act m) := by
  cases m with
  | step id => exact h.step id
  | kill n =>
    change Staged (c.kill n)
    unfold Console.kill
    split
    · exact h
    · exact h.beside ((beside_withdraw c _).trans (.same rfl rfl rfl rfl rfl))
  | raise s =>
    change Staged (c.raise s)
    unfold Console.raise
    split <;> exact h
  | start k interactive =>
    exact h.beside ((c.supervise_cases k interactive).beside.trans (.same rfl rfl rfl rfl rfl))
  | _ => exact h

theorem Reachable.staged (h : c.Reachable) : Staged c := by
  refine h.invariant (fun h₀ => ?_) fun c m _ _ h => h.act m
  obtain ⟨-, rfl⟩ := new?_eq_some.1 h₀
  exact .running nofun nofun rfl rfl

end Console

end JobConsole
