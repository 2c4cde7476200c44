import JobConsole.Proofs.Frame

namespace JobConsole

namespace Event

def isPrinters : Event → Bool
  | wrote _ | flushed | ending .. | handled _ | discarded _ | read .. => true
  | logged d => d.origin = .printing
  | _ => false

def isStarts : Event → Bool
  | logged (.started ..) | logged (.alreadyStarted _) => true
  | _ => false

def isDeeds (id : TaskId) : Event → Bool
  | accepted sender _ | refused sender _ => sender = id
  | logged (.dropped _) => true
  | e => e.isStarts

def isCalls : Event → Bool
  | call .. | logged _ => true
  | _ => false

def isTasks : Event → Bool
  | accepted .. | refused .. | finished .. => true
  | e => e.isCalls

def isLogged : Event → Bool
  | logged _ => true
  | _ => false

def isWatches : Event → Bool
  | logged _ | read .. | ending .. => true
  | _ => false

theorem isDeeds_of_isStarts (id : TaskId) {e : Event} (h : e.isStarts) : e.isDeeds id := by
  unfold isDeeds
  split <;> first | rfl | exact h | cases h

theorem isWatches_of_isLogged {e : Event} (h : e.isLogged) : e.isWatches := by
  cases e <;> first | rfl | cases h

theorem isTasks_of_isCalls {e : Event} (h : e.isCalls) : e.isTasks := by
  cases e <;> first | rfl | cases h

theorem isTasks_of_isDeeds {id : TaskId} {e : Event} (h : e.isDeeds id) : e.isTasks := by
  cases e <;> first | rfl | cases h

end Event

namespace Console

def Adds (p : Event → Bool) (c d : Console) : Prop :=
  ∃ news, d.events = c.events ++ news ∧ ∀ e ∈ news, p e

variable {p : Event → Bool} {c d e : Console} {id : TaskId}

theorem Adds.same (h : d.journal = c.journal) : Adds p c d :=
  ⟨[], by simp [events, h], nofun⟩

theorem Adds.trans (h : Adds p c d) (g : Adds p d e) : Adds p c e := by
  obtain ⟨xs, hx, hp⟩ := h
  obtain ⟨ys, hy, hq⟩ := g
  refine ⟨xs ++ ys, by rw [hy, hx, List.append_assoc], fun e he => ?_⟩
  exact (List.mem_append.1 he).elim (hp e) (hq e)

theorem Adds.record {x : Event} (h : Adds p c d) (hx : p x) : Adds p c (d.record x) :=
  h.trans ⟨[x], events_record d x, by simpa using hx⟩

theorem Adds.mono {q : Event → Bool} (h : Adds p c d) (hq : ∀ e, p e → q e) : Adds q c d := by
  obtain ⟨xs, hx, hp⟩ := h
  exact ⟨xs, hx, fun e he => hq e (hp e he)⟩

theorem adds_setActivity (c : Console) (id : TaskId) (a : Activity) :
    Adds p c (c.setActivity id a) := by
  obtain ⟨producers, ticker, h⟩ := c.setActivity_eq id a
  rw [h]
  exact .same rfl

theorem adds_stopPrinter (c : Console) : Adds Event.isPrinters c c.stopPrinter := by
  refine ⟨.logged .printerStopped :: c.mailbox.items.map Event.discarded, ?_, fun e he => ?_⟩
  · rw [events_stopPrinter, List.append_assoc, List.singleton_append]
  · rcases List.mem_cons.1 he with rfl | he
    · rfl
    · obtain ⟨m, -, rfl⟩ := List.mem_map.1 he
      rfl

theorem adds_crashPrinter (c : Console) (m : Message) :
    Adds Event.isPrinters c (c.crashPrinter m) := by
  refine ⟨c.mailbox.items.map Event.discarded, events_crashPrinter c m, fun e he => ?_⟩
  obtain ⟨m, -, rfl⟩ := List.mem_map.1 he
  rfl

theorem adds_take (c : Console) (t : Mailbox.Taken TaskId) :
    Adds Event.isPrinters c (c.take t) :=
  .record (d := wakeAll { c with mailbox := t.mailbox } t.woken.toList) (.same rfl) rfl

theorem adds_shown (c : Console) (kind : Kind) (r : Display.Drawn) :
    Adds Event.isPrinters c (c.shown kind r) := by
  have hw : Adds Event.isPrinters c (Console.record { c with display := r.display } (.wrote r.bytes)) :=
    .record (.same rfl) rfl
  unfold shown
  split
  · exact hw.record rfl
  · exact hw.record (x := .logged _) rfl

theorem adds_read (c : Console) (i : TaskId) (result : Except Failure String) :
    Adds Event.isPrinters c ((c.resumeRead id).record (.read i result)) :=
  .record (.same rfl) rfl

theorem PrinterTurn.adds {more : Bool} (h : PrinterTurn c d more) : Adds Event.isPrinters c d := by
  cases h with
  | gone => exact .same rfl
  | idle => exact .same rfl
  | deserted => exact adds_stopPrinter c
  | choked => exact (adds_take c _).trans (adds_crashPrinter _ _)
  | told => exact (adds_take c _).trans (adds_shown _ _ _)
  | @asked t r => exact (adds_take c t).trans (adds_shown _ t.message.kind r)
  | @exited t r code =>
    have hs := (adds_take c t).trans (adds_shown _ t.message.kind r)
    exact (hs.record (x := .logged (.exiting code)) rfl).record
      (x := .ending .printer (.exit code)) rfl
  | pending => exact .same rfl
  | @heard slot line =>
    have hr : Adds Event.isPrinters c
        ((c.resumeRead .printer).record (.read .printer (.ok line))) := adds_read c _ _
    rcases ((c.resumeRead .printer).record (.read .printer (.ok line))).answer_eq slot line with
      ⟨producers, ticker, ready, he⟩ | he <;> rw [he]
    · exact hr.trans (.same rfl)
    · exact hr.record (x := .logged .askerGone) rfl
  | @failed slot failure =>
    have hr : Adds Event.isPrinters c
        ((c.resumeRead .printer).record (.read .printer (.error failure))) := adds_read c _ _
    have hl := (hr.record (x := .logged (.answerFailed failure)) rfl).record
      (x := .ending .printer (.abort failure)) rfl
    obtain ⟨producers, ticker, ready, he⟩ :=
      ((((c.resumeRead .printer).record (.read .printer (.error failure))).log
        (.answerFailed failure)).record (.ending .printer (.abort failure))).hangUp_eq slot
    rw [he]
    exact hl.trans (.same rfl)
  | left => exact adds_stopPrinter c

theorem SignalWatchTurn.logs {more : Bool} (h : SignalWatchTurn c d more) :
    Adds Event.isLogged c d := by
  cases h with
  | @disable cause =>
    exact .record (x := .logged (.signalsDisabled (.signalRegistration cause))) (.same rfl) rfl
  | hear => exact .record (x := .logged .signalReceived) (.same rfl) rfl
  | _ => exact .same rfl

theorem SignalWatchTurn.adds {more : Bool} (h : SignalWatchTurn c d more) :
    Adds Event.isWatches c d :=
  h.logs.mono fun _ => Event.isWatches_of_isLogged

theorem KeywordWatchTurn.adds {more : Bool} (h : KeywordWatchTurn c d more) :
    Adds Event.isWatches c d := by
  have hr (result : Except Failure String) : Adds Event.isWatches c
      ((c.resumeRead .keywordWatch).record (.read .keywordWatch result)) :=
    .record (.same rfl) rfl
  cases h with
  | off => exact .same rfl
  | stop => exact .same rfl
  | pending => exact .same rfl
  | keyword => exact ((hr _).record (x := .logged .keywordReceived) rfl).trans (.same rfl)
  | other => exact hr _
  | @failed failure =>
    have hf := (hr (.error failure)).record (x := .logged (.watchFailed failure)) rfl
    exact (hf.record (x := .ending .keywordWatch (.abort failure)) rfl).trans (.same rfl)

theorem Supervised.adds {k : Nat} {interactive first : Bool}
    (h : Supervised c k interactive d first) : Adds Event.isStarts c d := by
  cases h with
  | already => exact .record (x := .logged (.alreadyStarted (c.job k).name)) (.same rfl) rfl
  | started =>
    exact .record (x := .logged (.started (c.job k).name c.settings.interval interactive))
      (.same rfl) rfl

theorem Deed.adds {s : Statement} {w : Wait} {stage : Stage} (h : Deed c id s w d stage) :
    Adds (Event.isDeeds id) c d := by
  cases h with
  | still => exact .same rfl
  | @accept m slots mailbox =>
    have ha : Adds (Event.isDeeds id) c (Console.record { c with slots, mailbox } (.accepted id m)) :=
      .record (.same rfl) (decide_eq_true rfl)
    exact ha.trans (.same rfl)
  | @refuse m slots =>
    have hr : Adds (Event.isDeeds id) c (Console.record { c with slots } (.refused id m)) :=
      .record (.same rfl) (decide_eq_true rfl)
    exact hr.record (x := .logged (.dropped m.kind)) rfl
  | join => exact .same rfl
  | park =>
    unfold Console.park
    split <;> exact .same rfl
  | @supervise k interactive =>
    exact (c.supervise_cases k interactive).adds.mono fun _ => Event.isDeeds_of_isStarts id
  | sleep => exact .same rfl

theorem Pursuit.adds {a : Activity} {note : Outcome → Event} {pace : Pace}
    (h : Pursuit c id a note d pace) (hp : ∀ e, e.isDeeds id → p e) (hn : ∀ o, p (note o)) :
    Adds p c d := by
  have hd {s : Statement} {w : Wait} {d : Console} {stage : Stage}
      (he : c.perform id s w = (d, stage)) : Adds p c d :=
    (deed_of_perform he).adds.mono hp
  cases h with
  | ended => exact .same rfl
  | rested hp he => exact (hd he).trans (adds_setActivity _ _ _)
  | moved hp he => exact (hd he).trans (adds_setActivity _ _ _)
  | crashed hp he => exact hd he
  | followed hp he => exact (hd he).trans (adds_setActivity _ _ _)
  | finished hp he => exact ((hd he).record (hn _)).trans (adds_setActivity _ _ _)

theorem ProducerTurn.adds {n : Nat} {more : Bool} (h : ProducerTurn c n d more) :
    Adds Event.isTasks c d := by
  cases h with
  | off => exact .same rfl
  | on h hd => exact hd.adds (fun _ => Event.isTasks_of_isDeeds) fun _ => rfl
  | @quit a d pace h hd =>
    have hp : Adds Event.isTasks c d := hd.adds (fun _ => Event.isTasks_of_isDeeds) fun _ => rfl
    exact hp.trans (.same rfl)

theorem adds_recover (c : Console) (s : Supervision) (r : Option Request) :
    Adds Event.isCalls c (c.recover s r) := by
  have hl : Adds Event.isCalls c (c.log (.callCrashed (c.job s.job).name r.isSome)) :=
    .record (.same rfl) rfl
  cases r <;> exact hl.trans (.same rfl)

theorem adds_beginCall (c : Console) (s : Supervision) :
    Adds Event.isCalls c (c.beginCall s) := by
  unfold beginCall
  refine .record ?_ rfl
  cases c.request with
  | none => exact .same rfl
  | some r => exact .record (x := .logged _) (.same rfl) rfl

theorem CallTurn.adds {s : Supervision} {request : Option Request} {a : Activity} {more : Bool}
    (h : CallTurn c s request a d more) : Adds Event.isTasks c d := by
  have hp {d : Console} {pace : Pace}
      (hd : Pursuit c .ticker a (Event.call s.job request (s.tally.number request) ∘ .finished)
        d pace) : Adds Event.isTasks c d :=
    hd.adds (fun _ => Event.isTasks_of_isDeeds) fun _ => rfl
  cases h with
  | on hd => exact hp hd
  | ended hd =>
    exact ((hp hd).record (x := .call s.job request (s.tally.number request) .ended) rfl).trans
      (.same rfl)
  | crashed hd =>
    have hc := (hp hd).record (x := .call s.job request (s.tally.number request) .crashed) rfl
    refine hc.trans (.trans (adds_recover _ s request |>.mono ?_) (.same rfl))
    exact fun _ => Event.isTasks_of_isCalls

theorem TickerTurn.adds {more : Bool} (h : TickerTurn c d more) : Adds Event.isTasks c d := by
  cases h with
  | off => exact .same rfl
  | @stop s =>
    have hw : Adds Event.isTasks c { c.withdraw .ticker with ticker := .absent } := .same rfl
    exact (hw.record (x := .logged (.stopped (c.job s.job).name)) rfl).trans (.same rfl)
  | call => exact (adds_beginCall c _).mono fun _ => Event.isTasks_of_isCalls
  | on _ _ _ hd hp => exact (CallTurn.on hd hp).adds
  | ended _ _ _ hd => exact (CallTurn.ended hd).adds
  | crashed _ _ _ hd => exact (CallTurn.crashed hd).adds
  | due => exact .same rfl
  | asleep => exact .same rfl

theorem turn_adds (c : Console) (h : id ≠ .printer) :
    Adds (fun e => e.isWatches || e.isTasks) c (c.turn id).1 := by
  cases id with
  | printer => exact absurd rfl h
  | signalWatch => exact (signalWatchTurn_cases c).adds.mono fun e he => by simp [he]
  | keywordWatch => exact (keywordWatchTurn_cases c).adds.mono fun e he => by simp [he]
  | ticker => exact (tickerTurn_cases c).adds.mono fun e he => by simp [he]
  | producer n => exact (producerTurn_cases c n).adds.mono fun e he => by simp [he]

end Console

end JobConsole
