import JobConsole.Proofs.Pruning

namespace JobConsole

/-- What is noted of the terminal: what it accepts, what it refuses, and that it is exchanged. -/
def Event.isTerminals : Event → Bool
  | wrote _ | flushed | logged (.terminalFailed ..) | sinkChanged _ => true
  | _ => false

namespace Console

def unplug (c : Console) : Console :=
  { c with display := {}, journal := c.journal.filter fun e => !e.event.isTerminals }

def unplugged {α : Type} (p : Console × α) : Console × α :=
  (p.1.unplug, p.2)

variable {c d : Console} {id : TaskId} {m : Message}

theorem unplug_unplug (c : Console) : c.unplug.unplug = c.unplug := by
  simp [unplug, List.filter_filter]

theorem unplug_record {e : Event} (h : e.isTerminals = false) :
    (c.record e).unplug = c.unplug.record e := by
  simp [unplug, record, h]

theorem unplug_noise {e : Event} (h : e.isTerminals = true) : (c.record e).unplug = c.unplug := by
  simp [unplug, record, h]

theorem unplug_log {x : Diagnostic} (h : (Event.logged x).isTerminals = false) :
    (c.log x).unplug = c.unplug.log x :=
  unplug_record h

theorem unplug_setActivity (c : Console) (id : TaskId) (a : Activity) :
    (c.setActivity id a).unplug = c.unplug.setActivity id a := by
  cases id <;> rfl

theorem activity?_unplug (c : Console) (id : TaskId) : c.unplug.activity? id = c.activity? id := by
  cases id <;> rfl

theorem unplug_setWait (c : Console) (id : TaskId) (w : Wait) :
    (c.setWait id w).unplug = c.unplug.setWait id w := by
  unfold setWait
  rw [activity?_unplug]
  split
  · exact c.unplug_setActivity id _
  · rfl

/-! Replies. -/

theorem expects_unplug (c : Console) (slot : ReplySlot) :
    c.unplug.expects slot = c.expects slot := by
  unfold expects
  rw [activity?_unplug]

theorem unplug_answer (c : Console) (slot : ReplySlot) (line : String) :
    (c.answer slot line).unplug = c.unplug.answer slot line := by
  unfold answer
  rw [expects_unplug, ← unplug_setWait]
  split
  · rfl
  · exact unplug_log rfl

theorem unplug_hangUp (c : Console) (slot : ReplySlot) :
    (c.hangUp slot).unplug = c.unplug.hangUp slot := by
  unfold hangUp
  rw [expects_unplug, ← unplug_setWait]
  split <;> rfl

theorem unplug_hangUpOn (c : Console) (m : Message) :
    (c.hangUpOn m).unplug = c.unplug.hangUpOn m := by
  cases m with
  | prompt text slot => exact c.unplug_hangUp slot
  | _ => rfl

theorem unplug_discardAll (ms : List Message) : ∀ c : Console,
    (ms.foldl (fun c m => (c.record (.discarded m)).hangUpOn m) c).unplug =
      ms.foldl (fun c m => (c.record (.discarded m)).hangUpOn m) c.unplug := by
  induction ms with
  | nil => exact fun _ => rfl
  | cons m ms ih =>
    intro c
    rw [List.foldl_cons, ih, unplug_hangUpOn, unplug_record rfl, List.foldl_cons]

theorem unplug_discard (c : Console) : c.discard.unplug = c.unplug.discard :=
  unplug_discardAll _ _

/-! Small steps of statements. -/

theorem unplugged_refuse (c : Console) (id : TaskId) (m : Message) :
    unplugged (c.refuse id m) = c.unplug.refuse id m := by
  unfold unplugged refuse
  rw [unplug_log rfl, unplug_record rfl]

theorem unplugged_accept (c : Console) (id : TaskId) (m : Message) :
    unplugged (c.accept id m) = c.unplug.accept id m := by
  unfold unplugged accept
  rw [← unplug_record rfl]
  rfl

theorem mailbox_unplug (c : Console) : c.unplug.mailbox = c.mailbox :=
  rfl

theorem terminated_unplug (c : Console) : c.unplug.terminated = c.terminated :=
  rfl

theorem supervision_unplug (c : Console) : c.unplug.supervision = c.supervision :=
  rfl

theorem now_unplug (c : Console) : c.unplug.now = c.now :=
  rfl

theorem unplugged_send (c : Console) (id : TaskId) (m : Message) :
    unplugged (c.send id m) = c.unplug.send id m := by
  unfold send
  rw [mailbox_unplug]
  split
  · exact c.unplugged_refuse id m
  · split
    · exact unplugged_accept _ id m
    · rfl

theorem unplugged_resend (c : Console) (id : TaskId) (m : Message) :
    unplugged (c.resend id m) = c.unplug.resend id m := by
  unfold resend
  rw [mailbox_unplug]
  split
  · exact c.unplugged_refuse id m
  · split
    · exact unplugged_accept _ id m
    · rfl

theorem unplugged_question (c : Console) (id : TaskId) (text : String) :
    unplugged (c.question id text) = c.unplug.question id text :=
  unplugged_send _ id _

theorem unplug_park (c : Console) (id : TaskId) : (c.park id).unplug = c.unplug.park id := by
  have hp : c.unplug.parked = c.parked := rfl
  unfold park
  rw [hp]
  split <;> rfl

theorem unplugged_awaitTermination (c : Console) (id : TaskId) (w : Wait) (o : Outcome) :
    unplugged (c.awaitTermination id w o) = c.unplug.awaitTermination id w o := by
  unfold awaitTermination
  rw [terminated_unplug, ← unplug_park]
  split <;> rfl

theorem unplugged_sleep (c : Console) (id : TaskId) (n : Nat) :
    unplugged (c.sleep id n) = c.unplug.sleep id n := by
  unfold sleep
  split <;> rfl

theorem unplug_station (c : Console) (signals keyword : Bool) :
    (c.station signals keyword).unplug = c.unplug.station signals keyword := by
  cases signals <;> cases keyword <;> rfl

theorem unplugged_supervise (c : Console) (k : Nat) (interactive : Bool) :
    unplugged (c.supervise k interactive) = c.unplug.supervise k interactive := by
  cases hc : c.supervision with
  | some s =>
    have hm : c.unplug.supervision = some s := hc
    rw [supervise_lost hc, supervise_lost hm]
    exact Prod.ext (unplug_log rfl) rfl
  | none =>
    have hm : c.unplug.supervision = none := hc
    have hv : c.unplug.settings = c.settings := rfl
    rw [supervise_first hc rfl, supervise_first hm hv]
    refine Prod.ext (congrArg (wake · .ticker) ((unplug_log rfl).trans ?_)) rfl
    exact congrArg (log · _) (unplug_station _ _ _)

theorem unplugged_begin (c : Console) (id : TaskId) (s : Statement) :
    unplugged (c.begin id s) = c.unplug.begin id s := by
  cases s with
  | progress text => exact c.unplugged_send id _
  | info text => exact c.unplugged_send id _
  | prompt text => exact c.unplugged_question id text
  | exit text code => exact c.unplugged_send id _
  | start k interactive =>
    have hs := c.unplugged_supervise k interactive
    unfold begin
    dsimp only
    rw [← hs]
    rfl
  | sleep n => exact c.unplugged_sleep id n
  | ask text => exact c.unplugged_question id text
  | confirm question refusal code => exact c.unplugged_question id question
  | _ => rfl

theorem unplugged_perform (c : Console) (id : TaskId) (s : Statement) (w : Wait) :
    unplugged (c.perform id s w) = c.unplug.perform id s w := by
  cases w with
  | fresh => exact c.unplugged_begin id s
  | room m => exact c.unplugged_resend id m
  | hungUp => exact c.unplugged_awaitTermination id _ _
  | termination => exact c.unplugged_awaitTermination id _ _
  | alarm deadline =>
    unfold perform
    dsimp only
    rw [now_unplug]
    split <;> rfl
  | _ => rfl

theorem unplugged_pursue (c : Console) (id : TaskId) (a : Activity) (note : Outcome → Event)
    (hn : ∀ o, (note o).isTerminals = false) :
    unplugged (c.pursue id a note) = c.unplug.pursue id a note := by
  unfold pursue
  cases a.program with
  | nil => rfl
  | cons s rest =>
    have hs := c.unplugged_perform id s a.wait
    dsimp only
    rw [← hs]
    obtain ⟨d, stage⟩ := c.perform id s a.wait
    unfold unplugged
    cases stage with
    | blocked w => exact Prod.ext (d.unplug_setActivity id _) rfl
    | moving w => exact Prod.ext (d.unplug_setActivity id _) rfl
    | crashed => rfl
    | finished o =>
      dsimp only
      cases s.followUp o with
      | some next => exact Prod.ext (d.unplug_setActivity id _) rfl
      | none =>
        dsimp only
        rw [unplug_setActivity, unplug_record (hn o)]

theorem unplugged_producerTurn (c : Console) (n : Nat) :
    unplugged (c.producerTurn n) = c.unplug.producerTurn n := by
  unfold producerTurn
  rw [activity?_unplug]
  cases c.activity? (.producer n) with
  | none => rfl
  | some a =>
    have hp := c.unplugged_pursue (.producer n) a (.finished n a.index) fun _ => rfl
    dsimp only
    rw [← hp]
    obtain ⟨d, pace⟩ := c.pursue (.producer n) a (.finished n a.index)
    cases pace <;> rfl

/-! The ticker. -/

theorem unplug_beginCall (c : Console) (s : Supervision) :
    (c.beginCall s).unplug = c.unplug.beginCall s := by
  have hr : c.unplug.request = c.request := rfl
  unfold beginCall
  rw [hr]
  cases c.request with
  | none => exact unplug_record rfl
  | some r => exact (unplug_record rfl).trans (congrArg (record · _) (unplug_log rfl))

theorem unplug_recover (c : Console) (s : Supervision) (request : Option Request) :
    (c.recover s request).unplug = c.unplug.recover s request := by
  unfold recover
  cases request with
  | none => exact unplug_log rfl
  | some r => exact congrArg (offer · r) (unplug_log rfl)

theorem unplugged_continueCall (c : Console) (s : Supervision) (request : Option Request)
    (a : Activity) :
    unplugged (c.continueCall s request a) = c.unplug.continueCall s request a := by
  have hp := c.unplugged_pursue .ticker a
    (Event.call s.job request (s.tally.number request) ∘ .finished) fun _ => rfl
  unfold continueCall
  dsimp only
  rw [← hp]
  obtain ⟨d, pace⟩ := c.pursue .ticker a _
  cases pace with
  | resting => rfl
  | moving => rfl
  | ended => exact Prod.ext (congrArg pause (unplug_record rfl)) rfl
  | crashed =>
    have hr : ((d.record (.call s.job request (s.tally.number request) .crashed)).recover s
        request).unplug = (d.unplug.record (.call s.job request (s.tally.number request)
          .crashed)).recover s request :=
      (unplug_recover _ s request).trans (congrArg (recover · s request) (unplug_record rfl))
    exact Prod.ext (congrArg pause hr) rfl

theorem unplug_stopTicker (c : Console) (s : Supervision) :
    (c.stopTicker s).unplug = c.unplug.stopTicker s :=
  congrArg letGo (unplug_log rfl)

theorem unplugged_tickerTurn (c : Console) : unplugged c.tickerTurn = c.unplug.tickerTurn := by
  have hk : c.unplug.ticker = c.ticker := rfl
  unfold tickerTurn
  rw [supervision_unplug, terminated_unplug, now_unplug, hk]
  cases c.supervision with
  | none => rfl
  | some s =>
    cases c.ticker with
    | absent => rfl
    | checking =>
      dsimp only
      split
      · exact Prod.ext (c.unplug_stopTicker s) rfl
      · exact Prod.ext (c.unplug_beginCall s) rfl
    | calling request a =>
      dsimp only
      split
      · exact Prod.ext (c.unplug_stopTicker s) rfl
      · exact c.unplugged_continueCall s request a
    | sleeping deadline =>
      dsimp only
      split
      · exact Prod.ext (c.unplug_stopTicker s) rfl
      · split <;> rfl

/-! The watches. -/

theorem unplugged_readLine (c : Console) (id : TaskId) :
    unplugged (c.readLine id) = c.unplug.readLine id := by
  have hr : c.unplug.reader = c.reader := rfl
  rw [readLine_eq, readLine_eq, hr]
  cases (c.reader.resume id).result with
  | none => rfl
  | some result => exact Prod.ext (unplug_record rfl) rfl

theorem unplugged_keywordWatchTurn (c : Console) :
    unplugged c.keywordWatchTurn = c.unplug.keywordWatchTurn := by
  have hk : c.unplug.keywordWatch = c.keywordWatch := rfl
  have hr := c.unplugged_readLine .keywordWatch
  unfold keywordWatchTurn
  rw [hk, terminated_unplug, ← hr]
  split
  · rfl
  · split
    · rfl
    · obtain ⟨d, result⟩ := c.readLine .keywordWatch
      have hs : d.unplug.settings = d.settings := rfl
      match result with
      | none => rfl
      | some (.ok line) =>
        simp only [unplugged, hs]
        split
        · exact Prod.ext
            (congrArg (fun e => (offer e .keyword).endKeywordWatch) (unplug_log rfl)) rfl
        · rfl
      | some (.error failure) =>
        have hf : ((d.log (.watchFailed failure)).record
            (.ending .keywordWatch (.abort failure))).unplug =
              (d.unplug.log (.watchFailed failure)).record
                (.ending .keywordWatch (.abort failure)) :=
          (unplug_record rfl).trans (congrArg (record · _) (unplug_log rfl))
        exact Prod.ext (congrArg endKeywordWatch hf) rfl

theorem unplugged_signalWatchTurn (c : Console) :
    unplugged c.signalWatchTurn = c.unplug.signalWatchTurn := by
  have hw : c.unplug.signalWatch = c.signalWatch := rfl
  have hf : c.unplug.signalFault = c.signalFault := rfl
  unfold signalWatchTurn
  rw [hw, hf, terminated_unplug]
  cases c.signalWatch with
  | absent => rfl
  | registering =>
    cases c.signalFault with
    | none => rfl
    | some cause => exact Prod.ext (unplug_log rfl) rfl
  | listening pending =>
    dsimp only
    split
    · rfl
    · cases pending with
      | nil => rfl
      | cons s rest => exact Prod.ext (congrArg (offer · .signal) (unplug_log rfl)) rfl

/-! The printer. -/

theorem unplug_stopPrinter (c : Console) : c.stopPrinter.unplug = c.unplug.stopPrinter :=
  (unplug_discard _).trans (congrArg discard (unplug_log rfl))

theorem unplug_shown (c : Console) (kind : Kind) (r : Display.Drawn) :
    (c.shown kind r).unplug = c.unplug := by
  unfold shown
  split
  · exact (unplug_noise rfl).trans (unplug_noise rfl)
  · exact (unplug_noise rfl).trans (unplug_noise rfl)

def Legible (c : Console) : Prop :=
  ∀ t, c.mailbox.take? = some t → (c.display.draw t.message.kind t.message.text).isSome

theorem legible_unplug (c : Console) : c.unplug.Legible := by
  intro t _
  unfold Display.draw Display.layout Display.overwrite
  cases t.message.kind <;> simp [unplug, Display.pad]

theorem unplugged_handle (h : (c.display.draw m.kind m.text).isSome)
    (hm : (c.unplug.display.draw m.kind m.text).isSome) :
    unplugged (c.handle m) = unplugged (c.unplug.handle m) := by
  obtain ⟨r, hr⟩ := Option.isSome_iff_exists.1 h
  obtain ⟨r', hr'⟩ := Option.isSome_iff_exists.1 hm
  have hs : (c.shown m.kind r).unplug = (c.unplug.shown m.kind r').unplug := by
    rw [unplug_shown, unplug_shown, unplug_unplug]
  unfold handle
  rw [draw?_eq, draw?_eq, hr, hr']
  cases m with
  | prompt text slot => exact Prod.ext (congrArg ({ · with printer := .reading slot }) hs) rfl
  | exit text code =>
    have he (c : Console) :
        ((c.log (.exiting code)).record (.ending .printer (.exit code))).unplug =
          (c.unplug.log (.exiting code)).record (.ending .printer (.exit code)) :=
      (unplug_record rfl).trans (congrArg (record · _) (unplug_log rfl))
    have hx := congrArg (fun e : Console =>
      { (e.log (.exiting code)).record (.ending .printer (.exit code)) with
        printer := .leaving }) hs
    dsimp only at hx
    rw [← he, ← he] at hx
    exact Prod.ext hx rfl
  | _ => exact Prod.ext hs rfl

/-! What does the same without the terminal does not look at it. -/

theorem unplug_twice {f : Console → Console} (h : ∀ c, (f c).unplug = f c.unplug) (c : Console) :
    (f c).unplug = (f c.unplug).unplug := by
  rw [h, h, unplug_unplug]

theorem unplugged_twice {α : Type} {f : Console → Console × α}
    (h : ∀ c, unplugged (f c) = f c.unplug) (c : Console) :
    unplugged (f c) = unplugged (f c.unplug) := by
  rw [h, h, unplug_unplug]

theorem unplugged_receive (h : c.Legible) : unplugged c.receive = unplugged c.unplug.receive := by
  have hl := c.legible_unplug
  unfold Legible at h hl
  unfold receive
  rw [mailbox_unplug] at hl ⊢
  cases ht : c.mailbox.take? with
  | none =>
    have hh : c.unplug.isHeld = c.isHeld := rfl
    dsimp only
    rw [hh]
    split
    · exact Prod.ext c.unplug_unplug.symm rfl
    · exact Prod.ext (unplug_twice unplug_stopPrinter c) rfl
  | some t =>
    have htake : (c.take t).unplug = c.unplug.take t := unplug_record rfl
    have hc : ((c.take t).display.draw t.message.kind t.message.text).isSome := h t ht
    have hm : ((c.take t).unplug.display.draw t.message.kind t.message.text).isSome := hl t ht
    have hh : unplugged ((c.take t).handle t.message) =
        unplugged ((c.take t).unplug.handle t.message) :=
      unplugged_handle hc hm
    rw [htake] at hh
    exact hh

theorem unplugged_readAnswer (c : Console) (slot : ReplySlot) :
    unplugged (c.readAnswer slot) = c.unplug.readAnswer slot := by
  have hr := c.unplugged_readLine .printer
  unfold readAnswer
  rw [← hr]
  obtain ⟨d, result⟩ := c.readLine .printer
  match result with
  | none => rfl
  | some (.ok line) =>
    exact Prod.ext (congrArg ({ · with printer := .receiving }) (d.unplug_answer slot line)) rfl
  | some (.error failure) =>
    have hf : ((d.log (.answerFailed failure)).record (.ending .printer (.abort failure))).unplug =
        (d.unplug.log (.answerFailed failure)).record (.ending .printer (.abort failure)) :=
      (unplug_record rfl).trans (congrArg (record · _) (unplug_log rfl))
    have hh := (unplug_hangUp _ slot).trans (congrArg (hangUp · slot) hf)
    exact Prod.ext (congrArg ({ · with printer := .leaving }) hh) rfl

theorem unplugged_printerTurn (h : c.Legible) :
    unplugged c.printerTurn = unplugged c.unplug.printerTurn := by
  have hp : c.unplug.printer = c.printer := rfl
  unfold printerTurn
  rw [hp]
  cases c.printer with
  | receiving => exact unplugged_receive h
  | reading slot => exact unplugged_twice (unplugged_readAnswer · slot) c
  | leaving => exact Prod.ext (unplug_twice unplug_stopPrinter c) rfl
  | stopped => exact Prod.ext c.unplug_unplug.symm rfl
  | crashed => exact Prod.ext c.unplug_unplug.symm rfl

/-! All tasks. -/

theorem unplugged_turn (c : Console) (hi : id ≠ .printer) :
    unplugged (c.turn id) = c.unplug.turn id := by
  cases id with
  | printer => exact absurd rfl hi
  | signalWatch => exact c.unplugged_signalWatchTurn
  | keywordWatch => exact c.unplugged_keywordWatchTurn
  | ticker => exact c.unplugged_tickerTurn
  | producer n => exact c.unplugged_producerTurn n

theorem unplug_step (h : c.Legible) (id : TaskId) :
    (c.step id).unplug = (c.unplug.step id).unplug := by
  have ht : unplugged (c.turn id) = unplugged (c.unplug.turn id) := by
    by_cases hi : id = .printer
    · subst hi
      exact unplugged_printerTurn h
    · exact unplugged_twice (fun c => c.unplugged_turn hi) c
  obtain ⟨hd, hm⟩ := Prod.mk.inj ht
  unfold step
  dsimp only
  rw [← hm]
  split
  · exact hd
  · exact congrArg (fun e : Console => { e with ready := e.ready.erase id }) hd

theorem unplug_work (c : Console) (hi : id ∈ watchers) : (c.work id).unplug = c.unplug.work id := by
  have hk : c.unplug.ticker = c.ticker := rfl
  unfold work
  rw [supervision_unplug, hk]
  split
  · rename_i s request a _ _
    exact congrArg Prod.fst (c.unplugged_continueCall s request a)
  · have ht := unplugged_turn { c with terminated := false } (not_printer_of_watchers hi)
    exact congrArg (fun p : Console × Bool => { p.1 with terminated := c.terminated }) ht

theorem unplug_kill (c : Console) (n : Nat) : (c.kill n).unplug = c.unplug.kill n := by
  unfold kill
  rw [activity?_unplug]
  cases c.activity? (.producer n) <;> rfl

theorem unplug_raise (c : Console) (s : Signal) : (c.raise s).unplug = c.unplug.raise s := by
  have hw : c.unplug.signalWatch = c.signalWatch := rfl
  unfold raise
  rw [hw]
  cases c.signalWatch <;> rfl

theorem unplug_start (c : Console) (k : Nat) (interactive : Bool) :
    (c.act (.start k interactive)).unplug = c.unplug.act (.start k interactive) := by
  have hs := c.unplugged_supervise k interactive
  change _ = (c.unplug.supervise k interactive).1.record
    (.hostStarted k (c.unplug.supervise k interactive).2)
  rw [← hs]
  exact unplug_record rfl

theorem unplug_stride (h : c.Legible) {x : Stride} (hx : c.permits x) :
    (c.stride x).unplug = (c.unplug.stride x).unplug := by
  cases x with
  | work id =>
    simp only [permits, Bool.and_eq_true, decide_eq_true_eq] at hx
    exact unplug_twice (fun c => c.unplug_work hx.1.1) c
  | move m =>
    cases m with
    | step id => exact unplug_step h id
    | kill n => exact unplug_twice (fun c => c.unplug_kill n) c
    | raise s => exact unplug_twice (fun c => c.unplug_raise s) c
    | start k interactive => exact unplug_twice (fun c => c.unplug_start k interactive) c
    | setSink s =>
      exact (unplug_noise (c := { c with display.sink := s }) rfl).trans
        ((unplug_noise (c := { c.unplug with display.sink := s }) rfl).trans c.unplug_unplug).symm
    | pass time => exact unplug_twice (f := (ring · time)) (fun _ => rfl) c
    | spawn p => exact unplug_twice (f := (spawn · p)) (fun _ => rfl) c
    | feed p => exact unplug_twice (f := (feed · p)) (fun _ => rfl) c
    | close => exact unplug_twice (f := closeInput) (fun _ => rfl) c
    | deafen cause =>
      exact unplug_twice (f := fun c => { c with signalFault := cause }) (fun _ => rfl) c
    | release => exact unplug_twice (f := release) (fun _ => rfl) c

theorem permits_unplug (c : Console) (x : Stride) : c.unplug.permits x = c.permits x := by
  cases x with
  | work id => rfl
  | move m => cases m <;> rfl

end Console

end JobConsole
