import JobConsole.Proofs.Finality
import JobConsole.Proofs.Progress

namespace JobConsole

namespace Statement

def asks : Statement → Bool
  | prompt _ | ask _ | confirm .. => true
  | _ => false

def parks : Statement → Bool
  | exit .. | park => true
  | _ => false

end Statement

open Console

inductive Suits (s : Statement) : Wait → Prop
  | fresh : Suits s .fresh
  | room {m : Message} {slot : ReplySlot} (hm : s.message? slot = some m) : Suits s (.room m)
  | reply (hs : s.asks = true) (n : Nat) : Suits s (.reply n)
  | replied (hs : s.asks = true) (line : String) : Suits s (.replied line)
  | hungUp (hs : s.asks = true) : Suits s .hungUp
  | termination (hs : s.parks = true) : Suits s .termination
  | alarm {n : Nat} (hs : s = .sleep n) (deadline : Nat) : Suits s (.alarm deadline)
  | forever (hs : s = .hang) : Suits s .forever

def SuitsAt (s : Statement) : Stage → Prop
  | .blocked w | .moving w => Suits s w
  | .finished _ | .crashed => True

def Standing.Suited : Standing → Prop
  | .busy ⟨s :: _, _, w⟩ => Suits s w
  | _ => True

variable {s : Statement} {w : Wait} {m : Message} {slot : ReplySlot} {x y : Standing}

theorem asks_of_parks (h : s.parks = true) : s.asks = false := by
  cases s <;> first | rfl | cases h

theorem suits_afterSend (hm : s.message? slot = some m) (accepted : Bool) :
    SuitsAt s (afterSend accepted m) := by
  cases s with
  | prompt | ask | confirm =>
    cases hm
    cases accepted with
    | true => exact .reply rfl _
    | false => exact .hungUp rfl
  | exit =>
    cases hm
    exact .termination rfl
  | progress | info =>
    cases hm
    trivial
  | _ => cases hm

theorem afterSend_ne_finished (hm : s.message? slot = some m)
    (hs : s.parks = true ∨ s.asks = true) (accepted : Bool) (o : Outcome) :
    afterSend accepted m ≠ .finished o := by
  cases s with
  | prompt | ask | confirm | exit =>
    cases hm
    exact nofun
  | park => cases hm
  | _ => rcases hs with hs | hs <;> cases hs

theorem suited_of_fresh (a : Activity) (hw : a.wait = .fresh) :
    Standing.Suited (.busy a) := by
  obtain ⟨program, index, wait⟩ := a
  cases hw
  cases program with
  | nil => trivial
  | cons s rest => exact .fresh

theorem Standing.Suited.told (hx : x.Suited) (h : Told x y) : y.Suited := by
  cases h with
  | same => exact hx
  | ended => trivial
  | started => trivial
  | spawned p => exact suited_of_fresh _ rfl
  | called p => exact suited_of_fresh _ rfl
  | @hungUp a n hw =>
    obtain ⟨program, index, wait⟩ := a
    cases hw
    cases program with
    | nil => trivial
    | cons s rest =>
      cases hx with
      | reply hs => exact .hungUp hs
  | @replied a n hw line =>
    obtain ⟨program, index, wait⟩ := a
    cases hw
    cases program with
    | nil => trivial
    | cons s rest =>
      cases hx with
      | reply hs => exact .replied hs line

namespace Console

variable {c d : Console} {id : TaskId} {stage : Stage}

theorem Suits.sending (h : Suits s w) (hm : c.sending? id s w = some m) :
    ∃ slot, s.message? slot = some m := by
  cases h with
  | fresh => exact ⟨_, hm⟩
  | @room m' slot hs =>
    cases hm
    exact ⟨slot, hs⟩
  | _ => cases hm

theorem Deed.suits (h : Deed c id s w d stage) (hs : Suits s w) : SuitsAt s stage := by
  cases h with
  | still h =>
    cases h with
    | unserved | unanswered | asleep | hung => exact hs
    | park h => exact .termination (by rw [h]; rfl)
    | hang h => exact .forever h
    | _ => trivial
  | accept hm =>
    obtain ⟨slot, hm⟩ := Suits.sending hs hm
    exact suits_afterSend hm true
  | refuse hm =>
    obtain ⟨slot, hm⟩ := Suits.sending hs hm
    exact suits_afterSend hm false
  | join _ hm =>
    obtain ⟨slot, hm⟩ := Suits.sending hs hm
    exact .room hm
  | park => exact hs
  | supervise => trivial
  | sleep _ h => exact .alarm h _

theorem Progress.suited (h : Progress c id x y) (hx : x.Suited) : y.Suited := by
  cases h with
  | told h => exact hx.told h
  | rested => trivial
  | @on a b s rest d stage hp hd hb =>
    obtain ⟨program, index, wait⟩ := a
    cases hp
    have hs := hd.suits hx
    cases hb with
    | blocked => exact hs
    | moving => exact hs
    | followed => exact suited_of_fresh _ rfl
    | finished => exact suited_of_fresh _ rfl

theorem Attainable.suited (h : c.Attainable) (id : TaskId) : (c.standing id).Suited :=
  h.standing_invariant (fun _ => trivial) (fun _ => trivial) (fun _ _ _ _ => Progress.suited) id

theorem Attainable.suits {a : Activity} {rest : Program} (h : c.Attainable)
    (hb : c.standing id = .busy a) (hp : a.program = s :: rest) : Suits s a.wait := by
  have hs := h.suited id
  obtain ⟨program, index, wait⟩ := a
  cases hp
  rwa [hb] at hs

/-- A call that waits for termination, or for an answer that is not given, returns with nothing but
termination. -/
theorem Deed.terminated {o : Outcome} (h : Deed c id s w d (.finished o)) (hs : Suits s w)
    (hc : s.parks = true ∨ s.asks = true ∧ ∀ line, w ≠ .replied line) : c.terminated = true := by
  have hany : s.parks = true ∨ s.asks = true := hc.imp_right And.left
  generalize hstage : Stage.finished o = stage at h
  cases h with
  | still h =>
    cases h with
    | abandoned h => exact h
    | released h => exact h
    | answered =>
      rcases hc with hp | ⟨-, hw⟩
      · cases hs with
        | replied ha =>
          rw [asks_of_parks hp] at ha
          cases ha
      · exact absurd rfl (hw _)
    | awake =>
      cases hs with
      | alarm hs => subst hs; rcases hany with h | h <;> cases h
    | look h => subst h; rcases hany with h | h <;> cases h
    | nap h => subst h; rcases hany with h | h <;> cases h
    | _ => cases hstage
  | accept hm =>
    obtain ⟨slot, hm⟩ := Suits.sending hs hm
    exact absurd hstage.symm (afterSend_ne_finished hm hany true o)
  | refuse hm =>
    obtain ⟨slot, hm⟩ := Suits.sending hs hm
    exact absurd hstage.symm (afterSend_ne_finished hm hany false o)
  | supervise _ h => subst h; rcases hany with h | h <;> cases h
  | join => cases hstage
  | park => cases hstage
  | sleep => cases hstage

/-! Termination. -/

/-- The last thing that the printer did was to ask the process to end. -/
def Hooked (c : Console) : Prop :=
  ∃ ds ending, c.duties = ds ++ [.ending .printer ending] ∧ Farewell ds ending

def Deserted (c : Console) : Prop :=
  c.isHeld = false ∧ c.accepted = c.handled

theorem Hooked.of_duties (h : Hooked c) (hd : d.duties = c.duties) : Hooked d := by
  unfold Hooked
  rwa [hd]

theorem isHeld_eq_false : c.isHeld = false ↔ c.hosted = false ∧
    c.producers.any Option.isSome = false ∧ c.keywordWatch = false ∧ c.ticker = .absent := by
  have hk : c.ticker.isAlive = false ↔ c.ticker = .absent := by
    cases c.ticker <;> simp [Ticker.isAlive]
  simp only [isHeld, Bool.or_eq_false_iff, hk, and_assoc]

theorem activity?_of_not_isHeld (h : c.isHeld = false) (id : TaskId) : c.activity? id = none := by
  obtain ⟨-, hp, -, hk⟩ := isHeld_eq_false.1 h
  cases id with
  | producer n =>
    cases ha : c.activity? (.producer n) with
    | none => rfl
    | some a =>
      have hm : some a ∈ c.producers := List.mem_of_getElem? (Option.join_eq_some_iff.1 ha)
      rw [List.any_eq_true.2 ⟨_, hm, rfl⟩] at hp
      cases hp
  | ticker => simp [activity?, hk, Ticker.activity?]
  | _ => rfl

theorem isHeld_of_busy {a : Activity} (h : c.standing id = .busy a) : c.isHeld = true := by
  cases hh : c.isHeld with
  | true => rfl
  | false =>
    have ha := activity?_of_standing h
    rw [activity?_of_not_isHeld hh] at ha
    cases ha

theorem PrinterTurn.stops {more : Bool} (h : PrinterTurn c d more) :
    d.terminated = c.terminated ∨ d = c.stopPrinter ∧ more = false ∧ (c.printer = .leaving ∨
      c.printer = .receiving ∧ c.mailbox.take? = none ∧ c.isHeld = false) := by
  cases h with
  | gone => exact .inl rfl
  | idle => exact .inl rfl
  | deserted hp hm hh => exact .inr ⟨rfl, rfl, .inr ⟨hp, hm, hh⟩⟩
  | left hp => exact .inr ⟨rfl, rfl, .inl hp⟩
  | @choked t =>
    obtain ⟨producers, ticker, ready, he⟩ := (c.take t).crashPrinter_eq t.message
    rw [he]
    exact .inl rfl
  | @told t r | @asked t r | @exited t r =>
    obtain ⟨display, journal, he⟩ := (c.take t).shown_eq t.message.kind r
    rw [he]
    exact .inl rfl
  | pending => exact .inl rfl
  | @heard slot line =>
    obtain ⟨producers, ticker, ready, journal, he⟩ :=
      ((c.resumeRead .printer).record (.read .printer (.ok line))).answer_fields slot line
    rw [he]
    exact .inl rfl
  | @failed slot failure =>
    obtain ⟨producers, ticker, ready, he⟩ :=
      ((((c.resumeRead .printer).record (.read .printer (.error failure))).log
        (.answerFailed failure)).record (.ending .printer (.abort failure))).hangUp_eq slot
    rw [he]
    exact .inl rfl

theorem act_terminates {m : Move} (h : Staged c) (ht : c.terminated = false)
    (hd : (c.act m).terminated = true) :
    c.act m = { c.stopPrinter with ready := c.stopPrinter.ready.erase .printer } ∧
      (c.printer = .leaving ∨
        c.printer = .receiving ∧ c.mailbox.take? = none ∧ c.isHeld = false) := by
  by_cases hm : m = .step .printer
  · subst hm
    have hs := PrinterTurn.stops (printerTurn_cases c)
    have hstep : c.act (.step .printer) = if c.printerTurn.2 then c.printerTurn.1 else
        { c.printerTurn.1 with ready := c.printerTurn.1.ready.erase .printer } := rfl
    rcases hs with hn | ⟨he, hmore, hp⟩
    · have hterm : (c.act (.step .printer)).terminated = c.printerTurn.1.terminated := by
        rw [hstep]
        split <;> rfl
      rw [hterm, hn, ht] at hd
      cases hd
    · rw [hstep, hmore, he]
      exact ⟨rfl, hp⟩
  · have he := (h.act m).terminated_iff
    rw [(c.act_aside m hm).1, ← h.terminated_iff, hd, ht] at he
    cases he.1 rfl

theorem hooked_stopPrinter (h : Diary c.duties c.printer) (hp : c.printer = .leaving) :
    Hooked c.stopPrinter := by
  have hc : Hooked c := by
    cases h.ends with
    | «open» _ hn => exact absurd hp hn
    | @closed ds ending he _ hf => exact ⟨ds, ending, he, hf⟩
  exact hc.of_duties c.duties_stopPrinter

theorem deserted_stopPrinter {d₀ : Display} (h : Mail d₀ c) (ho : c.mailbox.closed = false)
    (hm : c.mailbox.take? = none) (hh : c.isHeld = false) : Deserted c.stopPrinter := by
  have hi := Mailbox.take?_eq_none_iff.1 hm
  constructor
  · simpa [stopPrinter, discard, closeMailbox, terminate, wakeAll, log, record, Mailbox.close, hi,
      isHeld] using hh
  · have ha : c.accepted = c.handled := by
      have hs := h.sent
      rwa [h.kept ho, hi, List.append_nil, List.append_nil] at hs
    unfold accepted handled at ha ⊢
    rw [events_stopPrinter, hi]
    simpa [List.filterMap_cons, Event.accepted?, Event.handled?] using ha

/-! Nobody is left. -/

theorem turn_deserted (hh : c.isHeld = false) (hp : c.printer = .stopped) (id : TaskId) :
    (c.turn id).1.isHeld = false ∧ Adds Event.isWatches c (c.turn id).1 := by
  obtain ⟨-, -, hk, ht⟩ := isHeld_eq_false.1 hh
  have hstay (h : c.turn id = (c, false)) :
      (c.turn id).1.isHeld = false ∧ Adds Event.isWatches c (c.turn id).1 := by
    rw [h]
    exact ⟨hh, .same rfl⟩
  cases id with
  | printer => exact hstay (turn_gone (.inl hp))
  | signalWatch =>
    have hs := signalWatchTurn_cases c
    refine ⟨?_, hs.adds⟩
    change c.signalWatchTurn.1.isHeld = false
    generalize c.signalWatchTurn.1 = d, c.signalWatchTurn.2 = more at hs ⊢
    cases hs <;> exact hh
  | keywordWatch => exact hstay (by simp [turn, keywordWatchTurn, hk])
  | ticker => exact hstay (by cases hs : c.supervision <;> simp [turn, tickerTurn, hs, ht])
  | producer n => exact hstay (by simp [turn, producerTurn, activity?_of_not_isHeld hh])

theorem work_deserted (hh : c.isHeld = false) (hp : c.printer = .stopped) (id : TaskId) :
    (c.work id).isHeld = false ∧ Adds Event.isWatches c (c.work id) := by
  rcases c.work_cases id with ⟨s, request, a, -, -, hk, -⟩ | ⟨-, he⟩
  · rw [(isHeld_eq_false.1 hh).2.2.2] at hk
    cases hk
  · rw [he]
    exact turn_deserted (c := { c with terminated := false }) hh hp id

theorem unsent_of_isWatches {e : Event} (h : e.isWatches) :
    (e.accepted?.isNone && e.handled?.isNone) = true := by
  cases e <;> first | rfl | cases h

theorem act_deserted (hh : c.isHeld = false) (hp : c.printer = .stopped) {m : Move}
    (ha : c.allows m) : (c.act m).isHeld = false ∧
      Adds (fun e => e.accepted?.isNone && e.handled?.isNone) c (c.act m) := by
  cases m with
  | step id =>
    obtain ⟨ht, hn⟩ := turn_deserted hh hp id
    have hn := hn.mono fun _ => unsent_of_isWatches
    obtain ⟨ready, he⟩ := c.turn_eq_step id
    rw [Console.act, he]
    exact ⟨ht, hn⟩
  | spawn p => rw [allows, hh] at ha; cases ha
  | start k interactive => rw [allows, (isHeld_eq_false.1 hh).1] at ha; cases ha
  | kill n =>
    have hk : c.kill n = c := by simp [kill, activity?_of_not_isHeld hh]
    rw [Console.act, hk]
    exact ⟨hh, .same rfl⟩
  | raise s =>
    rw [Console.act, raise]
    split <;> exact ⟨hh, .same rfl⟩
  | setSink s => exact ⟨hh, .record (x := .sinkChanged s) (.same rfl) rfl⟩
  | release =>
    obtain ⟨-, hr⟩ := isHeld_eq_false.1 hh
    exact ⟨isHeld_eq_false.2 ⟨rfl, hr⟩, .same rfl⟩
  | _ => exact ⟨hh, .same rfl⟩

theorem Deserted.of_adds (h : Deserted c) (hd : d.isHeld = false)
    (ha : Adds (fun e => e.accepted?.isNone && e.handled?.isNone) c d) : Deserted d := by
  obtain ⟨news, he, hn⟩ := ha
  have hx {f : Event → Option Message} (hf : ∀ e ∈ news, f e = none) :
      d.events.filterMap f = c.events.filterMap f := by
    rw [he, List.filterMap_append, List.filterMap_eq_nil_iff.2 hf, List.append_nil]
  refine ⟨hd, (hx fun e hm => ?_).trans (h.2.trans (hx fun e hm => ?_).symm)⟩
  · simpa using (Bool.and_eq_true_iff.1 (hn e hm)).1
  · simpa using (Bool.and_eq_true_iff.1 (hn e hm)).2

theorem act_duties_of_terminated (h : Staged c) (ht : c.terminated = true) (m : Move) :
    (c.act m).duties = c.duties := by
  by_cases hm : m = .step .printer
  · subst hm
    obtain ⟨ready, he⟩ := c.turn_eq_step .printer
    rw [Console.act, he, turn_gone (.inl (h.terminated_iff.1 ht))]
    rfl
  · exact c.act_duties m hm

theorem hooked_or_deserted (h : c.Attainable) (ht : c.terminated = true) :
    Hooked c ∨ Deserted c := by
  apply h.invariant (P := fun c => c.terminated = true → Hooked c ∨ Deserted c) _ _ _ ht
  · intro settings jobs source sink c₀ h₀ ht
    obtain ⟨-, rfl⟩ := new?_eq_some.1 h₀
    cases ht
  · intro c m h ha hc hd
    have hs := h.staged
    cases ht : c.terminated with
    | true =>
      refine (hc ht).imp (fun hk => hk.of_duties (act_duties_of_terminated hs ht m)) fun hk => ?_
      obtain ⟨hh, hn⟩ := act_deserted hk.1 (hs.terminated_iff.1 ht) ha
      exact hk.of_adds hh hn
    | false =>
      obtain ⟨he, hp⟩ := act_terminates hs ht hd
      rw [he]
      rcases hp with hl | ⟨hp, hm, hh⟩
      · exact .inl (hooked_stopPrinter h.diary hl)
      · obtain ⟨d₀, hmail⟩ := h.mail
        have ho := (hs.open (by simp [hp]) (by simp [hp])).1
        exact .inr (deserted_stopPrinter hmail ho hm hh)
  · intro c id h hi _ ht hc _
    refine (hc ht).imp (fun hk => hk.of_duties (c.work_duties hi)) fun hk => ?_
    obtain ⟨hh, hn⟩ := work_deserted hk.1 (h.staged.terminated_iff.1 ht) id
    exact hk.of_adds hh (hn.mono fun _ => unsent_of_isWatches)

/-- A call that parks, or a prompt that is not answered, returns only behind the farewell of the
printer, and nothing but this farewell ends a console that somebody holds. -/
structure Parked (c : Console) : Prop where
  returns : ∀ id a s rest o, c.standing id = .busy a → a.program = s :: rest →
    (c.perform id s a.wait).2 = .finished o →
    (s.parks = true ∨ s.asks = true ∧ ∀ line, a.wait ≠ .replied line) →
    c.terminated = true ∧ Hooked c
  terminates : c.terminated = true → Hooked c ∨ c.isHeld = false ∧ c.accepted = c.handled
  ticking : c.ticker.isAlive = true → c.printer = .stopped → Hooked c

theorem parked_of_attainable (h : c.Attainable) : Parked c := by
  have hend (ht : c.terminated = true) (hh : c.isHeld = true) : Hooked c := by
    apply (hooked_or_deserted h ht).resolve_right
    rintro ⟨hn, -⟩
    rw [hh] at hn
    cases hn
  constructor
  case terminates => exact hooked_or_deserted h
  case ticking =>
    intro hk hp
    exact hend (h.staged.terminated_iff.2 hp) (by simp [isHeld, hk])
  case returns =>
    intro id a s rest o hb hs ho hc
    obtain ⟨program, index, wait⟩ := a
    cases hs
    have hsuits := h.suited id
    rw [hb] at hsuits
    have hd := @perform_deed c id s wait
    rw [ho] at hd
    have ht := hd.terminated hsuits hc
    exact ⟨ht, hend ht (isHeld_of_busy hb)⟩

def parting : List Move :=
  [.spawn [.park], .spawn [.exit "bye" ⟨7⟩], .step (.producer 0), .step (.producer 0),
    .step (.producer 1), .step .printer, .step (.producer 1), .release, .step .printer]

theorem parked_of_parting : ∃ c₀, new? {} [] {} {} = some c₀ ∧
    ((c₀.play parting).perform (.producer 0) .park .termination).2 = .finished .returned ∧
      Parked (c₀.play parting) ∧ Hooked (c₀.play parting) := by
  refine ⟨_, rfl, rfl, ?_⟩
  have hr : Reachable (play _ parting) :=
    ⟨{}, [], {}, {}, _, parting, rfl, .of_legal (by decide)⟩
  have hp := parked_of_attainable hr.attainable
  exact ⟨hp, (hp.returns (.producer 0) ⟨[.park], 0, .termination⟩ .park [] .returned
    (standing_producer.2 rfl) rfl rfl (.inl rfl)).2⟩

end Console

end JobConsole
