import JobConsole.Proofs.Conversation
import JobConsole.Proofs.Percentages
import JobConsole.Proofs.Spacing

namespace JobConsole

def Beat.began? : Beat → Option (Option Request)
  | began request => some request
  | _ => none

/-- Whether each statement of a program sends the message beside it, whatever the slot. -/
def Spells (program : Program) (ms : List Message) : Prop :=
  List.Forall₂ (fun s m => ∀ slot, Statement.message? slot s = some m) program ms

inductive Activity.Owes : Activity → List Message → Prop
  | fresh {program : Program} {index : Nat} {ms : List Message} (h : Spells program ms) :
      Owes ⟨program, index, .fresh⟩ ms
  | room {s : Statement} {rest : Program} {index : Nat} {m : Message} {ms : List Message}
      (h : Spells (s :: rest) (m :: ms)) : Owes ⟨s :: rest, index, .room m⟩ (m :: ms)
  | parked {s : Statement} {rest : Program} {index : Nat} {m : Message} {ms : List Message}
      (h : Spells (s :: rest) (m :: ms)) : Owes ⟨s :: rest, index, .termination⟩ ms

variable {s : Statement} {rest : Program} {m : Message} {ms : List Message}

theorem slot?_of_message? (h : ∀ slot, s.message? slot = some m) : m.slot? = none := by
  have h₀ := h ⟨0, .printer⟩
  have h₁ := h ⟨1, .printer⟩
  cases s <;> simp only [Statement.message?, Option.some.injEq, reduceCtorEq] at h₀ h₁ <;>
    subst h₀ <;> first | rfl | cases h₁

theorem Activity.Owes.wait_ne_reply {a : Activity} (h : a.Owes ms) (n : Nat) :
    a.wait ≠ .reply n := by
  cases h <;> nofun

theorem Activity.Owes.eq_nil {a : Activity} (h : a.Owes ms) (hp : a.program = []) : ms = [] := by
  cases h with
  | fresh hs =>
    obtain rfl : _ = [] := hp
    exact List.forall₂_nil_left_iff.1 hs
  | room | parked => cases hp

namespace Console

def checks (c : Console) : List (Nat × Option Request) :=
  (beats c.journal).filterMap fun x => x.2.began?.map (x.1, ·)

inductive Sends (c d : Console) (id : TaskId) (ms : List Message) : List Message → Prop
  | nothing (hd : d.posted = c.posted) : Sends c d id ms ms
  | accepted {m : Message} {rest : List Message} (hms : ms = m :: rest)
      (ho : c.mailbox.closed = false) (hd : d.posted = c.posted ++ [(id, m)]) : Sends c d id ms rest
  | refused {m : Message} {rest : List Message} (hms : ms = m :: rest)
      (hc : c.mailbox.closed = true) (hd : d.posted = c.posted) : Sends c d id ms rest

variable {c d e : Console} {id : TaskId} {a : Activity} {w : Wait} {stage : Stage} {index : Nat}
  {note : Outcome → Event} {pace : Pace} {more : Bool} {request : Option Request}

theorem Sends.congr {ms' : List Message} (h : Sends c d id ms ms') (he : e.posted = d.posted) :
    Sends c e id ms ms' := by
  cases h with
  | nothing hd => exact .nothing (he.trans hd)
  | accepted hms ho hd => exact .accepted hms ho (he.trans hd)
  | refused hms hc hd => exact .refused hms hc (he.trans hd)

inductive Arrives (s : Statement) (rest : Program) (ms : List Message) : Stage → Prop
  | blocked {w : Wait} (h : ∀ index, Activity.Owes ⟨s :: rest, index, w⟩ ms) :
      Arrives s rest ms (.blocked w)
  | moving {w : Wait} (h : ∀ index, Activity.Owes ⟨s :: rest, index, w⟩ ms) :
      Arrives s rest ms (.moving w)
  | finished (h : Spells rest ms) (hs : s.parks = false) : Arrives s rest ms (.finished .done)

theorem arrives_afterSend (h : Spells (s :: rest) (m :: ms)) (accepted : Bool) :
    Arrives s rest ms (afterSend accepted m) := by
  obtain ⟨hm, hrest⟩ := List.forall₂_cons.1 h
  have hslot := slot?_of_message? hm
  have hparks (hc : m.code? = none) : s.parks = false := by
    have hm := hm ⟨0, .printer⟩
    cases s <;> simp only [Statement.message?, Option.some.injEq, reduceCtorEq] at hm <;>
      subst hm <;> first | rfl | cases hc
  cases m with
  | progress text | info text => exact .finished hrest (hparks rfl)
  | prompt text slot => cases hslot
  | exit text code => exact .moving fun _ => .parked h

theorem posted_refused (c : Console) (id : TaskId) (m : Message) (slots : Nat) :
    ((Console.record { c with slots } (.refused id m)).log (.dropped m.kind)).posted =
      c.posted := by
  have hr : Adds (fun e => e.posted?.isNone) c (Console.record { c with slots } (.refused id m)) :=
    .record (.same rfl) rfl
  exact (hr.record (x := .logged (.dropped m.kind)) rfl).posted

theorem Deed.owes (h : Deed c id s w d stage) (ho : Activity.Owes ⟨s :: rest, index, w⟩ ms)
    (ht : c.terminated = false) : ∃ ms', Sends c d id ms ms' ∧ Arrives s rest ms' stage := by
  -- What is about to be sent is the first of the messages that are owed.
  have hsending {m : Message} (hm : c.sending? id s w = some m) :
      ∃ ms', ms = m :: ms' ∧ Spells (s :: rest) (m :: ms') := by
    cases ho with
    | fresh hs =>
      cases hs with
      | cons hx hrest =>
        cases (hx _).symm.trans hm
        exact ⟨_, rfl, .cons hx hrest⟩
    | room hs =>
      cases hm
      exact ⟨_, rfl, hs⟩
    | parked => cases hm
  cases h with
  | accept hm hopen =>
    obtain ⟨ms', hms, hs⟩ := hsending hm
    exact ⟨ms', .accepted hms hopen (posted_accepted ..), arrives_afterSend hs true⟩
  | @refuse m slots hm hc =>
    obtain ⟨ms', hms, hs⟩ := hsending hm
    exact ⟨ms', .refused hms hc (posted_refused ..), arrives_afterSend hs false⟩
  | join hw hm =>
    obtain ⟨ms', rfl, hs⟩ := hsending hm
    exact ⟨_, .nothing rfl, .blocked fun _ => .room hs⟩
  | park hw =>
    obtain ⟨parked, he⟩ := c.park_eq id
    rw [he]
    refine ⟨ms, .nothing rfl, .blocked fun _ => ?_⟩
    cases ho with
    | parked hs => exact .parked hs
    | fresh | room => rcases hw with hw | hw <;> cases hw
  | supervise hw hs | sleep hw hs =>
    subst hw hs
    cases ho with
    | fresh hs =>
      cases hs with
      | cons hx => cases hx ⟨0, .printer⟩
  | still h =>
    cases ho with
    | fresh hs =>
      -- A fresh statement that sends a message does not leave the console as it is.
      cases hs with
      | cons hx =>
        cases h with
        | park h | look h | nap h | hang h | crash h =>
          subst h
          cases hx ⟨0, .printer⟩
    | room hs =>
      cases h with
      | unserved => exact ⟨_, .nothing rfl, .blocked fun _ => .room hs⟩
    | parked =>
      cases h with
      | released h => rw [ht] at h; cases h

theorem Deed.ticker_eq (h : Deed c id s w d stage) (hs : c.supervision.isSome) :
    d.ticker = c.ticker := by
  cases h with
  | park =>
    obtain ⟨parked, he⟩ := c.park_eq id
    rw [he]
  | @supervise k interactive =>
    obtain ⟨v, hv⟩ := Option.isSome_iff_exists.1 hs
    rw [supervise_lost hv]
    rfl
  | _ => rfl

/-- A small step of an activity that owes messages. As long as there is an exit in its program,
there is one until the termination. -/
theorem Pursuit.owes (h : Pursuit c id a note d pace) (ho : a.Owes ms) (ht : c.terminated = false)
    (hs : c.supervision.isSome) (hn : ∀ o, (note o).posted?.isNone) :
    pace = .ended ∧ a.program = [] ∨ ∃ (e : Console) (b : Activity) (ms' : List Message),
      d = e.setActivity id b ∧ e.ticker = c.ticker ∧ (pace = .resting ∨ pace = .moving) ∧
        b.Owes ms' ∧ Sends c d id ms ms' ∧
          (a.program.any Statement.parks = true → b.program.any Statement.parks = true) := by
  have hdeed {s : Statement} {rest : Program} {d : Console} {stage : Stage}
      (hp : a.program = s :: rest) (he : c.perform id s a.wait = (d, stage)) :
      d.ticker = c.ticker ∧ ∃ ms', Sends c d id ms ms' ∧ Arrives s rest ms' stage := by
    obtain ⟨program, index, wait⟩ := a
    cases hp
    exact ⟨(deed_of_perform he).ticker_eq hs, (deed_of_perform he).owes ho ht⟩
  have hposted (e : Console) (b : Activity) : (e.setActivity id b).posted = e.posted := by
    obtain ⟨producers, ticker, he⟩ := e.setActivity_eq id b
    rw [he]
    rfl
  cases h with
  | ended hp => exact .inl ⟨rfl, hp⟩
  | @rested s rest d w hp he =>
    obtain ⟨hk, ms', hm, hl⟩ := hdeed hp he
    cases hl with
    | blocked hb =>
      refine .inr ⟨d, _, ms', rfl, hk, .inl rfl, ?_, hm.congr (hposted _ _), fun h => h⟩
      rw [hp]
      exact hb a.index
  | @moved s rest d w hp he =>
    obtain ⟨hk, ms', hm, hl⟩ := hdeed hp he
    cases hl with
    | moving hb =>
      refine .inr ⟨d, _, ms', rfl, hk, .inr rfl, ?_, hm.congr (hposted _ _), fun h => h⟩
      rw [hp]
      exact hb a.index
  | crashed hp he =>
    obtain ⟨-, ms', -, hl⟩ := hdeed hp he
    cases hl
  | @followed s next rest d o hp he hf =>
    obtain ⟨-, ms', -, hl⟩ := hdeed hp he
    cases hl with
    | finished => cases s <;> cases hf
  | @finished s rest d o hp he hf =>
    obtain ⟨hk, ms', hm, hl⟩ := hdeed hp he
    cases hl with
    | finished hrest hparks =>
      have hr : (d.record (note .done)).posted = d.posted :=
        (Adds.record (.same rfl) (hn .done)).posted
      refine .inr ⟨d.record (note .done), _, ms', rfl, hk, .inr rfl, .fresh hrest,
        hm.congr ((hposted _ _).trans hr), fun h => ?_⟩
      rwa [hp, List.any_cons, hparks, Bool.false_or] at h

/-! What is read off a console. -/

theorem checks_of_journal {new : List Entry} (hj : d.journal = new ++ c.journal) : d.checks =
    c.checks ++ (beats new).filterMap fun x => x.2.began?.map (x.1, ·) := by
  rw [checks, hj, beats_append, List.filterMap_append]
  rfl

theorem Steady.checks_eq (h : Steady c d) : d.checks = c.checks := by
  obtain ⟨new, hj, hb⟩ := h.journal
  rw [checks_of_journal hj, hb, List.filterMap_nil, List.append_nil]

theorem Paces.prefix_checks (h : Paces c d) : c.checks <+: d.checks := by
  obtain ⟨new, hj, -⟩ := h.journal
  exact checks_of_journal hj ▸ List.prefix_append ..

theorem checks_record {x : Event} (hx : ∀ b, x.beat? = some b → b.began? = none) :
    (c.record x).checks = c.checks := by
  have hj : (c.record x).journal = [⟨c.now, x⟩] ++ c.journal := rfl
  rw [checks_of_journal hj, beats, List.reverse_singleton, List.filterMap_cons, Entry.beat?]
  cases hb : x.beat? with
  | none => exact List.append_nil _
  | some b => simp [hx b hb]

theorem checks_ended (c : Console) (v : Supervision) (request : Option Request) :
    (c.record (.call v.job request (v.tally.number request) .ended)).checks = c.checks :=
  checks_record fun b hb => by cases hb; rfl

theorem checks_crashed (c : Console) (v : Supervision) (request : Option Request) :
    (recover (c.record (.call v.job request (v.tally.number request) .crashed)) v
      request).checks = c.checks :=
  (steady_recover _ v request).checks_eq.trans
    (checks_record fun b hb => by cases hb; rfl)

theorem checks_beginCall (c : Console) (v : Supervision) :
    (c.beginCall v).checks = c.checks ++ [(c.now, c.request)] := by
  obtain ⟨new, hj, hb⟩ := c.journal_beginCall v
  rw [checks_of_journal hj, hb]
  rfl

theorem checks_supervise (c : Console) (k : Nat) (interactive : Bool) :
    (c.supervise k interactive).1.checks = c.checks := by
  have hs := c.supervise_cases k interactive
  generalize (c.supervise k interactive).1 = d, (c.supervise k interactive).2 = first at hs ⊢
  have hlog (x : Diagnostic) : (c.log x).checks = c.checks := by
    refine checks_record fun b hb => ?_
    cases x <;> cases hb
    rfl
  cases hs <;> exact hlog _

theorem Opens.checks_eq (h : Opens c d) : d.checks = c.checks := by
  rcases h with h | ⟨k, interactive, h⟩
  · exact h.checks_eq
  · rw [h.checks_eq, checks_supervise]

theorem checks_of_unsupervised (h : c.Spaced) (hs : c.supervision = none) : c.checks = [] := by
  have hb := h.unstarted hs
  rw [begun, begins, List.map_eq_nil_iff, List.filter_eq_nil_iff] at hb
  refine List.filterMap_eq_nil_iff.2 fun x hx => ?_
  have hn := hb x hx
  cases hx : x.2 with
  | began r => simp [hx, Beat.begins] at hn
  | _ => rfl

/-! What is sent. -/

theorem Deed.posted_of_closed (h : Deed c id s w d stage) (hc : c.mailbox.closed = true) :
    d.posted = c.posted := by
  cases h with
  | accept _ ho => rw [hc] at ho; cases ho
  | refuse => exact posted_refused ..
  | park =>
    obtain ⟨parked, he⟩ := c.park_eq id
    rw [he]
    rfl
  | @supervise k interactive => exact (c.supervise_cases k interactive).posted_eq
  | _ => rfl

theorem Speaks.posted_of_closed (h : Speaks c d id) (hc : c.mailbox.closed = true) :
    d.posted = c.posted := by
  cases h with
  | mute h => exact h.posted
  | deed _ _ he _ _ hm => exact hm.trans ((deed_of_perform he).posted_of_closed hc)

theorem Speaks.said_of_ne {i : TaskId} (h : Speaks c d i) (hi : i ≠ id) :
    d.said id = c.said id := by
  cases h with
  | mute h => exact said_congr h.posted id
  | deed _ _ he _ _ hm =>
    rw [said_congr hm]
    rcases (deed_of_perform he).posted_cases with hp | ⟨m, -, hp, -⟩
    · exact said_congr hp id
    · rw [said_append hp, if_neg (Ne.symm hi)]

theorem posted_act {m : Move} (hm : ∀ id, m ≠ .step id) : (c.act m).posted = c.posted := by
  cases m with
  | step id => exact absurd rfl (hm id)
  | kill n =>
    rw [act, kill]
    split <;> rfl
  | raise s =>
    rw [act, raise]
    split <;> rfl
  | setSink sink => exact (mute_record { c with display.sink := sink } rfl).posted
  | start k interactive =>
    exact (mute_record _ rfl).posted.trans (c.supervise_cases k interactive).posted_eq
  | _ => rfl

theorem said_act {m : Move} (hm : m ≠ .step id) : (c.act m).said id = c.said id := by
  by_cases hstep : ∀ i, m ≠ .step i
  · exact said_congr (posted_act hstep) id
  · obtain ⟨i, rfl⟩ := not_forall_not.1 hstep
    have hi : i ≠ id := fun he => hm (by rw [he])
    have ht : (c.turn i).1.said id = c.said id := by
      by_cases hp : i = .printer
      · subst hp
        exact said_congr (printerTurn_cases c).posted_eq id
      · exact (c.turn_speaks hp).said_of_ne hi
    obtain ⟨ready, he⟩ := c.turn_eq_step i
    rw [act, he]
    exact ht

theorem posted_act_of_terminated (h : Staged c) (ht : c.terminated = true) (m : Move) :
    (c.act m).posted = c.posted := by
  have hp := h.terminated_iff.1 ht
  have hc : c.mailbox.closed = true := by
    cases h with
    | running hs => exact absurd hp hs
    | stopped _ hb => exact hb.closed
    | crashed hs => rw [hp] at hs; cases hs
  by_cases hm : m = .step .printer
  · subst hm
    rw [act, step, turn_gone (.inl hp)]
    rfl
  · obtain ⟨id, hs⟩ := c.act_speaks m hm
    exact hs.posted_of_closed hc

theorem posted_work_of_terminated (h : Staged c) (ht : c.terminated = true) (hi : id ∈ watchers) :
    (c.work id).posted = c.posted := by
  have hc : c.mailbox.closed = true := by
    cases h with
    | running _ _ _ hn => rw [ht] at hn; cases hn
    | stopped _ hb => exact hb.closed
    | crashed _ hb => exact hb.closed
  exact (c.work_speaks hi).posted_of_closed hc

/-! What the other tasks do to the ticker. -/

theorem Steady.ticker_of_told (h : Steady c d) (ht : Told (c.standing .ticker) (d.standing .ticker))
    (hs : c.supervision.isSome) (hw : ∀ a n, c.ticker.activity? = some a → a.wait ≠ .reply n) :
    d.ticker = c.ticker := by
  cases hk : c.ticker with
  | calling r a =>
    obtain ⟨v, hv⟩ := Option.isSome_iff_exists.1 hs
    obtain ⟨b, hd⟩ := h.calling hk
    rw [standing_calling hv hk, standing_calling (h.supervision.trans hv) hd] at ht
    have hwait := hw a
    rw [hk] at hwait
    cases ht with
    | same => exact hd
    | hungUp hn | replied hn => exact absurd hn (hwait _ rfl)
  | _ => rw [← hk, h.ticker_eq (by rw [hk]; rfl)]

theorem Pursuit.ticker_eq {n : Nat} (h : Pursuit c (.producer n) a note d pace)
    (hs : c.supervision.isSome) : d.ticker = c.ticker := by
  cases h with
  | ended => rfl
  | rested _ he | moved _ he | crashed _ he | followed _ he | finished _ he =>
    exact (deed_of_perform he).ticker_eq hs

theorem turn_ticker (hid : id ≠ .ticker) (hs : c.supervision.isSome)
    (hw : ∀ a n, c.ticker.activity? = some a → a.wait ≠ .reply n) :
    (c.turn id).1.ticker = c.ticker := by
  cases id with
  | ticker => exact absurd rfl hid
  | printer =>
    have hp := printerTurn_cases c
    exact hp.steady.ticker_of_told (hp.leaves .ticker) hs hw
  | signalWatch =>
    obtain ⟨request, signalWatch, journal, he⟩ := (signalWatchTurn_cases c).frame
    rw [turn, he]
  | keywordWatch =>
    obtain ⟨reader, ready, request, keywordWatch, journal, he⟩ := (keywordWatchTurn_cases c).frame
    rw [turn, he]
  | producer n =>
    have ht := producerTurn_cases c n
    rw [turn]
    generalize (c.producerTurn n).1 = d, (c.producerTurn n).2 = more at ht ⊢
    cases ht with
    | off => rfl
    | on _ hd => exact hd.ticker_eq hs
    | quit _ hd => exact hd.ticker_eq hs

theorem act_ticker {m : Move} (hm : m ≠ .step .ticker) (hs : c.supervision.isSome)
    (hw : ∀ a n, c.ticker.activity? = some a → a.wait ≠ .reply n) :
    (c.act m).ticker = c.ticker := by
  cases m with
  | step id =>
    have hid : id ≠ .ticker := fun he => hm (by rw [he])
    have ht := turn_ticker hid hs hw
    obtain ⟨ready, he⟩ := c.turn_eq_step id
    rw [act, he]
    exact ht
  | kill n =>
    rw [act, kill]
    split <;> rfl
  | raise s =>
    rw [act, raise]
    split <;> rfl
  | start k interactive =>
    obtain ⟨v, hv⟩ := Option.isSome_iff_exists.1 hs
    rw [act, supervise_lost hv]
    rfl
  | _ => rfl

theorem turn_opens (hid : id ≠ .ticker) : Opens c (c.turn id).1 := by
  cases id with
  | ticker => exact absurd rfl hid
  | printer => exact .inl (printerTurn_cases c).steady
  | signalWatch => exact .inl (signalWatchTurn_cases c).steady
  | keywordWatch => exact .inl (keywordWatchTurn_cases c).steady
  | producer n =>
    have ht := producerTurn_cases c n
    rw [turn]
    generalize (c.producerTurn n).1 = d, (c.producerTurn n).2 = more at ht ⊢
    cases ht with
    | off => exact .inl (.refl c)
    | on _ hd => exact hd.opens fun _ => rfl
    | quit _ hd => exact (hd.opens fun _ => rfl).trans (steady_endProducer _ n)

theorem act_opens {m : Move} (hm : m ≠ .step .ticker) (hp : ∀ time, m ≠ .pass time) :
    Opens c (c.act m) := by
  cases m with
  | step id =>
    have hid : id ≠ .ticker := fun he => hm (by rw [he])
    refine (turn_opens hid).trans ?_
    rw [act, step]
    dsimp only
    split
    · exact .refl _
    · exact .aside rfl rfl rfl rfl rfl rfl (List.mem_erase_of_ne (Ne.symm hid)).2
  | pass time => exact absurd rfl (hp time)
  | start k interactive => exact .inr ⟨k, interactive, (Steady.refl _).record rfl⟩
  | _ => exact .inl (steady_act rfl)

end Console

end JobConsole
