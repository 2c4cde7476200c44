import JobConsole.Proofs.Progress
import JobConsole.Proofs.Quiescence

namespace JobConsole

def Printer.slot? : Printer → Option ReplySlot
  | .reading slot => some slot
  | _ => none

inductive Listens (n : Nat) : Standing → Prop
  | gone : Listens n .gone
  | waiting (s : Statement) (rest : Program) (k : Nat) : Listens n (.busy ⟨s :: rest, k, .reply n⟩)

theorem Listens.unique {n k : Nat} {x : Standing} (h : Listens n x) (g : Listens k x)
    (hx : x ≠ .gone) : n = k := by
  cases h with
  | gone => exact absurd rfl hx
  | waiting => cases g; rfl

namespace Console

variable {c d e : Console} {id : TaskId} {a b : Activity} {s : Statement} {rest : Program}
  {w : Wait} {stage : Stage} {note : Outcome → Event} {pace : Pace} {more : Bool} {n : Nat}

def asked (c : Console) : List ReplySlot :=
  c.printer.slot?.toList ++ c.mailbox.items.filterMap Message.slot?

structure Expectant (c : Console) : Prop where
  distinct : c.asked.Nodup
  listens : ∀ slot ∈ c.asked, Listens slot.number (c.standing slot.asker)

/-! What others than the printer do. -/

def Spares (c d : Console) : Prop :=
  ∀ j n, Listens n (c.standing j) → Listens n (d.standing j)

/-- At most one prompt is added, whose asker did not wait for a reply before. -/
inductive Puts (c d : Console) : Prop
  | none (h : d.asked = c.asked)
  | prompt {slot : ReplySlot} (h : d.asked = c.asked ++ [slot])
      (hc : ∀ n, ¬Listens n (c.standing slot.asker))
      (hd : Listens slot.number (d.standing slot.asker))

theorem Expectant.put (hc : Expectant c) (hs : Spares c d) (hp : Puts c d) : Expectant d := by
  cases hp with
  | none h =>
    refine ⟨by rw [h]; exact hc.distinct, fun slot hm => hs _ _ (hc.listens slot ?_)⟩
    rwa [h] at hm
  | @prompt slot h hn hd =>
    have hfresh : slot ∉ c.asked := fun hm => hn _ (hc.listens slot hm)
    constructor
    · rw [h]
      refine List.nodup_append.2 ⟨hc.distinct, by simp, fun x hx y hy he => hfresh ?_⟩
      rwa [← List.mem_singleton.1 hy, ← he]
    · intro x hx
      rw [h] at hx
      rcases List.mem_append.1 hx with hx | hx
      · exact hs _ _ (hc.listens x hx)
      · rwa [List.mem_singleton.1 hx]

theorem Spares.of_eq (h : ∀ j, d.standing j = c.standing j) : Spares c d :=
  fun j n hj => by rwa [h j]

theorem Spares.trans (h : Spares c d) (g : Spares d e) : Spares c e :=
  fun j n hj => g j n (h j n hj)

theorem spares_of_standing_eq
    (h : ∀ j, d.standing j = c.standing j ∨ c.standing j = .unborn ∧ d.standing j = .between) :
    Spares c d := by
  intro j n hj
  rcases h j with he | ⟨he, -⟩
  · rwa [he]
  · rw [he] at hj
    cases hj

theorem Puts.same (hp : d.printer = c.printer) (hm : d.mailbox.items = c.mailbox.items) :
    Puts c d :=
  .none (by rw [asked, hp, hm, asked])

theorem Deed.reply (h : Deed c id s (.reply n) d stage) : stage = .blocked (.reply n) := by
  cases h with
  | still h => cases h; rfl
  | accept hm => cases hm
  | refuse hm => cases hm
  | join hw => cases hw
  | park hw => rcases hw with hw | hw <;> cases hw
  | supervise hw => cases hw
  | sleep hw => cases hw

theorem Deed.items (h : Deed c id s w d stage) : d.mailbox.items = c.mailbox.items ∨
    ∃ m, c.sending? id s w = some m ∧ d.mailbox.items = c.mailbox.items ++ [m] ∧
      stage = afterSend true m := by
  cases h with
  | accept hm _ hb => exact .inr ⟨_, hm, hb.items, rfl⟩
  | park =>
    obtain ⟨parked, he⟩ := c.park_eq id
    exact .inl (by rw [he])
  | @supervise k interactive =>
    have hs := c.supervise_cases k interactive
    generalize (c.supervise k interactive).1 = d, (c.supervise k interactive).2 = first at hs ⊢
    exact .inl (by cases hs <;> rfl)
  | _ => exact .inl rfl

theorem not_listens_of_sending? {m : Message} (hm : c.sending? id s a.wait = some m) :
    ¬Listens n (.busy a) := by
  intro h
  cases h
  cases hm

theorem Deed.spares (h : Deed c id s a.wait d stage) (hb : c.standing id = .busy a)
    (hp : a.program = s :: rest) (hr : Resumes a s rest stage b)
    (he : ∀ j, e.standing j = d.standing j) : Spares c (e.setActivity id b) := by
  intro j n hj
  rw [standing_setActivity ((he id).trans (h.standing_self hb))]
  split
  · rename_i hji
    rw [hji, hb] at hj
    cases hj
    have hs := h.reply
    subst hs
    cases hr
    exact .waiting _ _ _
  · rw [he]
    exact spares_of_standing_eq h.standing_eq j n hj

theorem Deed.puts (h : Deed c id s a.wait d stage) (hb : c.standing id = .busy a)
    (hp : a.program = s :: rest) (hr : Resumes a s rest stage b)
    (hm : ∀ m, c.sending? id s a.wait = some m → AnswersTo id m)
    (he : ∀ j, e.standing j = d.standing j) (hem : e.mailbox = d.mailbox)
    (hep : e.printer = d.printer) : Puts c (e.setActivity id b) := by
  obtain ⟨producers, ticker, ha⟩ := e.setActivity_eq id b
  have hprinter : (e.setActivity id b).printer = c.printer := by
    rw [ha]
    exact hep.trans h.beside.printer
  have hitems : (e.setActivity id b).mailbox.items = d.mailbox.items := by rw [ha, ← hem]
  rcases h.items with hd | ⟨m, hsend, hd, rfl⟩
  · exact .same hprinter (hitems.trans hd)
  · cases hslot : m.slot? with
    | none =>
      apply Puts.none
      simp [asked, hprinter, hitems, hd, hslot]
    | some slot =>
      have hid : slot.asker = id := hm m hsend slot hslot
      have hasked : (e.setActivity id b).asked = c.asked ++ [slot] := by
        simp [asked, hprinter, hitems, hd, hslot]
      refine .prompt hasked ?_ ?_
      · intro n hn
        rw [hid, hb] at hn
        exact not_listens_of_sending? hsend hn
      · rw [hid, standing_setActivity ((he id).trans (h.standing_self hb)), if_pos rfl]
        cases m with
        | prompt text slot' =>
          cases hslot
          cases hr
          rw [hp]
          exact .waiting _ _ _
        | _ => cases hslot

structure Heeds (c d : Console) : Prop where
  spares : Spares c d
  puts : Puts c d

theorem Heeds.same (hs : ∀ j, d.standing j = c.standing j) (hp : d.printer = c.printer)
    (hm : d.mailbox = c.mailbox) : Heeds c d :=
  ⟨.of_eq hs, .same hp (by rw [hm])⟩

theorem Heeds.later (h : Heeds c d) (hs : Spares d e) (hp : e.printer = d.printer)
    (hm : e.mailbox.items = d.mailbox.items) : Heeds c e := by
  have ha : e.asked = d.asked := by rw [asked, hp, hm, asked]
  refine ⟨h.spares.trans hs, ?_⟩
  cases h.puts with
  | none h => exact .none (ha.trans h)
  | prompt h hc hd => exact .prompt (ha.trans h) hc (hs _ _ hd)

theorem Coheres.answersTo (hc : c.Coheres (· ∈ c.ready)) (hb : c.standing id = .busy a)
    (hp : a.program = s :: rest) {m : Message} (hm : c.sending? id s a.wait = some m) :
    AnswersTo id m := by
  have hplaced := hc.placed id a hb
  rw [hp] at hplaced
  exact Placed.answersTo (hplaced.enter fun _ => trivial) hm

theorem Pursuit.stops (h : Pursuit c id a note d pace) (hp : pace = .ended ∨ pace = .crashed) :
    Spares c d ∧ d.printer = c.printer ∧ d.mailbox.items = c.mailbox.items := by
  cases h with
  | ended => exact ⟨.of_eq fun _ => rfl, rfl, rfl⟩
  | crashed _ he =>
    have hd := deed_of_perform he
    refine ⟨spares_of_standing_eq hd.standing_eq, hd.beside.printer, ?_⟩
    rcases hd.items with hi | ⟨m, -, -, hm⟩
    · exact hi
    · cases m <;> cases hm
  | _ => rcases hp with hp | hp <;> cases hp

theorem Pursuit.heeds (h : Pursuit c id a note d pace) (hc : c.Coheres (· ∈ c.ready))
    (hb : c.standing id = .busy a) : Heeds c d := by
  have hon {s : Statement} {rest : Program} {stage : Stage} {d e : Console} {b : Activity}
      (hd : Deed c id s a.wait d stage) (hp : a.program = s :: rest) (hr : Resumes a s rest stage b)
      (he : ∀ j, e.standing j = d.standing j) (hem : e.mailbox = d.mailbox)
      (hep : e.printer = d.printer) : Heeds c (e.setActivity id b) :=
    ⟨hd.spares hb hp hr he, hd.puts hb hp hr (fun _ => hc.answersTo hb hp) he hem hep⟩
  cases h with
  | ended => exact .same (fun _ => rfl) rfl rfl
  | crashed hp he =>
    obtain ⟨hs, hprinter, hm⟩ := Pursuit.stops (Pursuit.crashed hp he : Pursuit c id a note _ _)
      (.inr rfl)
    exact ⟨hs, .same hprinter hm⟩
  | rested hp he => exact hon (deed_of_perform he) hp (.blocked _) (fun _ => rfl) rfl rfl
  | moved hp he => exact hon (deed_of_perform he) hp (.moving _) (fun _ => rfl) rfl rfl
  | followed hp he hf => exact hon (deed_of_perform he) hp (.followed hf) (fun _ => rfl) rfl rfl
  | @finished _ _ d o hp he =>
    exact hon (e := d.record (note o)) (deed_of_perform he) hp (.finished o) (fun _ => rfl) rfl rfl

theorem Pursuit.rests (h : Pursuit c id a note d pace) (hl : Listens n (.busy a)) :
    pace = .resting := by
  cases hl with
  | waiting s rest k =>
    cases h with
    | ended hp => cases hp
    | rested => rfl
    | moved hp he => cases hp; cases (deed_of_perform he).reply
    | crashed hp he => cases hp; cases (deed_of_perform he).reply
    | followed hp he => cases hp; cases (deed_of_perform he).reply
    | finished hp he => cases hp; cases (deed_of_perform he).reply

theorem spares_endProducer (c : Console) (n : Nat) : Spares c (c.endProducer n) := by
  intro j k hj
  by_cases he : j = .producer n
  · subst he
    rw [standing_endProducer fun hu => by rw [hu] at hj; cases hj]
    exact .gone
  · rwa [standing_endProducer_ne c he]

theorem ProducerTurn.heeds {k : Nat} (h : ProducerTurn c k d more)
    (hc : c.Coheres (· ∈ c.ready)) : Heeds c d := by
  cases h with
  | off => exact .same (fun _ => rfl) rfl rfl
  | on ha hd => exact hd.heeds hc (standing_producer.2 ha)
  | @quit a d pace ha hd =>
    exact (hd.heeds hc (standing_producer.2 ha)).later (spares_endProducer d k) rfl rfl

theorem spares_pause (h : Spares c d) (hl : ∀ n, ¬Listens n (c.standing .ticker)) :
    Spares c d.pause := by
  intro j n hj
  have hn : j ≠ .ticker := by
    rintro rfl
    exact hl n hj
  rw [standing_pause_ne d hn]
  exact h j n hj

theorem CallTurn.heeds {s : Supervision} {request : Option Request}
    (h : CallTurn c s request a d more) (hc : c.Coheres (· ∈ c.ready))
    (hb : c.standing .ticker = .busy a) : Heeds c d := by
  cases h with
  | on hd => exact hd.heeds hc hb
  | @ended d hd =>
    obtain ⟨hs, hp, hm⟩ := hd.stops (.inl rfl)
    refine ⟨spares_pause (hs.trans (.of_eq fun _ => rfl)) fun n hl => ?_, .same hp hm⟩
    rw [hb] at hl
    cases hd.rests hl
  | @crashed d hd =>
    obtain ⟨hs, hp, hm⟩ := hd.stops (.inr rfl)
    refine ⟨spares_pause (hs.trans (.of_eq ?_)) fun n hl => ?_, .same ?_ ?_⟩
    · exact standing_recover (d.record (.call s.job request (s.tally.number request) .crashed)) s
        request
    · rw [hb] at hl
      cases hd.rests hl
    · cases request <;> exact hp
    · cases request <;> exact hm

theorem heeds_stopTicker {s : Supervision} (hs : c.supervision = some s) (s' : Supervision) :
    Heeds c (c.stopTicker s') := by
  refine ⟨fun j n hj => ?_, .same rfl (c.mailbox.leave_items .ticker).1⟩
  by_cases hn : j = .ticker
  · subst hn
    rw [standing_stopTicker, hs]
    exact .gone
  · rwa [standing_stopTicker_ne c s' hn]

theorem heeds_beginCall {s : Supervision} (hs : c.supervision = some s)
    (hk : c.ticker = .checking) : Heeds c (c.beginCall s) := by
  obtain ⟨request, supervision, ticker, journal, he⟩ := c.beginCall_eq s
  refine ⟨fun j n hj => ?_, .same (by rw [he]) (by rw [he])⟩
  have hn : j ≠ .ticker := by
    rintro rfl
    simp only [standing, hs, hk] at hj
    cases hj
  rwa [standing_beginCall_ne c s hn]

theorem TickerTurn.heeds (h : TickerTurn c d more) (hc : c.Coheres (· ∈ c.ready)) :
    Heeds c d := by
  cases h with
  | off => exact .same (fun _ => rfl) rfl rfl
  | stop hs => exact heeds_stopTicker hs _
  | call hs hk => exact heeds_beginCall hs hk
  | on hs hk _ hd => exact hd.heeds hc (standing_calling hs hk)
  | ended hs hk _ hd => exact (CallTurn.ended hd).heeds hc (standing_calling hs hk)
  | crashed hs hk _ hd => exact (CallTurn.crashed hd).heeds hc (standing_calling hs hk)
  | due hk => exact .same (standing_due hk) rfl rfl
  | asleep => exact .same (fun _ => rfl) rfl rfl

theorem SignalWatchTurn.heeds (h : SignalWatchTurn c d more) : Heeds c d := by
  cases h <;> exact .same (fun _ => rfl) rfl rfl

theorem KeywordWatchTurn.heeds (h : KeywordWatchTurn c d more) : Heeds c d := by
  have he {d : Console} (hd : Heeds c d) : Heeds c d.endKeywordWatch :=
    hd.later (.of_eq (standing_congr rfl rfl rfl)) rfl rfl
  have hr (result : Except Failure String) :
      Heeds c ((c.resumeRead .keywordWatch).record (.read .keywordWatch result)) :=
    .same (fun _ => rfl) rfl rfl
  cases h with
  | off => exact .same (fun _ => rfl) rfl rfl
  | stop => exact he (.same (fun _ => rfl) rfl rfl)
  | pending => exact .same (fun _ => rfl) rfl rfl
  | @keyword line => exact he ((hr (.ok line)).later (.of_eq fun _ => rfl) rfl rfl)
  | other => exact hr _
  | @failed failure => exact he ((hr (.error failure)).later (.of_eq fun _ => rfl) rfl rfl)

theorem turn_heeds (hc : c.Coheres (· ∈ c.ready)) (hid : id ≠ .printer) :
    Heeds c (c.turn id).1 := by
  cases id with
  | printer => exact absurd rfl hid
  | signalWatch => exact (signalWatchTurn_cases c).heeds
  | keywordWatch => exact (keywordWatchTurn_cases c).heeds
  | ticker => exact (tickerTurn_cases c).heeds hc
  | producer n => exact (producerTurn_cases c n).heeds hc

theorem act_heeds (hc : c.Coheres (· ∈ c.ready)) {m : Move} (hm : m ≠ .step .printer) :
    Heeds c (c.act m) := by
  cases m with
  | step id =>
    have ht : Heeds c (c.turn id).1 := turn_heeds hc fun he => hm (by rw [he])
    obtain ⟨ready, he⟩ := c.turn_eq_step id
    rw [Console.act, he]
    exact ht.later (.of_eq fun _ => rfl) rfl rfl
  | spawn p =>
    refine ⟨fun j n hj => ?_, .same rfl rfl⟩
    have hn : j ≠ .producer c.producers.length := by
      rintro rfl
      rw [(standing_spawn c p).1] at hj
      cases hj
    rwa [Console.act, standing_spawn_ne c p hn]
  | kill n =>
    rw [Console.act, Console.kill]
    split
    · exact .same (fun _ => rfl) rfl rfl
    · have hw : Heeds c (c.withdraw (.producer n)) :=
        ⟨.of_eq fun _ => rfl, .same rfl (c.mailbox.leave_items _).1⟩
      exact hw.later (spares_endProducer _ n) rfl rfl
  | raise s =>
    rw [Console.act, Console.raise]
    split <;> exact .same (fun _ => rfl) rfl rfl
  | start k interactive =>
    have hs := c.supervise_cases k interactive
    refine ⟨spares_of_standing_eq hs.standing_eq, .same hs.beside.printer ?_⟩
    change (c.supervise k interactive).1.mailbox.items = c.mailbox.items
    generalize (c.supervise k interactive).1 = d, (c.supervise k interactive).2 = first at hs ⊢
    cases hs <;> rfl
  | _ => exact .same (fun _ => rfl) rfl rfl

/-! What the printer does. -/

theorem Expectant.of_asked (hc : Expectant c) (ha : d.asked = c.asked)
    (hs : ∀ j, d.standing j = c.standing j) : Expectant d := by
  constructor
  · rw [ha]
    exact hc.distinct
  · intro slot hm
    rw [hs]
    exact hc.listens slot (ha ▸ hm)

theorem expectant_of_nil (h : c.asked = []) : Expectant c := by
  constructor
  · rw [h]
    exact List.nodup_nil
  · rw [h]
    exact nofun

theorem asked_of_take {t : Mailbox.Taken TaskId} (h : c.printer = .receiving)
    (hm : c.mailbox.take? = some t) :
    c.asked = t.message.slot?.toList ++ t.mailbox.items.filterMap Message.slot? := by
  rw [asked, h, (Mailbox.items_of_take? hm).1]
  cases hs : t.message.slot? <;> simp [Printer.slot?, hs]

theorem Expectant.reply {slot : ReplySlot} (hc : Expectant c) (hp : c.printer = .reading slot)
    (ha : d.asked = c.mailbox.items.filterMap Message.slot?)
    (hs : ∀ j, j ≠ slot.asker ∨ c.standing j = .gone → d.standing j = c.standing j) :
    Expectant d := by
  have hasked : c.asked = slot :: d.asked := by rw [asked, hp, ha]; rfl
  have hd := hc.distinct
  rw [hasked, List.nodup_cons] at hd
  refine ⟨hd.2, fun x hx => ?_⟩
  have hl := hc.listens x (hasked ▸ List.mem_cons_of_mem _ hx)
  have hself := hc.listens slot (hasked ▸ List.mem_cons_self)
  have hx : x.asker ≠ slot.asker ∨ c.standing x.asker = .gone := by
    obtain ⟨n, i⟩ := x
    obtain ⟨k, j⟩ := slot
    by_cases he : i = j
    · subst he
      refine .inr (Classical.byContradiction fun hg => hd.1 ?_)
      have hn := hl.unique hself hg
      subst hn
      exact hx
    · exact .inl he
  rw [hs _ hx]
  exact hl

theorem expectant_stopPrinter (c : Console) : Expectant c.stopPrinter := by
  apply expectant_of_nil
  obtain ⟨producers, ticker, ready, he⟩ := c.stopPrinter_eq
  rw [he]
  rfl

theorem PrinterTurn.expectant (h : PrinterTurn c d more) (hc : Expectant c) : Expectant d := by
  cases h with
  | gone => exact hc
  | idle => exact hc
  | deserted => exact expectant_stopPrinter c
  | left => exact expectant_stopPrinter c
  | @choked t =>
    apply expectant_of_nil
    obtain ⟨producers, ticker, ready, he⟩ := (c.take t).crashPrinter_eq t.message
    rw [he]
    rfl
  | @told t r h hm hd hs =>
    obtain ⟨display, journal, he⟩ := (c.take t).shown_eq t.message.kind r
    rw [he]
    refine hc.of_asked ?_ fun j => rfl
    rw [asked_of_take h hm, hs]
    change c.printer.slot?.toList ++ _ = _
    rw [h]
    rfl
  | @asked t r slot h hm hd hs =>
    obtain ⟨display, journal, he⟩ := (c.take t).shown_eq t.message.kind r
    rw [he]
    refine hc.of_asked ?_ fun j => rfl
    rw [asked_of_take h hm, hs]
    rfl
  | @exited t r code h hm hd hcode =>
    obtain ⟨display, journal, he⟩ := (c.take t).shown_eq t.message.kind r
    rw [he]
    refine hc.of_asked ?_ fun j => rfl
    have hs : t.message.slot? = none := by
      cases hs : t.message.slot? with
      | none => rfl
      | some slot => rw [Message.code?_eq_none hs] at hcode; cases hcode
    rw [asked_of_take h hm, hs]
    rfl
  | pending => exact hc.of_asked rfl fun _ => rfl
  | @heard slot line h =>
    obtain ⟨producers, ticker, ready, journal, he⟩ :=
      ((c.resumeRead .printer).record (.read .printer (.ok line))).answer_fields slot line
    refine hc.reply h (by rw [he]; rfl) fun j hj => ?_
    exact standing_answer ((c.resumeRead .printer).record (.read .printer (.ok line))) line hj
  | @failed slot failure h =>
    obtain ⟨producers, ticker, ready, he⟩ :=
      ((((c.resumeRead .printer).record (.read .printer (.error failure))).log
        (.answerFailed failure)).record (.ending .printer (.abort failure))).hangUp_eq slot
    refine hc.reply h (by rw [he]; rfl) fun j hj => ?_
    exact standing_hangUp ((((c.resumeRead .printer).record
      (.read .printer (.error failure))).log (.answerFailed failure)).record
        (.ending .printer (.abort failure))) hj

theorem Expectant.act (hc : Expectant c) (h : c.Coheres (· ∈ c.ready)) (m : Move) :
    Expectant (c.act m) := by
  by_cases hm : m = .step .printer
  · subst hm
    have ht : Expectant (c.turn .printer).1 := (printerTurn_cases c).expectant hc
    obtain ⟨ready, he⟩ := c.turn_eq_step .printer
    rw [Console.act, he]
    exact ht.of_asked rfl fun _ => rfl
  · obtain ⟨hs, hp⟩ := act_heeds h hm
    exact hc.put hs hp

theorem Reachable.expectant (h : c.Reachable) (hp : c.printer ≠ .crashed) : Expectant c := by
  apply h.invariant (P := fun c => c.printer ≠ .crashed → Expectant c) _ _ hp
  · intro settings jobs source sink c₀ h₀ _
    obtain ⟨-, rfl⟩ := new?_eq_some.1 h₀
    exact expectant_of_nil rfl
  · intro c m h _ hc hd
    have hp : c.printer ≠ .crashed := fun hx => hd (act_crashed hx m)
    exact (hc hp).act (h.attainable.coheres hp) m

end Console

end JobConsole
