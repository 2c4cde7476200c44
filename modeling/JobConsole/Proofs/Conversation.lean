import JobConsole.Proofs.Parking
import JobConsole.Proofs.Serving

namespace JobConsole

def Event.isDoing (e : Event) : Bool :=
  e.isDuty || e.discarded?.isSome

/-- A prompt is drawn at once, and its line is read before anything else is done. -/
def Heeded (es : List Event) : Prop :=
  Followed (fun newer => ∃ bytes result newest, newer = .wrote bytes :: .read .printer result :: newest)
    es

def HeededUpTo (es : List Event) : Printer → Prop
  | .reading slot => ∃ older text bytes, es = older ++ [.handled (.prompt text slot), .wrote bytes] ∧
      Heeded older
  | .crashed => ∃ older m, es = older ++ [.handled m] ∧ Heeded older
  | _ => Heeded es

variable {es fs older newer : List Event} {p : Printer} {text : String} {slot : ReplySlot}

/-! The order in which the printer does things. -/

theorem Answered.heeded (h : Answered es) : Heeded es := by
  intro older text slot newer he
  obtain ⟨bytes, line, newest, rfl⟩ := h older text slot newer he
  exact ⟨bytes, .ok line, newest, rfl⟩

theorem Heeded.append (h : Heeded es) (g : Heeded fs) : Heeded (es ++ fs) := by
  refine Followed.append (fun xs ys hx => ?_) h g
  obtain ⟨bytes, result, newest, rfl⟩ := hx
  exact ⟨bytes, result, newest ++ ys, rfl⟩

theorem Heeded.split (h : Heeded es)
    (he : es ++ fs = older ++ .handled (.prompt text slot) :: newer) :
    (∃ bytes result newest, newer = .wrote bytes :: .read .printer result :: newest) ∨
      .handled (.prompt text slot) :: newer <:+ fs := by
  rcases List.append_eq_append_iff.1 he with ⟨as, rfl, hf⟩ | ⟨as, rfl, hf⟩
  · exact .inr ⟨as, hf.symm⟩
  · cases as with
    | nil => exact .inr ⟨[], hf⟩
    | cons x as =>
      obtain ⟨rfl, rfl⟩ := List.cons.inj hf
      obtain ⟨bytes, result, newest, rfl⟩ := h older text slot as rfl
      exact .inl ⟨bytes, result, newest ++ fs, rfl⟩

theorem Diary.heeded (h : Diary es p) : HeededUpTo es p := by
  have hquiet {es : List Event} {p : Printer} (h : Diary es p)
      (hp : p = .receiving ∨ p = .leaving) : Heeded es := by
    rcases hp with rfl | rfl
    · exact Answered.heeded h.settled
    · cases h with
      | failed h failure =>
        obtain ⟨older, text, bytes, rfl, ho⟩ := h.settled
        rw [List.append_assoc]
        exact ho.heeded.append (followed_cons ⟨bytes, _, _, rfl⟩ (by simp))
      | exited h =>
        exact Heeded.append (Answered.heeded h.settled) (followed_of_unasked (by simp))
  cases p with
  | receiving => exact hquiet h (.inl rfl)
  | leaving => exact hquiet h (.inr rfl)
  | reading slot =>
    obtain ⟨older, text, bytes, he, ho⟩ := h.settled
    exact ⟨older, text, bytes, he, ho.heeded⟩
  | stopped =>
    cases h with
    | stopped h hp => exact hquiet h hp
  | crashed =>
    cases h with
    | choked h m => exact ⟨_, m, rfl, Answered.heeded h.settled⟩

/-! What the printer throws away. -/

/-- What is thrown away is thrown away in the end. -/
def Parted (es : List Event) : Prop :=
  es.Pairwise fun x y => x.discarded?.isSome = true → y.isDuty = false

theorem parted_of_kept (h : es.filterMap Event.discarded? = []) : Parted es := by
  refine List.pairwise_of_forall_mem_list fun x hx y _ hd => ?_
  rw [List.filterMap_eq_nil_iff.1 h x hx] at hd
  cases hd

theorem Parted.append (h : Parted es) (hn : ∀ y ∈ fs, y.isDuty = false) : Parted (es ++ fs) := by
  refine List.pairwise_append.2 ⟨h, ?_, fun x _ y hy _ => hn y hy⟩
  exact List.pairwise_of_forall_mem_list fun x _ y hy _ => hn y hy

theorem Parted.filter_doings (h : Parted es) : es.filter Event.isDoing =
    es.filter Event.isDuty ++ (es.filterMap Event.discarded?).map Event.discarded := by
  induction h with
  | nil => rfl
  | @cons e es he _ ih =>
    cases hd : e.discarded? with
    | none => cases hx : e.isDuty <;> simp [Event.isDoing, hd, hx, ih]
    | some m =>
      have hnone : es.filter Event.isDuty = [] := by
        apply List.filter_eq_nil_iff.2
        intro x hx
        simp [he x hx (by simp [hd])]
      rw [hnone, List.nil_append] at ih
      cases e with
      | discarded m' =>
        cases hd
        simp [Event.isDoing, Event.discarded?, hnone, ih, Event.isDuty]
      | _ => cases hd

namespace Console

variable {c d e : Console} {id j : TaskId} {a b : Activity} {s : Statement} {rest : Program}
  {w : Wait} {stage : Stage} {m : Message} {n : Nat} {line : String} {more : Bool}

def doings (c : Console) : List Event :=
  c.events.filter Event.isDoing

theorem Attainable.undiscarded (h : c.Attainable) (hs : c.printer ≠ .stopped)
    (hc : c.printer ≠ .crashed) : c.discarded = [] := by
  obtain ⟨d₀, hm⟩ := h.mail
  exact hm.kept (h.staged.open hs hc).1

theorem PrinterTurn.parts (h : PrinterTurn c d more) (hs : c.printer ≠ .stopped)
    (hc : c.printer ≠ .crashed) (hd : d.printer = .stopped ∨ d.printer = .crashed) :
    ∃ (es : List Event) (ms : List Message), d.events = c.events ++ es ++ ms.map Event.discarded ∧
      es.filterMap Event.discarded? = [] := by
  cases h with
  | gone h => exact (h.elim hs hc).elim
  | idle => exact (hd.elim hs hc).elim
  | deserted | left => exact ⟨_, _, c.events_stopPrinter, rfl⟩
  | @choked t =>
    have he : (c.take t).events = c.events ++ [.handled t.message] := events_record _ _
    exact ⟨[.handled t.message], _, by rw [events_crashPrinter, he], rfl⟩
  | @told t r h =>
    obtain ⟨display, journal, he⟩ := (c.take t).shown_eq t.message.kind r
    rw [he] at hd
    exact (hd.elim hs hc).elim
  | pending => exact (hd.elim hs hc).elim
  | asked | exited | heard | failed => rcases hd with hd | hd <;> cases hd

theorem Attainable.parted (h : c.Attainable) : Parted c.events := by
  have hlater {c d : Console} (hc : Parted c.events) (hg : c.events <+: d.events)
      (hd : d.duties = c.duties) : Parted d.events := by
    obtain ⟨news, he⟩ := hg
    rw [duties_of_events he.symm] at hd
    rw [← he]
    refine hc.append fun y hy => ?_
    simpa using List.filter_eq_nil_iff.1 (List.append_right_eq_self.1 hd) y hy
  apply h.invariant (P := fun c => Parted c.events)
  · intro settings jobs source sink c₀ h₀
    obtain ⟨-, rfl⟩ := new?_eq_some.1 h₀
    exact .nil
  · intro c m hc ha hp
    by_cases hm : m = .step .printer
    · subst hm
      by_cases hd : (c.act (.step .printer)).printer = .stopped ∨
          (c.act (.step .printer)).printer = .crashed
      · obtain ⟨ready, he⟩ := c.turn_eq_step .printer
        rw [Console.act, he] at hd ⊢
        by_cases hg : c.printer = .stopped ∨ c.printer = .crashed
        · have ht : c.turn .printer = (c, false) := by
            rcases hg with hg | hg <;> simp [turn, printerTurn, hg]
          rw [ht]
          exact hp
        · rw [not_or] at hg
          obtain ⟨es, ms, hes, hn⟩ := (printerTurn_cases c).parts hg.1 hg.2 hd
          change Parted c.printerTurn.1.events
          rw [hes]
          refine (parted_of_kept ?_).append fun y hy => ?_
          · rw [List.filterMap_append, hn, List.append_nil]
            exact hc.undiscarded hg.1 hg.2
          · obtain ⟨m, -, rfl⟩ := List.mem_map.1 hy
            rfl
      · rw [not_or] at hd
        exact parted_of_kept ((hc.act _ ha).undiscarded hd.1 hd.2)
    · exact hlater hp (c.act_grows m) (c.act_duties m hm)
  · exact fun c id _ hi _ _ hp => hlater hp (c.work_grows id) (c.work_duties hi)

theorem Attainable.doings_eq (h : c.Attainable) :
    c.doings = c.duties ++ c.discarded.map Event.discarded :=
  h.parted.filter_doings

/-! Who is answered. -/

def said (c : Console) (id : TaskId) : List Message :=
  c.posted.filterMap fun x => if x.1 = id then some x.2 else none

def Posed (c : Console) (id : TaskId) (s : Statement) (n : Nat) : Prop :=
  ∃ text, s.message? ⟨n, id⟩ = some (.prompt text ⟨n, id⟩) ∧
    (c.said id).getLast? = some (.prompt text ⟨n, id⟩)

/-- What a task waits for, or has got, goes with the prompt that it sent last. -/
inductive Matches (c : Console) (id : TaskId) (s : Statement) : Wait → Prop
  | reply {n : Nat} (h : Posed c id s n) : Matches c id s (.reply n)
  | replied {n : Nat} {line : String} (h : Posed c id s n) (hr : (⟨n, id⟩, .ok line) ∈ c.served) :
      Matches c id s (.replied line)
  | other {w : Wait} (hn : ∀ n, w ≠ .reply n) (hl : ∀ line, w ≠ .replied line) : Matches c id s w

def Matched (c : Console) : Prop :=
  ∀ id a s rest, c.standing id = .busy a → a.program = s :: rest → Matches c id s a.wait

theorem said_congr (h : d.posted = c.posted) (id : TaskId) : d.said id = c.said id := by
  rw [said, h, said]

theorem said_append (h : d.posted = c.posted ++ [(id, m)]) (j : TaskId) :
    d.said j = if j = id then c.said j ++ [m] else c.said j := by
  rw [said, h, List.filterMap_append, said]
  by_cases hj : id = j
  · simp [hj]
  · simp [hj, Ne.symm hj]

theorem Posed.congr (h : Posed c id s n) (hd : d.said id = c.said id) : Posed d id s n := by
  obtain ⟨text, hm, hs⟩ := h
  exact ⟨text, hm, hd ▸ hs⟩

theorem Matches.congr (h : Matches c id s w) (hd : d.said id = c.said id)
    (hs : ∀ x ∈ c.served, x ∈ d.served) : Matches d id s w := by
  cases h with
  | reply h => exact .reply (h.congr hd)
  | replied h hr => exact .replied (h.congr hd) (hs _ hr)
  | other hn hl => exact .other hn hl

theorem matches_fresh : Matches c id s .fresh :=
  .other nofun nofun

theorem Posed.accepted (hs : Suits s w) {text : String} {slot : ReplySlot}
    (hm : c.sending? id s w = some (.prompt text slot)) (hid : slot.asker = id)
    (hd : d.posted = c.posted ++ [(id, .prompt text slot)]) : Posed d id s slot.number := by
  obtain ⟨slot', hm'⟩ := Suits.sending hs hm
  obtain rfl : slot = slot' := slot_of_message? hm' rfl
  obtain ⟨number, asker⟩ := slot
  subst hid
  exact ⟨text, hm', by rw [said_append hd, if_pos rfl, List.getLast?_concat]⟩

theorem Deed.matched (h : Deed c id s w d stage) (hc : Matches c id s w) (hs : Suits s w)
    (hn : ∀ m slot, c.sending? id s w = some m → m.slot? = some slot → slot.asker = id)
    {v : Wait} (hv : stage = .blocked v ∨ stage = .moving v) (he : e.posted = d.posted)
    (hr : e.served = c.served) : Matches e id s v := by
  have hkept (hd : d.posted = c.posted) : Matches e id s w :=
    hc.congr (said_congr (he.trans hd) id) fun x hx => hr ▸ hx
  cases h with
  | still h =>
    cases h with
    | unserved | unanswered | asleep | hung =>
      rcases hv with hv | hv <;> cases hv
      exact hkept rfl
    | park | hang =>
      rcases hv with hv | hv <;> cases hv
      exact .other nofun nofun
    | _ => rcases hv with hv | hv <;> cases hv
  | @accept m slots mailbox hm =>
    cases m with
    | prompt text slot =>
      rcases hv with hv | hv <;> cases hv
      have hd := he.trans (c.posted_accepted id (.prompt text slot) slots mailbox)
      exact .reply (.accepted hs hm (hn _ _ hm rfl) hd)
    | exit text code =>
      rcases hv with hv | hv <;> cases hv
      exact .other nofun nofun
    | _ => rcases hv with hv | hv <;> cases hv
  | @refuse m =>
    cases m <;> rcases hv with hv | hv <;> cases hv <;> exact .other nofun nofun
  | join | sleep =>
    rcases hv with hv | hv <;> cases hv
    exact .other nofun nofun
  | park hw =>
    rcases hv with hv | hv <;> cases hv
    rcases hw with rfl | rfl <;> exact .other nofun nofun
  | supervise => rcases hv with hv | hv <;> cases hv

theorem Matched.speaks (h : Matched c) (hc : c.Attainable) (hd : Speaks c d id)
    (hr : d.served = c.served) : Matched d := by
  have hsame (x) (hx : x ∈ c.served) : x ∈ d.served := hr ▸ hx
  cases hd with
  | mute hm =>
    intro j b s rest hj hp
    rcases hm.standing j b hj with hj | hw
    · exact (h j b s rest hj hp).congr (said_congr hm.posted j) hsame
    · rw [hw]
      exact matches_fresh
  | @deed a b s rest e stage ha hp he hres _ hm hst =>
    intro j b' s' rest' hj hp'
    rw [hst] at hj
    have hdeed := deed_of_perform he
    -- The one that acts waits for the prompt it has just sent. The others have said nothing new.
    by_cases hid : j = id
    · subst hid
      rw [if_pos rfl] at hj
      cases hj
      have hsuits : Suits s a.wait := hc.suits ha hp
      have hown (m slot) (hm : c.sending? j s a.wait = some m) (hs : m.slot? = some slot) :
          slot.asker = j :=
        (hc.numbered.spare ha rfl hm hs).asker
      have hmatch {v : Wait} (hv : stage = .blocked v ∨ stage = .moving v) : Matches d j s v :=
        hdeed.matched (h j a s rest ha hp) hsuits hown hv hm hr
      cases hres with
      | blocked v =>
        rw [show a.program = s' :: rest' from hp'] at hp
        cases hp
        exact hmatch (.inl rfl)
      | moving v =>
        rw [show a.program = s' :: rest' from hp'] at hp
        cases hp
        exact hmatch (.inr rfl)
      | followed | finished => exact matches_fresh
    · rw [if_neg hid] at hj
      refine (h j b' s' rest' (hdeed.busy_of hj) hp').congr ?_ hsame
      rcases hdeed.posted_cases with heq | ⟨m, -, heq, -⟩
      · exact said_congr (hm.trans heq) j
      · rw [said_append (hm.trans heq), if_neg hid]

/-! The printer's turn. -/

def Quits (c d : Console) : Prop :=
  ∀ j b, d.standing j = .busy b → c.standing j = .busy b ∨ b.wait = .hungUp

theorem Quits.of_eq (h : ∀ j, d.standing j = c.standing j) : Quits c d :=
  fun j _ hj => .inl ((h j).symm.trans hj)

theorem Quits.trans (h : Quits c d) (g : Quits d e) : Quits c e :=
  fun j b hj => (g j b hj).elim (h j b) .inr

theorem Tells.quits {slots : List ReplySlot} {here : TaskId → Prop}
    (h : Tells slots .hungUp here c.standing d.standing) : Quits c d := by
  intro j b hj
  rcases h.told j b hj with ⟨hj, -⟩ | ⟨a, n, -, -, rfl, -⟩
  · exact .inl hj
  · exact .inr rfl

theorem quits_hangUp (c : Console) (slot : ReplySlot) : Quits c (c.hangUp slot) :=
  Tells.quits (c.tells_hangUp slot)

theorem quits_hangUpOn (c : Console) (m : Message) : Quits c (c.hangUpOn m) := by
  cases m with
  | prompt text slot => exact c.quits_hangUp slot
  | _ => exact .of_eq fun _ => rfl

theorem quits_discard (c : Console) : Quits c c.discard := by
  have ht := (tells_discardAll c.mailbox.items { c with mailbox := c.mailbox.drain }).2
  have hq : Quits { c with mailbox := c.mailbox.drain } c.discard := Tells.quits ht
  exact hq

theorem quits_stopPrinter (c : Console) : Quits c c.stopPrinter :=
  .trans (.of_eq fun _ => rfl) (quits_discard _)

theorem quits_crashPrinter (c : Console) (m : Message) : Quits c (c.crashPrinter m) :=
  .trans (.trans (quits_hangUpOn c m) (.of_eq fun _ => rfl)) (quits_discard _)

theorem PrinterTurn.quits (h : PrinterTurn c d more) (hp : ∀ slot, c.printer ≠ .reading slot) :
    Quits c d := by
  have hshown (t : Mailbox.Taken TaskId) (r : Display.Drawn) (j : TaskId) :
      ((c.take t).shown t.message.kind r).standing j = c.standing j := by
    obtain ⟨display, journal, he⟩ := (c.take t).shown_eq t.message.kind r
    rw [he]
    rfl
  cases h with
  | gone | idle => exact .of_eq fun _ => rfl
  | deserted | left => exact quits_stopPrinter c
  | choked => exact .trans (.of_eq fun _ => rfl) (quits_crashPrinter (c.take _) _)
  | told => exact .of_eq (hshown _ _)
  | asked => exact .of_eq (hshown _ _)
  | exited => exact .of_eq (hshown _ _)
  | pending h | heard h | failed h => exact absurd h (hp _)

theorem ReadingTurn.standing_eq {slot : ReplySlot} (h : ReadingTurn c slot d)
    (hs : (c.reader.resume .printer).result = some (.ok line)) (j : TaskId) :
    d.standing j = c.standing j ∨ j = slot.asker ∧ ∃ a, c.standing j = .busy a ∧
      a.wait = .reply slot.number ∧ d.standing j = .busy { a with wait := .replied line } := by
  cases h with
  | pending hr => rw [hs] at hr; cases hr
  | failed hr => rw [hs] at hr; cases hr
  | @heard line' hr =>
    rw [hs] at hr
    cases hr
    rcases ((c.resumeRead .printer).record (.read .printer (.ok line))).answer_cases slot line with
      ⟨-, he⟩ | ⟨a, ha, hw, he⟩ <;> rw [he]
    · exact .inl rfl
    · rcases standing_of_activity? ha with hb | ⟨ht, hn⟩
      · have hset := standing_setActivity hb { a with wait := .replied line } j
        by_cases hj : j = slot.asker
        · rw [if_pos hj] at hset
          subst hj
          exact .inr ⟨rfl, a, hb, hw, hset⟩
        · rw [if_neg hj] at hset
          exact .inl hset
      · refine .inl ?_
        rw [ht]
        exact standing_setActivity_unsupervised hn _ j

theorem Matched.quits (h : Matched c) (hq : Quits c d) (hp : d.posted = c.posted)
    (hs : ∀ x ∈ c.served, x ∈ d.served) : Matched d := by
  intro j b s rest hj hb
  rcases hq j b hj with hj | hw
  · exact (h j b s rest hj hb).congr (said_congr hp j) hs
  · rw [hw]
    exact .other nofun nofun

theorem Matched.reading {slot : ReplySlot} (h : Matched c) (hc : c.Attainable)
    (hp : c.printer = .reading slot) (hd : ReadingTurn c slot d) (hposted : d.posted = c.posted)
    (hg : c.events <+: d.events) : Matched d := by
  cases hs : (c.reader.resume .printer).result with
  | none =>
    cases hd with
    | pending => exact h.quits (.of_eq fun _ => rfl) rfl fun _ hx => hx
    | heard hr | failed hr => rw [hs] at hr; cases hr
  | some result =>
    have hserved := hc.served_of_answer hp hg (hd.reads_eq hs)
    have hsub (x) (hx : x ∈ c.served) : x ∈ d.served := by
      rw [hserved]
      exact List.mem_append_left _ hx
    cases result with
    | error failure =>
      refine h.quits ?_ hposted hsub
      cases hd with
      | pending hr | heard hr => rw [hs] at hr; cases hr
      | @failed failure =>
        have hq := ((((c.resumeRead .printer).record (.read .printer (.error failure))).log
          (.answerFailed failure)).record (.ending .printer (.abort failure))).quits_hangUp slot
        exact fun j b hj => hq j b hj
    | ok line =>
      intro j b s rest hj hb
      rcases hd.standing_eq hs j with he | ⟨rfl, a, ha, hw, he⟩
      · rw [he] at hj
        exact (h j b s rest hj hb).congr (said_congr hposted j) hsub
      · rw [he] at hj
        cases hj
        have hm := h slot.asker a s rest ha hb
        rw [hw] at hm
        cases hm with
        | reply hposed =>
          refine .replied (hposed.congr (said_congr hposted _)) ?_
          rw [hserved]
          exact List.mem_append_right _ List.mem_cons_self
        | other hn => exact absurd rfl (hn _)

theorem Attainable.matched (h : c.Attainable) : Matched c := by
  apply h.invariant (P := Matched)
  · intro settings jobs source sink c₀ h₀ id a s rest hb
    obtain ⟨-, rfl⟩ := new?_eq_some.1 h₀
    cases id <;> cases hb
  · intro c m hc ha hm
    by_cases hp : m = .step .printer
    · subst hp
      have ht := printerTurn_cases c
      have hg : c.events <+: c.printerTurn.1.events := c.turn_grows .printer
      have hd : Matched c.printerTurn.1 := by
        by_cases hr : ∃ slot, c.printer = .reading slot
        · obtain ⟨slot, hr⟩ := hr
          exact hm.reading hc hr (ht.reading hr) ht.posted_eq hg
        · have hn := not_exists.1 hr
          refine hm.quits (ht.quits hn) ht.posted_eq fun x hx => ?_
          rwa [hc.served_of_reads hg (ht.apart hn).2]
      obtain ⟨ready, he⟩ := c.turn_eq_step .printer
      rw [Console.act, he]
      exact hd.quits (.of_eq fun _ => rfl) rfl fun _ hx => hx
    · obtain ⟨id, hd⟩ := c.act_speaks m hp
      exact hm.speaks hc hd (served_of_duties (c.act_duties m hp))
  · exact fun c id hc hi _ _ hm => hm.speaks hc (c.work_speaks hi)
      (served_of_duties (c.work_duties hi))

/-! Conversations. -/

/-- What comes behind a prompt among the things that the printer does and throws away. -/
inductive Hushed (c : Console) (slot : ReplySlot) : List Event → Prop
  | reading {bytes : List UInt8} (hp : c.printer = .reading slot) : Hushed c slot [.wrote bytes]
  | read {bytes : List UInt8} {result : Except Failure String} {newest : List Event} :
      Hushed c slot (.wrote bytes :: .read .printer result :: newest)
  | crashed (hp : c.printer = .crashed) :
      Hushed c slot (c.discarded.map Event.discarded)

structure Conversed (c : Console) : Prop where
  /-- A prompt returns the line that was read for it, or nothing when nobody will read one. -/
  returned : ∀ id s rest k w e line, c.standing id = .busy ⟨s :: rest, k, w⟩ →
    c.perform id s w = (e, .finished (.answered line)) →
      w = .hungUp ∧ line = "" ∨ w = .replied line ∧ ∃ text slot, slot.asker = id ∧
        s.message? slot = some (.prompt text slot) ∧
          (c.said id).getLast? = some (.prompt text slot) ∧ (slot, .ok line) ∈ c.served
  read : ∀ x ∈ c.served, Located c.doings x
  distinct : c.prompts.Nodup
  order : c.served.map Prod.fst <+: c.prompts
  lines : c.served.map Prod.snd = c.events.filterMap Event.answer?
  /-- A line is handed to its asker, if this waits for it, and to nobody else. -/
  spared : ∀ slot line, c.printer = .reading slot →
    (c.reader.resume .printer).result = some (.ok line) → ∀ j,
      (c.step .printer).standing j = c.standing j ∨ j = slot.asker ∧ ∃ a, c.standing j = .busy a ∧
        a.wait = .reply slot.number ∧
          (c.step .printer).standing j = .busy { a with wait := .replied line }
  quiet : ∀ older text slot newer, c.doings = older ++ .handled (.prompt text slot) :: newer →
    Hushed c slot newer

theorem Attainable.hushed (h : c.Attainable) {older newer : List Event} {text : String}
    {slot : ReplySlot} (he : c.doings = older ++ .handled (.prompt text slot) :: newer) :
    Hushed c slot newer := by
  -- The doings end with what was thrown away, and a prompt that was handled is not among that.
  have hnone : ¬.handled (.prompt text slot) :: newer <:+ c.discarded.map Event.discarded := by
    intro hs
    have hm := hs.subset List.mem_cons_self
    simp at hm
  have hheeded {es fs : List Event} (hes : Heeded es) (hd : c.doings = es ++ fs)
      (hf : .handled (.prompt text slot) :: newer <:+ fs → Hushed c slot newer) :
      Hushed c slot newer := by
    rcases hes.split (hd.symm.trans he) with ⟨bytes, result, newest, rfl⟩ | hs
    · exact .read
    · exact hf hs
  have hd := h.diary.heeded
  have hdoings := h.doings_eq
  cases hp : c.printer with
  | receiving | leaving | stopped =>
    rw [hp] at hd
    exact hheeded hd hdoings fun hs => absurd hs hnone
  | reading slot' =>
    rw [hp] at hd
    obtain ⟨older', text', bytes, hduties, ho⟩ := hd
    rw [h.undiscarded (by simp [hp]) (by simp [hp]), hduties, List.map_nil,
      List.append_nil] at hdoings
    refine hheeded ho hdoings fun hs => ?_
    rcases List.suffix_cons_iff.1 hs with hs | hs
    · obtain ⟨hm, rfl⟩ := List.cons.inj hs
      cases hm
      exact .reading hp
    · simp [List.suffix_cons_iff] at hs
  | crashed =>
    rw [hp] at hd
    obtain ⟨older', m, hduties, ho⟩ := hd
    rw [hduties, List.append_assoc] at hdoings
    refine hheeded ho hdoings fun hs => ?_
    rcases List.suffix_cons_iff.1 hs with hs | hs
    · obtain ⟨-, rfl⟩ := List.cons.inj hs
      exact .crashed hp
    · exact absurd hs hnone

theorem Deed.answered (h : Deed c id s w d stage) (ho : stage = .finished (.answered line)) :
    w = .hungUp ∧ line = "" ∨ w = .replied line := by
  cases h with
  | still hs =>
    cases hs with
    | answered =>
      cases ho
      exact .inr rfl
    | abandoned =>
      cases ho
      exact .inl ⟨rfl, rfl⟩
    | _ => cases ho
  | @accept m | @refuse m => cases m <;> cases ho
  | _ => cases ho

theorem conversed_of_attainable (h : c.Attainable) : Conversed c := by
  constructor
  case returned =>
    intro id s rest k w e line ha he
    rcases (deed_of_perform he).answered rfl with hw | rfl
    · exact .inl hw
    · have hm := h.matched id ⟨s :: rest, k, .replied line⟩ s rest ha rfl
      cases hm with
      | @replied n _ hp hr =>
        obtain ⟨text, hs, hsaid⟩ := hp
        exact .inr ⟨rfl, text, ⟨n, id⟩, rfl, hs, hsaid, hr⟩
      | other _ hl => exact absurd rfl (hl line)
  case read =>
    intro x hx
    rw [served, ← servedIn_duties] at hx
    rw [h.doings_eq]
    exact (h.diary.located x hx).append
  case distinct => exact h.numbered.nodup
  case order => exact h.served_slots
  case lines => exact h.served_answers
  case spared =>
    intro slot line hp hs j
    have ht := ((printerTurn_cases c).reading hp).standing_eq hs j
    obtain ⟨ready, he⟩ := c.turn_eq_step .printer
    rw [he]
    exact ht
  case quiet => exact fun older text slot newer he => h.hushed he

def orphaning : List Move :=
  [.spawn [.prompt "?"], .spawn [.prompt "!"], .step (.producer 0), .step (.producer 1),
    .kill 0, .step .printer, .feed (.bytes [97, 10, 98, 10]), .step .printer, .step .printer,
    .step .printer]

theorem conversed_of_orphaning : ∃ c₀, new? {} [] {} {} = some c₀ ∧
    (c₀.play orphaning).Attainable ∧
      (c₀.play orphaning).standing (.producer 1) = .busy ⟨[.prompt "!"], 0, .replied "b"⟩ ∧
        (c₀.play orphaning).served =
          [(⟨0, .producer 0⟩, .ok "a"), (⟨1, .producer 1⟩, .ok "b")] ∧
            Conversed (c₀.play orphaning) := by
  have hr : ∃ c₀, new? {} [] {} {} = some c₀ ∧ c₀.legal orphaning := ⟨_, rfl, by decide⟩
  obtain ⟨c₀, h₀, hl⟩ := hr
  have ha : (c₀.play orphaning).Attainable :=
    Reachable.attainable ⟨{}, [], {}, {}, c₀, orphaning, h₀, .of_legal hl⟩
  refine ⟨c₀, h₀, ha, ?_, ?_, conversed_of_attainable ha⟩
  · cases h₀
    rfl
  · cases h₀
    rfl

end Console

end JobConsole
