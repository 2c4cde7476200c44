import JobConsole.Proofs.Frame

/-!
Standing: which activity each task is in, and what becomes of it by other means than its own
statements: it begins and ends, and when it waits for a reply it is given one or hung up on.
-/

namespace JobConsole

inductive Standing
  | unborn
  | gone
  | between
  | busy (a : Activity)

def Standing.activity? : Standing → Option Activity
  | .busy a => some a
  | _ => none

theorem Standing.activity?_eq_some {x : Standing} {a : Activity} :
    x.activity? = some a ↔ x = .busy a := by
  cases x <;> simp [activity?]

/-- What can become of a standing by other means than the statements of an activity. -/
inductive Told : Standing → Standing → Prop
  | same (x : Standing) : Told x x
  | ended (x : Standing) : Told x .gone
  | started : Told .unborn .between
  | spawned (p : Program) : Told .unborn (.busy { program := p })
  | called (p : Program) : Told .between (.busy { program := p })
  | hungUp {a : Activity} {n : Nat} (h : a.wait = .reply n) :
      Told (.busy a) (.busy { a with wait := .hungUp })
  | replied {a : Activity} {n : Nat} (h : a.wait = .reply n) (line : String) :
      Told (.busy a) (.busy { a with wait := .replied line })

theorem Told.trans {x y z : Standing} (h : Told x y) (g : Told y z) : Told x z := by
  cases g with
  | same => exact h
  | ended => exact .ended x
  | started => cases h; exact .started
  | spawned p => cases h; exact .spawned p
  | called p =>
    cases h with
    | same => exact .called p
    | started => exact .spawned p
  | hungUp hw =>
    cases h with
    | same => exact .hungUp hw
    | spawned => cases hw
    | called => cases hw
    | hungUp => cases hw
    | replied => cases hw
  | replied hw line =>
    cases h with
    | same => exact .replied hw line
    | spawned => cases hw
    | called => cases hw
    | hungUp => cases hw
    | replied => cases hw

namespace Console

def standing (c : Console) : TaskId → Standing
  | .producer n =>
    match c.producers[n]? with
    | none => .unborn
    | some none => .gone
    | some (some a) => .busy a
  | .ticker =>
    match c.supervision, c.ticker with
    | none, _ => .unborn
    | some _, .absent => .gone
    | some _, .calling _ a => .busy a
    | some _, .checking | some _, .sleeping _ => .between
  | _ => .gone

variable {c d e : Console} {i j : TaskId} {a b : Activity}

theorem standing_congr (hp : d.producers = c.producers) (ht : d.ticker = c.ticker)
    (hs : d.supervision = c.supervision) (j : TaskId) : d.standing j = c.standing j := by
  unfold standing
  rw [hp, ht, hs]

theorem standing_producer {n : Nat} :
    c.standing (.producer n) = .busy a ↔ c.activity? (.producer n) = some a := by
  simp only [activity?, standing, Option.join_eq_some_iff]
  split <;> simp_all

theorem standing_ticker : c.standing .ticker = .busy a ↔
    c.supervision.isSome ∧ c.activity? .ticker = some a := by
  simp only [activity?, standing]
  cases c.supervision with
  | none => simp
  | some s => cases c.ticker <;> simp [Ticker.activity?]

theorem standing_calling {s : Supervision} {r : Option Request} (hs : c.supervision = some s)
    (hk : c.ticker = .calling r a) : c.standing .ticker = .busy a := by
  simp [standing, hs, hk]

theorem standing_unsupervised (hs : c.supervision = none) : c.standing .ticker = .unborn := by
  simp [standing, hs]

theorem not_busy_of_ticker (h : c.ticker.activity? = none) (a : Activity) :
    c.standing .ticker ≠ .busy a := by
  intro ha
  have hk : c.ticker.activity? = some a := (standing_ticker.1 ha).2
  rw [h] at hk
  cases hk

theorem activity?_of_standing (h : c.standing i = .busy a) : c.activity? i = some a := by
  cases i with
  | producer n => exact standing_producer.1 h
  | ticker => exact (standing_ticker.1 h).2
  | _ => cases h

theorem standing_of_activity? (h : c.activity? i = some a) :
    c.standing i = .busy a ∨ i = .ticker ∧ c.supervision = none := by
  cases i with
  | producer n => exact .inl (standing_producer.2 h)
  | ticker =>
    cases hs : c.supervision with
    | none => exact .inr ⟨rfl, rfl⟩
    | some s => exact .inl (standing_ticker.2 ⟨by rw [hs]; rfl, h⟩)
  | _ => simp [activity?] at h

theorem standing_setActivity (h : c.standing i = .busy b) (a : Activity) (j : TaskId) :
    (c.setActivity i a).standing j = if j = i then .busy a else c.standing j := by
  cases i with
  | producer n =>
    have hn : n < c.producers.length := by
      have ha := standing_producer.1 h
      simp only [activity?, Option.join_eq_some_iff] at ha
      exact (List.getElem?_eq_some_iff.1 ha).1
    cases j with
    | producer k =>
      by_cases hk : k = n
      · simp [standing, setActivity, hk, hn]
      · simp [standing, setActivity, hk, Ne.symm hk]
    | _ =>
      rw [if_neg (by simp)]
      rfl
  | ticker =>
    obtain ⟨hs, ha⟩ := standing_ticker.1 h
    obtain ⟨s, hs⟩ := Option.isSome_iff_exists.1 hs
    cases hk : c.ticker with
    | calling r b => cases j <;> simp [standing, setActivity, hk, hs, Ticker.setActivity]
    | _ => simp [activity?, hk, Ticker.activity?] at ha
  | _ => cases h

theorem standing_setActivity_unsupervised (hs : c.supervision = none) (a : Activity) (j : TaskId) :
    (c.setActivity .ticker a).standing j = c.standing j := by
  cases j <;> simp [standing, setActivity, hs]

theorem expects_eq_true (c : Console) (slot : ReplySlot) (h : c.expects slot = true) :
    ∃ a, c.activity? slot.asker = some a ∧ a.wait = .reply slot.number := by
  unfold expects at h
  cases ha : c.activity? slot.asker with
  | none => simp [ha] at h
  | some a =>
    simp only [ha] at h
    refine ⟨a, rfl, ?_⟩
    cases hw : a.wait with
    | reply n => simpa [Wait.isReply, hw] using h
    | _ => simp [Wait.isReply, hw] at h

theorem hangUp_cases (c : Console) (slot : ReplySlot) :
    (c.expects slot = false ∧ c.hangUp slot = c) ∨
      ∃ a, c.activity? slot.asker = some a ∧ a.wait = .reply slot.number ∧
        c.hangUp slot = (c.setActivity slot.asker { a with wait := .hungUp }).wake slot.asker := by
  unfold hangUp
  cases he : c.expects slot with
  | false => exact .inl ⟨rfl, rfl⟩
  | true =>
    obtain ⟨a, ha, hw⟩ := c.expects_eq_true slot he
    refine .inr ⟨a, ha, hw, ?_⟩
    simp [setWait, ha]

theorem answer_cases (c : Console) (slot : ReplySlot) (line : String) :
    (c.expects slot = false ∧ c.answer slot line = c.log .askerGone) ∨
      ∃ a, c.activity? slot.asker = some a ∧ a.wait = .reply slot.number ∧ c.answer slot line =
        (c.setActivity slot.asker { a with wait := .replied line }).wake slot.asker := by
  unfold answer
  cases he : c.expects slot with
  | false => exact .inl ⟨rfl, rfl⟩
  | true =>
    obtain ⟨a, ha, hw⟩ := c.expects_eq_true slot he
    refine .inr ⟨a, ha, hw, ?_⟩
    simp [setWait, ha]

/-- No task has got on by a statement of its own. -/
def Leaves (c d : Console) : Prop :=
  ∀ j, Told (c.standing j) (d.standing j)

theorem Leaves.same (hp : d.producers = c.producers) (ht : d.ticker = c.ticker)
    (hs : d.supervision = c.supervision) : Leaves c d := by
  intro j
  rw [standing_congr hp ht hs]
  exact .same _

theorem Leaves.trans (h : Leaves c d) (g : Leaves d e) : Leaves c e :=
  fun j => (h j).trans (g j)

theorem Leaves.of_eq (h : ∀ j, d.standing j = c.standing j) : Leaves c d := by
  intro j
  rw [h j]
  exact .same _

theorem leaves_setActivity (ha : c.activity? i = some a) {w : Wait}
    (hw : Told (.busy a) (.busy { a with wait := w })) :
    Leaves c (c.setActivity i { a with wait := w }) := by
  intro j
  rcases standing_of_activity? ha with hi | ⟨rfl, hs⟩
  · rw [standing_setActivity hi]
    split
    · rename_i hj
      rw [hj, hi]
      exact hw
    · exact .same _
  · rw [standing_setActivity_unsupervised hs]
    exact .same _

theorem leaves_hangUp (c : Console) (slot : ReplySlot) : Leaves c (c.hangUp slot) := by
  rcases c.hangUp_cases slot with ⟨-, he⟩ | ⟨a, ha, hw, he⟩ <;> rw [he]
  · exact .same rfl rfl rfl
  · exact (leaves_setActivity ha (.hungUp hw)).trans (.same rfl rfl rfl)

theorem leaves_hangUpOn (c : Console) (m : Message) : Leaves c (c.hangUpOn m) := by
  cases m with
  | prompt text slot => exact leaves_hangUp c slot
  | _ => exact .same rfl rfl rfl

theorem leaves_answer (c : Console) (slot : ReplySlot) (line : String) :
    Leaves c (c.answer slot line) := by
  rcases c.answer_cases slot line with ⟨-, he⟩ | ⟨a, ha, hw, he⟩ <;> rw [he]
  · exact .same rfl rfl rfl
  · exact (leaves_setActivity ha (.replied hw line)).trans (.same rfl rfl rfl)

theorem leaves_discardAll (ms : List Message) : ∀ c : Console,
    Leaves c (ms.foldl (fun c m => (c.record (.discarded m)).hangUpOn m) c) := by
  induction ms with
  | nil => exact fun c => .same rfl rfl rfl
  | cons m ms ih =>
    intro c
    have hr : Leaves c (c.record (.discarded m)) := .same rfl rfl rfl
    exact (hr.trans (leaves_hangUpOn _ m)).trans (ih _)

theorem leaves_discard (c : Console) : Leaves c c.discard :=
  .trans (d := { c with mailbox := c.mailbox.drain }) (.same rfl rfl rfl) (leaves_discardAll _ _)

theorem leaves_stopPrinter (c : Console) : Leaves c c.stopPrinter := by
  refine .trans ?_ (leaves_discard _)
  exact .same rfl rfl rfl

theorem leaves_crashPrinter (c : Console) (m : Message) : Leaves c (c.crashPrinter m) := by
  refine (leaves_hangUpOn c m).trans (.trans ?_ (leaves_discard _))
  exact .same rfl rfl rfl

theorem leaves_shown (c : Console) (kind : Kind) (r : Display.Drawn) :
    Leaves c (c.shown kind r) := by
  unfold shown
  split <;> exact .same rfl rfl rfl

theorem PrinterTurn.leaves {more : Bool} (h : PrinterTurn c d more) : Leaves c d := by
  have ht (t : Mailbox.Taken TaskId) : Leaves c (c.take t) := .same rfl rfl rfl
  have hr (result : Except Failure String) : Leaves c
      ((c.resumeRead .printer).record (.read .printer result)) := .same rfl rfl rfl
  cases h with
  | gone => exact .same rfl rfl rfl
  | idle => exact .same rfl rfl rfl
  | deserted => exact leaves_stopPrinter c
  | choked => exact (ht _).trans (leaves_crashPrinter _ _)
  | told => exact (ht _).trans (leaves_shown _ _ _)
  | @asked t r => exact ((ht t).trans (leaves_shown _ t.message.kind r)).trans (.same rfl rfl rfl)
  | @exited t r => exact ((ht t).trans (leaves_shown _ t.message.kind r)).trans (.same rfl rfl rfl)
  | pending => exact .same rfl rfl rfl
  | @heard slot line => exact ((hr _).trans (leaves_answer _ slot line)).trans (.same rfl rfl rfl)
  | @failed slot failure =>
    refine .trans ?_ (.trans (leaves_hangUp _ slot) (.same rfl rfl rfl))
    exact (hr (.error failure)).trans (.same rfl rfl rfl)
  | left => exact leaves_stopPrinter c

theorem SignalWatchTurn.leaves {more : Bool} (h : SignalWatchTurn c d more) : Leaves c d := by
  cases h <;> exact .same rfl rfl rfl

theorem KeywordWatchTurn.leaves {more : Bool} (h : KeywordWatchTurn c d more) : Leaves c d := by
  have he (c : Console) : Leaves c c.endKeywordWatch := .same rfl rfl rfl
  cases h with
  | off => exact .same rfl rfl rfl
  | stop => exact he c
  | pending => exact .same rfl rfl rfl
  | keyword =>
    refine .trans ?_ (he _)
    exact .same rfl rfl rfl
  | other => exact .same rfl rfl rfl
  | failed =>
    refine .trans ?_ (he _)
    exact .same rfl rfl rfl

theorem Supervised.standing_eq {k : Nat} {interactive first : Bool}
    (h : Supervised c k interactive d first) (j : TaskId) :
    d.standing j = c.standing j ∨ c.standing j = .unborn ∧ d.standing j = .between := by
  cases h with
  | already => exact .inl rfl
  | started hs =>
    cases j with
    | ticker => exact .inr ⟨by simp [standing, hs], rfl⟩
    | _ => exact .inl rfl

theorem Deed.standing_eq {s : Statement} {w : Wait} {stage : Stage} (h : Deed c i s w d stage)
    (j : TaskId) : d.standing j = c.standing j ∨ c.standing j = .unborn ∧ d.standing j = .between := by
  cases h with
  | still => exact .inl rfl
  | accept => exact .inl rfl
  | refuse => exact .inl rfl
  | join => exact .inl rfl
  | park =>
    unfold Console.park
    split <;> exact .inl rfl
  | @supervise k interactive => exact (c.supervise_cases k interactive).standing_eq j
  | sleep => exact .inl rfl

theorem Deed.standing_self {s : Statement} {w : Wait} {stage : Stage} (h : Deed c i s w d stage)
    (hb : c.standing i = .busy a) : d.standing i = .busy a := by
  rcases h.standing_eq i with he | ⟨he, -⟩
  · exact he.trans hb
  · rw [hb] at he
    cases he

theorem Deed.busy_of {s : Statement} {w : Wait} {stage : Stage} (h : Deed c i s w d stage)
    (hb : d.standing j = .busy a) : c.standing j = .busy a := by
  rcases h.standing_eq j with he | ⟨-, he⟩
  · exact he.symm.trans hb
  · rw [he] at hb
    cases hb

theorem leaves_of_standing_eq
    (h : ∀ j, d.standing j = c.standing j ∨ c.standing j = .unborn ∧ d.standing j = .between) :
    Leaves c d := by
  intro j
  rcases h j with he | ⟨hc, hd⟩
  · rw [he]
    exact .same _
  · rw [hc, hd]
    exact .started

theorem standing_endProducer {n : Nat} (h : c.standing (.producer n) ≠ .unborn) :
    (c.endProducer n).standing (.producer n) = .gone := by
  have hl : n < c.producers.length :=
    Nat.lt_of_not_le fun hn => h (by simp [standing, List.getElem?_eq_none hn])
  simp only [standing, endProducer, letGo, List.getElem?_set_self hl]

theorem standing_endProducer_ne (c : Console) {n : Nat} (hj : j ≠ .producer n) :
    (c.endProducer n).standing j = c.standing j := by
  cases j with
  | producer k =>
    have hk : n ≠ k := fun hk => hj (by rw [hk])
    simp only [standing, endProducer, letGo, List.getElem?_set_ne hk]
  | _ => rfl

theorem leaves_endProducer (c : Console) (n : Nat) : Leaves c (c.endProducer n) := by
  intro j
  by_cases hj : j = .producer n
  · subst hj
    by_cases hl : n < c.producers.length
    · simp only [standing, endProducer, letGo, List.getElem?_set_self hl]
      exact .ended _
    · have hn : c.producers.set n none = c.producers :=
        List.set_eq_of_length_le (Nat.le_of_not_lt hl)
      simp only [standing, endProducer, letGo, hn]
      exact .same _
  · rw [standing_endProducer_ne c hj]
    exact .same _

theorem standing_spawn (c : Console) (p : Program) :
    c.standing (.producer c.producers.length) = .unborn ∧
      (c.spawn p).standing (.producer c.producers.length) = .busy { program := p } := by
  simp [standing, spawn, wake]

theorem standing_spawn_ne (c : Console) (p : Program) (hj : j ≠ .producer c.producers.length) :
    (c.spawn p).standing j = c.standing j := by
  cases j with
  | producer k =>
    simp only [standing, spawn, wake]
    rcases Nat.lt_trichotomy k c.producers.length with hk | hk | hk
    · rw [List.getElem?_append_left hk]
    · exact absurd (by rw [hk]) hj
    · have hl : (c.producers ++ [some (Activity.mk p 0 .fresh)]).length =
          c.producers.length + 1 := by simp
      rw [List.getElem?_eq_none (by omega), List.getElem?_eq_none (by omega)]
  | _ => rfl

theorem leaves_spawn (c : Console) (p : Program) : Leaves c (c.spawn p) := by
  intro j
  by_cases hj : j = .producer c.producers.length
  · subst hj
    rw [(standing_spawn c p).1, (standing_spawn c p).2]
    exact .spawned p
  · rw [standing_spawn_ne c p hj]
    exact .same _

theorem standing_beginCall (c : Console) (s : Supervision) : (c.beginCall s).standing .ticker =
    .busy { program := (c.job s.job).call (s.tally.next c.request) c.request } := by
  obtain ⟨-, hs, hk⟩ := c.beginCall_spec s
  simp [standing, hs, hk]

theorem standing_beginCall_ne (c : Console) (s : Supervision) (hj : j ≠ .ticker) :
    (c.beginCall s).standing j = c.standing j := by
  unfold beginCall
  cases j with
  | ticker => exact absurd rfl hj
  | _ => cases c.request <;> rfl

theorem leaves_beginCall {s : Supervision} (hs : c.supervision = some s)
    (hk : c.ticker = .checking) : Leaves c (c.beginCall s) := by
  intro j
  by_cases hj : j = .ticker
  · subst hj
    have hc : c.standing .ticker = .between := by simp [standing, hs, hk]
    rw [hc, standing_beginCall]
    exact .called _
  · rw [standing_beginCall_ne c s hj]
    exact .same _

theorem standing_stopTicker (c : Console) (s : Supervision) :
    (c.stopTicker s).standing .ticker = if c.supervision.isNone then .unborn else .gone := by
  cases hs : c.supervision <;>
    simp [standing, stopTicker, letGo, log, record, withdraw, wakeAll, hs]

theorem standing_stopTicker_ne (c : Console) (s : Supervision) (hj : j ≠ .ticker) :
    (c.stopTicker s).standing j = c.standing j := by
  cases j with
  | ticker => exact absurd rfl hj
  | _ => rfl

theorem leaves_stopTicker (c : Console) (s : Supervision) : Leaves c (c.stopTicker s) := by
  intro j
  by_cases hj : j = .ticker
  · subst hj
    rw [standing_stopTicker]
    split
    · rename_i hn
      rw [standing_unsupervised (Option.isNone_iff_eq_none.1 hn)]
      exact .same _
    · exact .ended _
  · rw [standing_stopTicker_ne c s hj]
    exact .same _

theorem standing_pause (h : c.standing .ticker ≠ .unborn) :
    c.pause.standing .ticker = .between := by
  cases hs : c.supervision with
  | none => exact absurd (standing_unsupervised hs) h
  | some s => simp [standing, pause, setTimer, hs]

theorem standing_pause_ne (c : Console) (hj : j ≠ .ticker) :
    c.pause.standing j = c.standing j := by
  cases j with
  | ticker => exact absurd rfl hj
  | _ => rfl

theorem standing_recover (c : Console) (s : Supervision) (r : Option Request) (j : TaskId) :
    (c.recover s r).standing j = c.standing j := by
  cases r <;> rfl

end Console

end JobConsole
