import JobConsole.Proofs.Blocking

namespace JobConsole.Console

/-- The tasks that run next behind a turn of one of them. -/
def Next (ready : List TaskId) (id : TaskId) (more : Bool) (j : TaskId) : Prop :=
  j ∈ ready ∧ (more = false → j ≠ id)

variable {c d : Console} {id : TaskId} {a : Activity} {s : Statement} {rest : Program} {k : Nat}
  {w : Wait} {stage : Stage} {here here' : TaskId → Prop} {more : Bool} {note : Outcome → Event}
  {pace : Pace}

theorem Coheres.mono (hc : c.Coheres here) (hh : ∀ i, here i → here' i) : c.Coheres here' :=
  Coherent.attend hc (hc.attended.mono (fun h => h) fun i _ => hh i) (fun i _ _ => hh i)
    (fun _ h => .inl (hh _ h)) fun _ => hh _

theorem Coheres.retire (hc : c.Coheres (· ∈ c.ready)) (hp : id ≠ .printer)
    (hr : ¬Reads c.printer c.keywordWatch id) (hs : ∀ a, c.standing id ≠ .busy a) :
    c.Coheres (Next c.ready id false) := by
  have hprinter (h : TaskId.printer ∈ c.ready) : Next c.ready id false .printer :=
    ⟨h, fun _ => Ne.symm hp⟩
  refine Coherent.attend hc (hc.attended.mono (fun h => h) fun i hi h => ⟨h, fun _ he => ?_⟩)
    (fun i a ha h => ⟨h, fun _ he => ?_⟩) (fun _ h => .inl (hprinter h)) fun _ => hprinter
  · exact hr (he ▸ hi)
  · exact hs a (he ▸ ha)

theorem id_of_standing (h : c.standing id = .busy a) : id ≠ .printer ∧ id ≠ .keywordWatch := by
  constructor <;> rintro rfl <;> cases h

/-! An activity. -/

theorem coheres_setActivity : (d.setActivity id a).Coheres here ↔
    Coherent d.mailbox d.reader d.printer d.terminated d.parked d.keywordWatch here
      (d.setActivity id a).standing := by
  cases id <;> rfl

theorem ready_setActivity : (d.setActivity id a).ready = d.ready := by
  cases id <;> rfl

theorem record_setActivity (e : Event) :
    (d.record e).setActivity id a = (d.setActivity id a).record e := by
  cases id <;> rfl

theorem Deed.coheres {b : Activity} (h : Deed c id s w d stage) (hc : c.Coheres (· ∈ c.ready))
    (hs : c.standing id = .busy ⟨s :: rest, k, w⟩)
    (ht : c.terminated = true → id = .ticker → Next d.ready id more id)
    (hb : Placed d.mailbox d.printer d.terminated d.parked (Next d.ready id more id) id b.program
      b.wait)
    (hline : ∀ m, stage = .blocked (.room m) → ∃ s rest k, b = ⟨s :: rest, k, .room m⟩) :
    (d.setActivity id b).Coheres (Next (d.setActivity id b).ready id more) := by
  obtain ⟨hp, hk⟩ := id_of_standing hs
  have hst (j : TaskId) := standing_setActivity (h.standing_self hs) b j
  rw [coheres_setActivity, ready_setActivity]
  apply (h.apart hc hs).coherent h.beside hc hp hk (fun i hi hne => ⟨hi, fun _ => hne⟩)
  · intro i hne
    rw [hst, if_neg hne]
    exact h.standing_eq i
  · intro a ha
    rw [hst, if_pos rfl] at ha
    cases ha
    exact hb
  · intro hi
    obtain ⟨m, hm⟩ := h.lined hc hs hi
    obtain ⟨s', rest', k', rfl⟩ := hline m hm
    exact ⟨s', rest', k', m, by rw [hst, if_pos rfl]⟩
  · exact fun hterm he _ _ => ht hterm he

theorem Deed.placed (h : Deed c id s w d stage) (hc : c.Coheres (· ∈ c.ready))
    (hs : c.standing id = .busy ⟨s :: rest, k, w⟩) : LeftAt d id s stage :=
  h.left ((hc.placed id _ hs).enter fun _ => trivial)

theorem Pursuit.on (h : Pursuit c id a note d pace) (hp : pace = .resting ∨ pace = .moving)
    (hc : c.Coheres (· ∈ c.ready)) (hs : c.standing id = .busy a) (hid : id ∈ c.ready)
    (hm : pace = .moving ∨ c.terminated = true ∧ id = .ticker → more = true) :
    d.Coheres (Next d.ready id more) := by
  obtain ⟨program, k, w⟩ := a
  have hnext {s : Statement} {d : Console} {stage : Stage} (hd : Deed c id s w d stage)
      (hx : pace = .moving ∨ c.terminated = true ∧ id = .ticker) : Next d.ready id more id :=
    ⟨hd.mem_ready hid, fun hf => by rw [hm hx] at hf; cases hf⟩
  cases h with
  | ended => rcases hp with hp | hp <;> cases hp
  | crashed => rcases hp with hp | hp <;> cases hp
  | @rested s rest d w' hprog he =>
    have hd := deed_of_perform he
    subst hprog
    apply hd.coheres hc hs (fun ht hi => hnext hd (.inr ⟨ht, hi⟩))
      ((hd.placed hc hs rest).enter False.elim)
    intro m hm
    cases hm
    exact ⟨s, rest, k, rfl⟩
  | @moved s rest d w' hprog he =>
    have hd := deed_of_perform he
    have hn := hnext hd (.inl rfl)
    subst hprog
    exact hd.coheres hc hs (fun _ _ => hn) ((hd.placed hc hs rest).enter fun _ => hn) nofun
  | @followed s next rest d o hprog he =>
    have hd := deed_of_perform he
    have hn := hnext hd (.inl rfl)
    subst hprog
    exact hd.coheres hc hs (fun _ _ => hn) (.fresh hn) nofun
  | @finished s rest d o hprog he =>
    have hd := deed_of_perform he
    have hn := hnext hd (.inl rfl)
    subst hprog
    rw [record_setActivity]
    exact hd.coheres hc hs (fun _ _ => hn) (Placed.anew rest hn) nofun

theorem Pursuit.apart (h : Pursuit c id a note d pace) (hp : pace = .ended ∨ pace = .crashed)
    (hc : c.Coheres (· ∈ c.ready)) (hs : c.standing id = .busy a) :
    Apart c d id ∧ id ∉ d.mailbox.waiting ∧
      ∀ j, d.standing j = c.standing j ∨ c.standing j = .unborn ∧ d.standing j = .between := by
  obtain ⟨program, k, w⟩ := a
  cases h with
  | ended hprog =>
    have hn : id ∉ c.mailbox.granted ++ c.mailbox.waiting := by
      apply hc.not_in_line
      rw [hs]
      rintro s rest k m he
      cases he
      cases hprog
    rw [List.mem_append, not_or] at hn
    exact ⟨.quiet hc hn.1 rfl (fun _ h => h) (fun _ h => h) (fun h => h) rfl, hn.2, fun _ => .inl rfl⟩
  | crashed hprog he =>
    have hd := deed_of_perform he
    subst hprog
    refine ⟨hd.apart hc hs, fun hi => ?_, hd.standing_eq⟩
    obtain ⟨m, hm⟩ := hd.lined hc hs hi
    cases hm
  | _ => rcases hp with hp | hp <;> cases hp

/-! A producer. -/

theorem Apart.endProducer {n : Nat} (h : Apart c d (.producer n)) (hd : Beside c d)
    (hc : c.Coheres (· ∈ c.ready)) (hw : .producer n ∉ d.mailbox.waiting)
    (hst : ∀ j, d.standing j = c.standing j ∨ c.standing j = .unborn ∧ d.standing j = .between)
    (hb : d.standing (.producer n) ≠ .unborn) :
    (d.endProducer n).Coheres (Next (d.endProducer n).ready (.producer n) false) := by
  refine h.coherent hd hc nofun nofun (fun i hi hne => ⟨mem_letGo hi, fun _ => hne⟩) ?_ ?_
    (fun hi => absurd hi hw) nofun
  · intro i hne
    rw [standing_endProducer_ne d hne]
    exact hst i
  · intro a ha
    rw [standing_endProducer hb] at ha
    cases ha

theorem ProducerTurn.coheres {n : Nat} (h : ProducerTurn c n d more)
    (hc : c.Coheres (· ∈ c.ready)) (hid : .producer n ∈ c.ready) :
    d.Coheres (Next d.ready (.producer n) more) := by
  cases h with
  | off h =>
    refine hc.retire nofun (fun h => h) fun a ha => ?_
    rw [standing_producer, h] at ha
    cases ha
  | on h hd hp =>
    exact hd.on hp hc (standing_producer.2 h) hid fun hm => hm.elim (decide_eq_true ·) nofun
  | @quit a d pace h hd hp =>
    have hs := standing_producer.2 h
    obtain ⟨ha, hw, hst⟩ := hd.apart hp hc hs
    apply ha.endProducer hd.beside hc hw hst
    intro hn
    rcases hst (.producer n) with he | ⟨he, -⟩ <;> rw [hs] at he
    · rw [hn] at he
      cases he
    · cases he

theorem apart_withdraw (hc : c.Coheres (· ∈ c.ready)) (id : TaskId) :
    Apart c (c.withdraw id) id := by
  have hready {i : TaskId} (hi : i ∈ c.ready) (hne : i ≠ id) : i ∈ (c.withdraw id).ready :=
    mem_foldl_enlist.2 (.inl ((List.mem_erase_of_ne hne).2 hi))
  have hwoken {i : TaskId} (hi : (c.mailbox.leave id).2 = some i) : i ∈ (c.withdraw id).ready :=
    mem_foldl_enlist.2 (.inr (by simp [hi]))
  have hleft := Mailbox.not_mem_leave hc.balanced (i := id)
  obtain ⟨hitems, -⟩ := c.mailbox.leave_items id
  constructor
  case balanced => exact hc.balanced.leave id
  case items => exact fun m hm => hitems.symm ▸ hm
  case woken => exact fun _ => .inl hitems
  case granted =>
    intro i hi
    have hne : i ≠ id := fun he => hleft (List.mem_append_left _ (he ▸ hi))
    refine ⟨?_, hne⟩
    rcases (Mailbox.mem_leave hne).1.1 hi with hi | hi
    · exact hready (hc.granted i hi) hne
    · exact hwoken hi
  case kept => exact fun i hi hne => (Mailbox.mem_leave hne).1.2 (.inl hi)
  case line =>
    intro i hi hne
    obtain ⟨hg, hw⟩ := @Mailbox.mem_leave _ c.mailbox _ id i hne
    apply List.mem_append.2
    rcases List.mem_append.1 hi with hi | hi
    · exact (hg.1 hi).imp_right fun hi => hw.2 (.inr hi)
    · exact .inr (hw.2 (.inl hi))
  case waiting =>
    intro i hi hne
    obtain ⟨hg, hw⟩ := @Mailbox.mem_leave _ c.mailbox _ id i hne
    exact (hw.1 hi).imp_right fun hi => ⟨hwoken hi, hg.2 (.inr hi)⟩
  case parked => exact fun i hi hne => (List.mem_erase_of_ne hne).2 hi
  case ready => exact fun i hi hne => hready hi hne
  case watch => exact fun h => h
  case reader => rfl

theorem Coheres.kill (hc : c.Coheres (· ∈ c.ready)) (n : Nat) :
    (c.kill n).Coheres (· ∈ (c.kill n).ready) := by
  unfold Console.kill
  split
  · exact hc
  · rename_i a ha
    have hleft := Mailbox.not_mem_leave hc.balanced (i := TaskId.producer n)
    have hs : (c.withdraw (.producer n)).standing (.producer n) = .busy a :=
      standing_producer.2 ha
    refine Coheres.mono ((apart_withdraw hc (.producer n)).endProducer (beside_withdraw c _) hc
      (fun hw => hleft (List.mem_append_right _ hw)) (fun _ => .inl rfl) ?_) fun _ hi => hi.1
    rw [hs]
    nofun

theorem Coheres.spawn (hc : c.Coheres (· ∈ c.ready)) (p : Program) :
    (c.spawn p).Coheres (· ∈ (c.spawn p).ready) := by
  obtain ⟨hold, hnew⟩ := c.standing_spawn p
  have hr (i : TaskId) (hi : i ∈ c.ready) : i ∈ (c.spawn p).ready := mem_enlist.2 (.inl hi)
  have hn : .producer c.producers.length ∉ c.mailbox.granted ++ c.mailbox.waiting := by
    apply hc.not_in_line
    rw [hold]
    nofun
  rw [List.mem_append, not_or] at hn
  have ha : Apart c (c.spawn p) (.producer c.producers.length) :=
    .quiet hc hn.1 rfl (fun _ h => h) hr (fun h => h) rfl
  refine ha.coherent (.same rfl rfl rfl rfl rfl) hc nofun nofun (fun i hi _ => hi) ?_ ?_
    (fun hi => absurd hi hn.2) nofun
  · exact fun i hne => .inl (standing_spawn_ne c p hne)
  · intro a ha
    rw [hnew] at ha
    cases ha
    exact .anew p (mem_enlist.2 (.inr rfl))

/-! The ticker. -/

theorem Apart.ticker {e : Console} (h : Apart c d .ticker) (hd : Beside c d)
    (hc : c.Coheres (· ∈ c.ready)) (hw : .ticker ∉ d.mailbox.waiting)
    (hst : ∀ j, d.standing j = c.standing j ∨ c.standing j = .unborn ∧ d.standing j = .between)
    (hr : ∀ i ∈ d.ready, i ≠ .ticker → here i) (hj : ∀ j, j ≠ .ticker → e.standing j = d.standing j)
    (hn : ∀ a, e.standing .ticker ≠ .busy a) :
    Coherent d.mailbox d.reader d.printer d.terminated d.parked d.keywordWatch here e.standing := by
  refine h.coherent hd hc nofun nofun hr ?_ (fun a ha => absurd ha (hn a)) (fun hi => absurd hi hw)
    fun _ _ a ha => absurd ha (hn a)
  intro i hne
  rw [hj i hne]
  exact hst i

theorem ready_recover (c : Console) (s : Supervision) (r : Option Request) :
    (c.recover s r).pause.ready = c.ready := by
  cases r <;> rfl

theorem coheres_recover {s : Supervision} {r : Option Request} :
    (c.recover s r).pause.Coheres here ↔ Coherent c.mailbox c.reader c.printer c.terminated c.parked
      c.keywordWatch here (c.recover s r).pause.standing := by
  cases r <;> rfl

theorem CallTurn.coheres {s : Supervision} {request : Option Request} {more' : Bool}
    (h : CallTurn c s request a d more) (hc : c.Coheres (· ∈ c.ready))
    (hs : c.standing .ticker = .busy a) (hid : .ticker ∈ c.ready)
    (hm : more = true ∨ c.terminated = true → more' = true) :
    d.Coheres (Next d.ready .ticker more') := by
  cases h with
  | on hd hp =>
    exact hd.on hp hc hs hid fun hx => hm (hx.imp (decide_eq_true ·) And.left)
  | ended hd =>
    obtain ⟨ha, hw, hst⟩ := hd.apart (.inl rfl) hc hs
    exact ha.ticker hd.beside hc hw hst (fun i hi hne => ⟨hi, fun _ => hne⟩)
      (fun j hj => standing_pause_ne _ hj) (not_busy_of_ticker rfl)
  | @crashed d hd =>
    obtain ⟨ha, hw, hst⟩ := hd.apart (.inr rfl) hc hs
    rw [coheres_recover, ready_recover]
    exact ha.ticker hd.beside hc hw hst (fun i hi hne => ⟨hi, fun _ => hne⟩)
      (fun j hj => (standing_pause_ne _ hj).trans (standing_recover _ s request j))
      (not_busy_of_ticker rfl)

theorem Coheres.off_line (hc : c.Coheres here) (hs : ∀ a, c.standing id ≠ .busy a) :
    id ∉ c.mailbox.granted ∧ id ∉ c.mailbox.waiting := by
  have hn := hc.not_in_line fun s rest k m => hs ⟨s :: rest, k, .room m⟩
  rwa [List.mem_append, not_or] at hn

theorem Coheres.beginCall (hc : c.Coheres (· ∈ c.ready)) (hid : .ticker ∈ c.ready)
    (hk : c.ticker = .checking) (s : Supervision) :
    (c.beginCall s).Coheres (Next (c.beginCall s).ready .ticker true) := by
  have hn := hc.off_line (not_busy_of_ticker (by rw [hk]; rfl))
  obtain ⟨request, supervision, ticker, journal, he⟩ := c.beginCall_eq s
  have hst := standing_beginCall c s
  have hst' (j : TaskId) (hj : j ≠ .ticker) := standing_beginCall_ne c s hj
  rw [he] at hst hst' ⊢
  have ha : Apart c { c with request, supervision, ticker, journal } .ticker :=
    .quiet hc hn.1 rfl (fun _ h => h) (fun _ h => h) (fun h => h) rfl
  refine ha.coherent (.same rfl rfl rfl rfl rfl) hc nofun nofun (fun i hi hne => ⟨hi, fun _ => hne⟩)
    (fun i hne => .inl (hst' i hne)) ?_ (fun hi => absurd hi hn.2) fun _ _ _ _ => ⟨hid, nofun⟩
  intro a ha
  rw [hst] at ha
  cases ha
  exact .anew _ ⟨hid, nofun⟩

theorem Coheres.due {deadline : Nat} (hc : c.Coheres (· ∈ c.ready))
    (hk : c.ticker = .sleeping deadline) :
    Coheres { c with ticker := .checking } (Next c.ready .ticker true) := by
  have hn := hc.off_line (not_busy_of_ticker (by rw [hk]; rfl))
  have ha : Apart c c .ticker :=
    .quiet hc hn.1 rfl (fun _ h => h) (fun _ h => h) (fun h => h) rfl
  refine ha.ticker (.same rfl rfl rfl rfl rfl) hc hn.2 (fun _ => .inl rfl)
    (fun i hi hne => ⟨hi, nofun⟩)
    ?_ (not_busy_of_ticker rfl)
  intro j hj
  cases j with
  | ticker => exact absurd rfl hj
  | _ => rfl

theorem TickerTurn.coheres (h : TickerTurn c d more) (hc : c.Coheres (· ∈ c.ready))
    (hid : .ticker ∈ c.ready) : d.Coheres (Next d.ready .ticker more) := by
  cases h with
  | off h =>
    refine hc.retire nofun (fun h => h) fun a ha => ?_
    rcases h with h | h
    · rw [standing_unsupervised h] at ha
      cases ha
    · exact not_busy_of_ticker (by rw [h]; rfl) a ha
  | @stop s =>
    have hleft := Mailbox.not_mem_leave hc.balanced (i := TaskId.ticker)
    refine (apart_withdraw hc .ticker).ticker (beside_withdraw c _) hc
      (fun hw => hleft (List.mem_append_right _ hw)) (fun _ => .inl rfl)
      (fun i hi hne => ⟨mem_letGo hi, fun _ => hne⟩) (fun j hj => standing_stopTicker_ne c s hj) ?_
    intro a ha
    rw [standing_stopTicker] at ha
    split at ha <;> cases ha
  | call _ hk => exact hc.beginCall hid hk _
  | on hs hk ht hd hp =>
    exact (CallTurn.on hd hp).coheres hc (standing_calling hs hk) hid fun hm =>
      hm.elim (fun hm => hm) fun hm => by rw [ht] at hm; cases hm
  | ended hs hk _ hd =>
    exact (CallTurn.ended hd).coheres hc (standing_calling hs hk) hid fun _ => rfl
  | crashed hs hk _ hd =>
    exact (CallTurn.crashed hd).coheres hc (standing_calling hs hk) hid fun _ => rfl
  | due hk => exact hc.due hk
  | asleep hk => exact hc.retire nofun (fun h => h) (not_busy_of_ticker (by rw [hk]; rfl))

end JobConsole.Console
