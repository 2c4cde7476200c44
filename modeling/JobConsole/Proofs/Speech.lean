import JobConsole.Proofs.Finality
import JobConsole.Proofs.Progress

namespace JobConsole

def Event.posted? : Event → Option (TaskId × Message)
  | accepted id m => some (id, m)
  | _ => none

namespace Console

variable {c d e : Console} {id : TaskId} {a b : Activity} {s : Statement} {rest : Program}
  {stage : Stage} {note : Outcome → Event} {pace : Pace} {more : Bool} {n : Nat} {m : Move}

def posted (c : Console) : List (TaskId × Message) :=
  c.events.filterMap Event.posted?

theorem accepted_eq (c : Console) : c.accepted = c.posted.map Prod.snd := by
  rw [accepted, posted, List.map_filterMap]
  apply List.filterMap_congr
  intro e _
  cases e <;> rfl

theorem Adds.posted (h : Adds (fun e => e.posted?.isNone) c d) : d.posted = c.posted := by
  obtain ⟨news, he, hn⟩ := h
  have hf : news.filterMap Event.posted? = [] :=
    List.filterMap_eq_nil_iff.2 fun e he => Option.isNone_iff_eq_none.1 (hn e he)
  rw [Console.posted, he, List.filterMap_append, hf, List.append_nil, Console.posted]

/-! The numbers of reply slots. -/

/-- The reply slot of a prompt that a statement is about to send for the first time. -/
def slotFor (c : Console) (id : TaskId) (s : Statement) : Wait → Option ReplySlot
  | .fresh => (s.message? ⟨c.slots, id⟩).bind Message.slot?
  | _ => none

theorem slots_send (c : Console) (id : TaskId) (m : Message) : (c.send id m).1.slots = c.slots := by
  unfold send
  split
  · rfl
  · split <;> rfl

theorem slots_supervise (c : Console) (k : Nat) (interactive : Bool) :
    (c.supervise k interactive).1.slots = c.slots := by
  have hs := c.supervise_cases k interactive
  generalize (c.supervise k interactive).1 = d, (c.supervise k interactive).2 = first at hs ⊢
  cases hs <;> rfl

theorem slots_await (c : Console) (id : TaskId) (w : Wait) (o : Outcome) :
    (c.awaitTermination id w o).1.slots = c.slots := by
  unfold awaitTermination park
  split
  · rfl
  · split <;> rfl

theorem slots_perform (c : Console) (id : TaskId) (s : Statement) (w : Wait) :
    (c.perform id s w).1.slots = c.slots + (c.slotFor id s w).toList.length := by
  cases w with
  | fresh =>
    cases s with
    | progress text => exact c.slots_send id _
    | info text => exact c.slots_send id _
    | exit text code => exact c.slots_send id _
    | prompt text => exact slots_send _ id _
    | ask text => exact slots_send _ id _
    | confirm question refusal code => exact slots_send _ id _
    | start k interactive => exact c.slots_supervise k interactive
    | sleep n =>
      simp only [perform, begin, sleep]
      split <;> rfl
    | _ => rfl
  | room m =>
    simp only [perform, resend]
    split
    · rfl
    · split <;> rfl
  | hungUp => exact c.slots_await id _ _
  | termination => exact c.slots_await id _ _
  | alarm deadline =>
    simp only [perform]
    split <;> rfl
  | _ => rfl

theorem Supervised.posted_eq {k : Nat} {interactive first : Bool}
    (h : Supervised c k interactive d first) : d.posted = c.posted := by
  refine (h.adds.mono fun e he => ?_).posted
  cases e <;> first | rfl | cases he

/-! Turns. -/

/-- Nothing is accepted, and an activity that goes on stays as it was. -/
structure Mute (c d : Console) : Prop where
  slots : d.slots = c.slots
  posted : d.posted = c.posted
  standing : ∀ j a, d.standing j = .busy a → c.standing j = .busy a ∨ a.wait = .fresh

inductive Speaks (c d : Console) (id : TaskId) : Prop
  | mute (h : Mute c d)
  | deed {a b : Activity} {s : Statement} {rest : Program} {e : Console} {stage : Stage}
      (ha : c.standing id = .busy a) (hp : a.program = s :: rest)
      (he : c.perform id s a.wait = (e, stage)) (hr : Resumes a s rest stage b)
      (hs : d.slots = e.slots) (hm : d.posted = e.posted)
      (hd : ∀ j, d.standing j = if j = id then .busy b else e.standing j)

theorem Mute.refl (c : Console) : Mute c c :=
  ⟨rfl, rfl, fun _ _ => .inl⟩

theorem Mute.trans (h : Mute c d) (g : Mute d e) : Mute c e := by
  refine ⟨g.slots.trans h.slots, g.posted.trans h.posted, fun j a hj => ?_⟩
  rcases g.standing j a hj with hd | hf
  · exact h.standing j a hd
  · exact .inr hf

theorem Mute.same (hs : d.slots = c.slots) (hm : d.posted = c.posted)
    (hj : ∀ j, d.standing j = c.standing j) : Mute c d :=
  ⟨hs, hm, fun j _ ha => .inl ((hj j).symm.trans ha)⟩

theorem Deed.crashed_eq (h : Deed c id s a.wait d .crashed) : d = c := by
  generalize hst : Stage.crashed = stage at h
  cases h with
  | still => rfl
  | @accept m | @refuse m => cases m <;> cases hst
  | _ => cases hst

theorem mute_endProducer (c : Console) (n : Nat) : Mute c (c.endProducer n) := by
  refine ⟨rfl, rfl, fun j a hj => .inl ?_⟩
  by_cases he : j = .producer n
  · subst he
    have ht := leaves_endProducer c n (.producer n)
    by_cases hu : c.standing (.producer n) = .unborn
    · have hl : c.producers.length ≤ n := by
        by_contra hn
        have hg : c.producers[n]? = some c.producers[n] := List.getElem?_eq_getElem (by omega)
        simp only [Console.standing, hg] at hu
        cases hc : c.producers[n] <;> simp [hc] at hu
      have hset : c.producers.set n none = c.producers := List.set_eq_of_length_le hl
      rw [← hj]
      simp only [Console.standing, endProducer, letGo, hset]
    · rw [standing_endProducer hu] at hj
      cases hj
  · rwa [standing_endProducer_ne c he] at hj

theorem Speaks.later (h : Speaks c d id) (g : Mute d e)
    (hg : ∀ j, e.standing j = d.standing j) : Speaks c e id := by
  cases h with
  | mute h => exact .mute (h.trans g)
  | deed ha hp he hr hs hm hd =>
    exact .deed ha hp he hr (g.slots.trans hs) (g.posted.trans hm) fun j => (hg j).trans (hd j)

theorem Pursuit.speaks (h : Pursuit c id a note d pace) (hb : c.standing id = .busy a)
    (hp : pace = .resting ∨ pace = .moving) (hn : ∀ o, (note o).posted?.isNone) :
    Speaks c d id := by
  have hon {s : Statement} {rest : Program} {stage : Stage} {d e : Console} {b : Activity}
      (hs : a.program = s :: rest) (he : c.perform id s a.wait = (d, stage))
      (hr : Resumes a s rest stage b) (hslots : e.slots = d.slots) (hm : e.posted = d.posted)
      (hj : ∀ j, e.standing j = d.standing j) : Speaks c (e.setActivity id b) id := by
    obtain ⟨producers, ticker, hf⟩ := e.setActivity_eq id b
    refine .deed hb hs he hr (by rw [hf]; exact hslots) (by rw [hf]; exact hm) fun j => ?_
    rw [standing_setActivity ((hj id).trans ((deed_of_perform he).standing_self hb)), hj]
  cases h with
  | ended => rcases hp with hp | hp <;> cases hp
  | crashed => rcases hp with hp | hp <;> cases hp
  | rested hs he => exact hon hs he (.blocked _) rfl rfl fun _ => rfl
  | moved hs he => exact hon hs he (.moving _) rfl rfl fun _ => rfl
  | followed hs he hf => exact hon hs he (.followed hf) rfl rfl fun _ => rfl
  | @finished _ _ d o hs he =>
    have hm : Adds (fun e => e.posted?.isNone) d (d.record (note o)) := .record (.same rfl) (hn o)
    exact hon (e := d.record (note o)) hs he (.finished o) rfl hm.posted fun _ => rfl

theorem Pursuit.stop_eq (h : Pursuit c id a note d pace) (hp : pace = .ended ∨ pace = .crashed) :
    d = c := by
  cases h with
  | ended => rfl
  | crashed _ he => exact (deed_of_perform he).crashed_eq
  | _ => rcases hp with hp | hp <;> cases hp

theorem ProducerTurn.speaks (h : ProducerTurn c n d more) : Speaks c d (.producer n) := by
  cases h with
  | off => exact .mute (.refl c)
  | on ha hd hp => exact hd.speaks (standing_producer.2 ha) hp fun _ => rfl
  | quit _ hd hp =>
    rw [hd.stop_eq hp]
    exact .mute (mute_endProducer c n)

theorem mute_pause (c : Console) : Mute c c.pause := by
  refine ⟨rfl, rfl, fun j a hj => .inl ?_⟩
  by_cases ht : j = .ticker
  · subst ht
    exact absurd hj (not_busy_of_ticker rfl a)
  · rwa [standing_pause_ne c ht] at hj

theorem mute_recover (c : Console) (s : Supervision) (r : Option Request) :
    Mute c (c.recover s r).pause := by
  have ha : (c.recover s r).posted = c.posted := by
    refine ((adds_recover c s r).mono fun e he => ?_).posted
    cases e <;> first | rfl | cases he
  have hr : Mute c (c.recover s r) :=
    .same (by cases r <;> rfl) ha (standing_recover c s r)
  exact hr.trans (mute_pause _)

theorem mute_record (c : Console) {x : Event} (hx : x.posted?.isNone) : Mute c (c.record x) := by
  have ha : Adds (fun e => e.posted?.isNone) c (c.record x) := .record (.same rfl) hx
  exact .same rfl ha.posted fun _ => rfl

theorem CallTurn.speaks {s : Supervision} {request : Option Request}
    (h : CallTurn c s request a d more) (hb : c.standing .ticker = .busy a) :
    Speaks c d .ticker := by
  cases h with
  | on hd hp => exact hd.speaks hb hp fun _ => rfl
  | ended hd =>
    rw [hd.stop_eq (.inl rfl)]
    exact .mute ((mute_record c rfl).trans (mute_pause _))
  | crashed hd =>
    rw [hd.stop_eq (.inr rfl)]
    exact .mute ((mute_record c rfl).trans (mute_recover _ s request))

theorem mute_beginCall (c : Console) (s : Supervision) : Mute c (c.beginCall s) := by
  have ha : (c.beginCall s).posted = c.posted := by
    refine ((adds_beginCall c s).mono fun e he => ?_).posted
    cases e <;> first | rfl | cases he
  refine ⟨?_, ha, fun j a hj => ?_⟩
  · obtain ⟨request, supervision, ticker, journal, he⟩ := c.beginCall_eq s
    rw [he]
  · by_cases ht : j = .ticker
    · subst ht
      rw [standing_beginCall] at hj
      cases hj
      exact .inr rfl
    · rw [standing_beginCall_ne c s ht] at hj
      exact .inl hj

theorem mute_stopTicker (c : Console) (s : Supervision) : Mute c (c.stopTicker s) := by
  refine ⟨rfl, ?_, fun j a hj => .inl ?_⟩
  · exact (mute_record (c.withdraw .ticker) (x := .logged (.stopped (c.job s.job).name)) rfl).posted
  · by_cases ht : j = .ticker
    · subst ht
      rw [standing_stopTicker] at hj
      split at hj <;> cases hj
    · rwa [standing_stopTicker_ne c s ht] at hj

theorem mute_due {deadline : Nat} (hk : c.ticker = .sleeping deadline) :
    Mute c { c with ticker := .checking } :=
  .same rfl rfl (standing_due hk)

theorem TickerTurn.mute_idle (h : TickerTurn c d more)
    (hn : ∀ s request a, TaskId.ticker = .ticker → c.supervision = some s →
      c.ticker ≠ .calling request a) : Mute c d := by
  cases h with
  | off => exact .refl c
  | stop => exact mute_stopTicker c _
  | call => exact mute_beginCall c _
  | on hs hk => exact absurd hk (hn _ _ _ rfl hs)
  | ended hs hk => exact absurd hk (hn _ _ _ rfl hs)
  | crashed hs hk => exact absurd hk (hn _ _ _ rfl hs)
  | due hk => exact mute_due hk
  | asleep => exact .refl c

theorem TickerTurn.speaks (h : TickerTurn c d more) : Speaks c d .ticker := by
  cases h with
  | off => exact .mute (.refl c)
  | stop => exact .mute (mute_stopTicker c _)
  | call => exact .mute (mute_beginCall c _)
  | on hs hk _ hd hp => exact (CallTurn.on hd hp).speaks (standing_calling hs hk)
  | ended hs hk _ hd => exact (CallTurn.ended hd).speaks (standing_calling hs hk)
  | crashed hs hk _ hd => exact (CallTurn.crashed hd).speaks (standing_calling hs hk)
  | due hk => exact .mute (mute_due hk)
  | asleep => exact .mute (.refl c)

theorem SignalWatchTurn.mute (h : SignalWatchTurn c d more) : Mute c d := by
  have ha : d.posted = c.posted := by
    refine (h.adds.mono fun e he => ?_).posted
    cases e <;> first | rfl | cases he
  obtain ⟨request, signalWatch, journal, he⟩ := h.frame
  subst he
  exact .same rfl ha fun _ => rfl

theorem KeywordWatchTurn.mute (h : KeywordWatchTurn c d more) : Mute c d := by
  have ha : d.posted = c.posted := by
    refine (h.adds.mono fun e he => ?_).posted
    cases e <;> first | rfl | cases he
  obtain ⟨reader, ready, request, keywordWatch, journal, he⟩ := h.frame
  subst he
  exact .same rfl ha fun _ => rfl

theorem turn_speaks (c : Console) (hp : id ≠ .printer) : Speaks c (c.turn id).1 id := by
  cases id with
  | printer => exact absurd rfl hp
  | signalWatch => exact .mute (signalWatchTurn_cases c).mute
  | keywordWatch => exact .mute (keywordWatchTurn_cases c).mute
  | ticker => exact (tickerTurn_cases c).speaks
  | producer n => exact (producerTurn_cases c n).speaks

theorem work_speaks (c : Console) (hi : id ∈ watchers) : Speaks c (c.work id) id := by
  rcases c.work_cases id with ⟨s, request, a, rfl, hs, hk, he⟩ | ⟨hn, he⟩ <;> rw [he]
  · exact (callTurn_cases c s request a).speaks (standing_calling hs hk)
  · have hopen : Mute c { c with terminated := false } := .same rfl rfl fun _ => rfl
    have hm : Mute { c with terminated := false } (turn { c with terminated := false } id).1 := by
      cases id with
      | printer => exact absurd rfl (not_printer_of_watchers hi)
      | signalWatch => exact (signalWatchTurn_cases _).mute
      | keywordWatch => exact (keywordWatchTurn_cases _).mute
      | ticker => exact (tickerTurn_cases _).mute_idle hn
      | producer n => simp [watchers] at hi
    exact .mute ((hopen.trans hm).trans (.same rfl rfl fun _ => rfl))

theorem act_speaks (c : Console) (m : Move) (hm : m ≠ .step .printer) :
    ∃ id, Speaks c (c.act m) id := by
  cases m with
  | step id =>
    have ht : Speaks c (c.turn id).1 id := c.turn_speaks fun hid => hm (by rw [hid])
    obtain ⟨ready, he⟩ := c.turn_eq_step id
    rw [act, he]
    exact ⟨id, ht.later (.same rfl rfl fun _ => rfl) fun _ => rfl⟩
  | spawn p =>
    refine ⟨.printer, .mute ⟨rfl, rfl, fun j a hj => ?_⟩⟩
    by_cases he : j = .producer c.producers.length
    · subst he
      rw [act, (standing_spawn c p).2] at hj
      cases hj
      exact .inr rfl
    · rw [act, standing_spawn_ne c p he] at hj
      exact .inl hj
  | kill n =>
    refine ⟨.printer, .mute ?_⟩
    rw [act, kill]
    split
    · exact .refl c
    · have hw : Mute c (c.withdraw (.producer n)) := .same rfl rfl fun _ => rfl
      exact hw.trans (mute_endProducer _ n)
  | raise s =>
    refine ⟨.printer, .mute ?_⟩
    rw [act, raise]
    split
    · exact .same rfl rfl fun _ => rfl
    · exact .refl c
  | setSink s =>
    have ha : Adds (fun e => e.posted?.isNone) c (c.setSink s) :=
      .record (x := .sinkChanged s) (.same rfl) rfl
    exact ⟨.printer, .mute (.same rfl ha.posted fun _ => rfl)⟩
  | start k interactive =>
    have hs := c.supervise_cases k interactive
    have hm : Mute c (c.supervise k interactive).1 := by
      refine ⟨c.slots_supervise k interactive, hs.posted_eq, fun j a hj => .inl ?_⟩
      rcases hs.standing_eq j with he | ⟨-, he⟩
      · rwa [he] at hj
      · rw [he] at hj
        cases hj
    exact ⟨.printer, .mute (hm.trans (mute_record _ rfl))⟩
  | _ => exact ⟨.printer, .mute (.same rfl rfl fun _ => rfl)⟩

end Console

end JobConsole
