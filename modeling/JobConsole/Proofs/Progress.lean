import JobConsole.Proofs.Standing
import JobConsole.Proofs.Ties

namespace JobConsole

inductive Resumes (a : Activity) (s : Statement) (rest : Program) :
    Console.Stage → Activity → Prop
  | blocked (w : Wait) : Resumes a s rest (.blocked w) { a with wait := w }
  | moving (w : Wait) : Resumes a s rest (.moving w) { a with wait := w }
  | followed {o : Outcome} {next : Statement} (hf : s.followUp o = some next) :
      Resumes a s rest (.finished o) { a with program := next :: rest, wait := .fresh }
  | finished (o : Outcome) : Resumes a s rest (.finished o) { program := rest, index := a.index + 1 }

namespace Console

inductive Progress (c : Console) (id : TaskId) : Standing → Standing → Prop
  | told {x y : Standing} (h : Told x y) : Progress c id x y
  | on {a b : Activity} {s : Statement} {rest : Program} {d : Console} {stage : Stage}
      (hp : a.program = s :: rest) (hd : Deed c id s a.wait d stage)
      (hb : Resumes a s rest stage b) : Progress c id (.busy a) (.busy b)
  /-- A call is over. -/
  | rested (a : Activity) : Progress c id (.busy a) .between

variable {c d e : Console} {id : TaskId} {a b : Activity} {s : Statement} {rest : Program}
  {stage : Stage} {note : Outcome → Event} {pace : Pace} {more : Bool}

theorem Leaves.progress (h : Leaves c d) (j : TaskId) :
    Progress e j (c.standing j) (d.standing j) :=
  .told (h j)

theorem Deed.progress (h : Deed c id s a.wait d stage) (hb : c.standing id = .busy a)
    (hp : a.program = s :: rest) (hr : Resumes a s rest stage b)
    (he : ∀ j, e.standing j = d.standing j) (j : TaskId) :
    Progress c j (c.standing j) ((e.setActivity id b).standing j) := by
  rw [standing_setActivity ((he id).trans (h.standing_self hb))]
  split
  · rename_i hj
    rw [hj, hb]
    exact .on hp h hr
  · rw [he]
    exact (leaves_of_standing_eq h.standing_eq).progress j

theorem Pursuit.progress (h : Pursuit c id a note d pace) (hb : c.standing id = .busy a)
    (hp : pace = .resting ∨ pace = .moving) (j : TaskId) :
    Progress c j (c.standing j) (d.standing j) := by
  cases h with
  | ended => rcases hp with hp | hp <;> cases hp
  | crashed => rcases hp with hp | hp <;> cases hp
  | rested hs he => exact (deed_of_perform he).progress hb hs (.blocked _) (fun _ => rfl) j
  | moved hs he => exact (deed_of_perform he).progress hb hs (.moving _) (fun _ => rfl) j
  | followed hs he hf => exact (deed_of_perform he).progress hb hs (.followed hf) (fun _ => rfl) j
  | @finished _ _ d o hs he =>
    exact (deed_of_perform he).progress (e := d.record (note o)) hb hs (.finished o)
      (fun _ => rfl) j

theorem Pursuit.leaves (h : Pursuit c id a note d pace) (hp : pace = .ended ∨ pace = .crashed) :
    Leaves c d := by
  cases h with
  | ended => exact .same rfl rfl rfl
  | crashed hs he => exact leaves_of_standing_eq (deed_of_perform he).standing_eq
  | _ => rcases hp with hp | hp <;> cases hp

theorem ProducerTurn.progress {n : Nat} (h : ProducerTurn c n d more) (j : TaskId) :
    Progress c j (c.standing j) (d.standing j) := by
  cases h with
  | off => exact .told (.same _)
  | on ha hd hp => exact hd.progress (standing_producer.2 ha) hp j
  | quit ha hd hp => exact ((hd.leaves hp).trans (leaves_endProducer _ n)).progress j

theorem progress_pause (hb : c.standing .ticker = .busy a) (hl : Leaves c d) (j : TaskId) :
    Progress c j (c.standing j) (d.pause.standing j) := by
  by_cases hj : j = .ticker
  · subst hj
    have hn : d.standing .ticker ≠ .unborn := by
      intro hu
      have ht := hl .ticker
      rw [hb, hu] at ht
      cases ht
    rw [hb, standing_pause hn]
    exact .rested a
  · rw [standing_pause_ne d hj]
    exact hl.progress j

theorem CallTurn.progress {s : Supervision} {request : Option Request}
    (h : CallTurn c s request a d more) (hb : c.standing .ticker = .busy a) (j : TaskId) :
    Progress c j (c.standing j) (d.standing j) := by
  cases h with
  | on hd hp => exact hd.progress hb hp j
  | ended hd =>
    apply progress_pause hb
    exact (hd.leaves (.inl rfl)).trans (.same rfl rfl rfl)
  | @crashed d hd =>
    apply progress_pause hb
    refine (hd.leaves (.inr rfl)).trans (.of_eq fun j => ?_)
    exact standing_recover (d.record (.call s.job request (s.tally.number request) .crashed)) s
      request j

theorem standing_due {deadline : Nat} (hk : c.ticker = .sleeping deadline) (j : TaskId) :
    standing { c with ticker := .checking } j = c.standing j := by
  cases j with
  | ticker => cases hs : c.supervision <;> simp [standing, hk, hs]
  | _ => rfl

theorem leaves_due {deadline : Nat} (hk : c.ticker = .sleeping deadline) :
    Leaves c { c with ticker := .checking } :=
  .of_eq (standing_due hk)

theorem TickerTurn.leaves_idle (h : TickerTurn c d more)
    (hn : ∀ s request a, TaskId.ticker = .ticker → c.supervision = some s →
      c.ticker ≠ .calling request a) : Leaves c d := by
  cases h with
  | off => exact .same rfl rfl rfl
  | stop => exact leaves_stopTicker c _
  | call hs hk => exact leaves_beginCall hs hk
  | on hs hk => exact absurd hk (hn _ _ _ rfl hs)
  | ended hs hk => exact absurd hk (hn _ _ _ rfl hs)
  | crashed hs hk => exact absurd hk (hn _ _ _ rfl hs)
  | due hk => exact leaves_due hk
  | asleep => exact .same rfl rfl rfl

theorem TickerTurn.progress (h : TickerTurn c d more) (j : TaskId) :
    Progress c j (c.standing j) (d.standing j) := by
  cases h with
  | off => exact .told (.same _)
  | stop => exact (leaves_stopTicker c _).progress j
  | call hs hk => exact (leaves_beginCall hs hk).progress j
  | on hs hk _ hd hp => exact hd.progress (standing_calling hs hk) hp j
  | ended hs hk _ hd => exact (CallTurn.ended hd).progress (standing_calling hs hk) j
  | crashed hs hk _ hd => exact (CallTurn.crashed hd).progress (standing_calling hs hk) j
  | due hk => exact (leaves_due hk).progress j
  | asleep => exact .told (.same _)

theorem turn_progress (c : Console) (id j : TaskId) :
    Progress c j (c.standing j) ((c.turn id).1.standing j) := by
  cases id with
  | printer => exact (printerTurn_cases c).leaves.progress j
  | signalWatch => exact (signalWatchTurn_cases c).leaves.progress j
  | keywordWatch => exact (keywordWatchTurn_cases c).leaves.progress j
  | ticker => exact (tickerTurn_cases c).progress j
  | producer n => exact (producerTurn_cases c n).progress j

theorem work_progress (c : Console) (hi : id ∈ watchers) (j : TaskId) :
    Progress c j (c.standing j) ((c.work id).standing j) := by
  rcases c.work_cases id with ⟨s, request, a, -, hs, hk, he⟩ | ⟨hn, he⟩ <;> rw [he]
  · exact (callTurn_cases c s request a).progress (standing_calling hs hk) j
  · have hl : Leaves c (turn { c with terminated := false } id).1 := by
      cases id with
      | printer => exact absurd rfl (not_printer_of_watchers hi)
      | signalWatch => exact (signalWatchTurn_cases { c with terminated := false }).leaves
      | keywordWatch => exact (keywordWatchTurn_cases { c with terminated := false }).leaves
      | ticker => exact (tickerTurn_cases { c with terminated := false }).leaves_idle hn
      | producer n => simp [watchers] at hi
    exact hl.progress j

theorem act_progress (c : Console) (m : Move) (j : TaskId) :
    Progress c j (c.standing j) ((c.act m).standing j) := by
  cases m with
  | step id =>
    have ht := c.turn_progress id j
    obtain ⟨ready, he⟩ := c.turn_eq_step id
    rw [act, he]
    exact ht
  | spawn p => exact (leaves_spawn c p).progress j
  | kill n =>
    have hl : Leaves c (c.kill n) := by
      unfold kill
      split
      · exact .same rfl rfl rfl
      · exact .trans (.same rfl rfl rfl) (leaves_endProducer (c.withdraw (.producer n)) n)
    exact hl.progress j
  | raise s =>
    have hl : Leaves c (c.raise s) := by
      unfold raise
      split <;> exact .same rfl rfl rfl
    exact hl.progress j
  | start k interactive =>
    exact (leaves_of_standing_eq (c.supervise_cases k interactive).standing_eq).progress j
  | _ => exact .told (.same _)

theorem Attainable.standing_invariant {P : TaskId → Standing → Prop} (h : c.Attainable)
    (unborn : ∀ id, P id .unborn) (gone : ∀ id, P id .gone)
    (keep : ∀ c id x y, Progress c id x y → P id x → P id y) (id : TaskId) :
    P id (c.standing id) := by
  apply h.invariant (P := fun c => ∀ id, P id (c.standing id))
  · intro settings jobs source sink c₀ h₀ id
    obtain ⟨-, rfl⟩ := new?_eq_some.1 h₀
    cases id with
    | producer n => exact unborn _
    | ticker => exact unborn _
    | _ => exact gone _
  · exact fun c m _ _ hc id => keep c id _ _ (c.act_progress m id) (hc id)
  · exact fun c i _ hi _ _ hc id => keep c id _ _ (c.work_progress hi id) (hc id)

end Console

end JobConsole
