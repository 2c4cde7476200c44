import JobConsole.Proofs.Chronicle
import JobConsole.Proofs.Staffing

namespace JobConsole

structure Attempt where
  job : Nat
  interactive : Bool
  deriving DecidableEq

def Activity.attempt? (a : Activity) : Option Attempt :=
  match a.program, a.wait with
  | .start k interactive :: _, .fresh => some ⟨k, interactive⟩
  | _, _ => none

def Outcome.started? : Outcome → Option Bool
  | started first => some first
  | _ => none

def Event.started? : Event → Option Bool
  | finished _ _ o | call _ _ _ (.finished o) => o.started?
  | hostStarted _ first => some first
  | _ => none

theorem Event.started?_of_isDeeds {id : TaskId} {e : Event} (h : e.isDeeds id) :
    e.started?.isNone := by
  cases e <;> first | rfl | cases h

namespace Console

variable {c d e : Console} {id : TaskId} {a : Activity} {s : Statement} {w : Wait} {stage : Stage}
  {note : Outcome → Event} {pace : Pace} {more : Bool} {x : Option Attempt}

def attempt? (c : Console) : Move → Option Attempt
  | .start k interactive => some ⟨k, interactive⟩
  | .step id => (c.current? id).bind Activity.attempt?
  | _ => none

def starts (c : Console) : List Bool :=
  c.events.filterMap Event.started?

def charge (c : Console) : Option Nat :=
  c.supervision.map Supervision.job

/-- What becomes of the supervision when an attempt is made, or none. -/
structure Hires (c d : Console) (x : Option Attempt) : Prop where
  charge : d.charge = c.charge.or (x.map Attempt.job)
  serves : ∀ i, d.Serves i → c.Serves i ∨ c.charge = none ∧
    ∃ k interactive, x = some ⟨k, interactive⟩ ∧ (i = .keywordWatch → interactive = false)
  told : d.starts = c.starts ++ (x.map fun _ => c.charge.isNone).toList

theorem supervision_of_charge (h : c.charge ≠ none) : ∃ s, c.supervision = some s :=
  Option.ne_none_iff_exists'.1 fun hn => h (congrArg (Option.map Supervision.job) hn)

theorem Adds.starts (h : Adds (fun e => e.started?.isNone) c d) : d.starts = c.starts := by
  obtain ⟨news, he, hn⟩ := h
  have hf : news.filterMap Event.started? = [] :=
    List.filterMap_eq_nil_iff.2 fun e he => Option.isNone_iff_eq_none.1 (hn e he)
  rw [Console.starts, he, List.filterMap_append, hf, List.append_nil, Console.starts]

theorem starts_record (c : Console) (e : Event) :
    (c.record e).starts = c.starts ++ e.started?.toList := by
  rw [starts, events_record, List.filterMap_append, starts]
  cases he : e.started? <;> simp [he]

theorem Hires.quiet (hj : d.charge = c.charge) (hs : ∀ i, d.Serves i → c.Serves i)
    (ht : d.starts = c.starts) : Hires c d none :=
  ⟨by simp [hj], fun i hi => .inl (hs i hi), by simp [ht]⟩

theorem Hires.refl (c : Console) : Hires c c none :=
  .quiet rfl (fun _ h => h) rfl

theorem Hires.same (hs : d.signalWatch = c.signalWatch) (hk : d.keywordWatch = c.keywordWatch)
    (ht : d.ticker.isAlive = c.ticker.isAlive) (hv : d.supervision = c.supervision)
    (hd : d.starts = c.starts) : Hires c d none :=
  .quiet (congrArg (Option.map Supervision.job) hv) (fun _ => serves_congr hs hk ht) hd

theorem Hires.trans (h : Hires c d x) (g : Hires d e none) : Hires c e x := by
  refine ⟨?_, fun i hi => ?_, ?_⟩
  · rw [g.charge, h.charge]
    simp
  · exact (g.serves i hi).elim (h.serves i) fun ⟨_, _, _, hx, _⟩ => nomatch hx
  · rw [g.told, h.told]
    simp

/-! Small steps of statements. -/

theorem Deed.aloof (h : Deed c id s w d stage)
    (hn : ∀ k interactive, s = .start k interactive → w ≠ .fresh) :
    (∃ mailbox ready slots timers parked journal, d =
      { c with mailbox, ready, slots, timers, parked, journal }) ∧
        ∀ o, stage = .finished o → o.started? = none := by
  cases h with
  | still h =>
    refine ⟨⟨_, _, _, _, _, _, rfl⟩, ?_⟩
    rintro o rfl
    cases h <;> rfl
  | @accept m | @refuse m =>
    refine ⟨⟨_, _, _, _, _, _, rfl⟩, fun o ho => ?_⟩
    cases m <;> cases ho <;> rfl
  | park =>
    refine ⟨?_, nofun⟩
    unfold Console.park
    split <;> exact ⟨_, _, _, _, _, _, rfl⟩
  | supervise hw hs => exact absurd hw (hn _ _ hs)
  | join | sleep => exact ⟨⟨_, _, _, _, _, _, rfl⟩, nofun⟩

theorem Deed.starts_eq (h : Deed c id s w d stage) : d.starts = c.starts :=
  (h.adds.mono fun _ => Event.started?_of_isDeeds).starts

theorem Deed.hires_none (h : Deed c id s w d stage)
    (hn : ∀ k interactive, s = .start k interactive → w ≠ .fresh) : Hires c d none := by
  have hs := h.starts_eq
  obtain ⟨_, _, _, _, _, _, rfl⟩ := (h.aloof hn).1
  exact .same rfl rfl rfl rfl hs

theorem Supervised.hires {k : Nat} {interactive first : Bool}
    (h : Supervised c k interactive d first) {y : Event} (hy : y.started? = some first) :
    Hires c (d.record y) (some ⟨k, interactive⟩) := by
  have hs : (d.record y).starts = c.starts ++ [first] := by
    have hd : d.starts = c.starts := by
      refine (h.adds.mono fun e he => ?_).starts
      cases e <;> first | rfl | cases he
    rw [starts_record, hd, hy, Option.toList_some]
  cases h with
  | @already s hc =>
    have hcharge : c.charge = some s.job := by rw [charge, hc]; rfl
    refine ⟨?_, fun i hi => .inl hi, ?_⟩
    · rw [hcharge]
      exact hcharge
    · rw [hs, hcharge]
      rfl
  | started hc =>
    have hcharge : c.charge = none := by rw [charge, hc]; rfl
    refine ⟨?_, fun i hi => ?_, ?_⟩
    · rw [hcharge]
      rfl
    · by_cases hk : i = .keywordWatch
      · subst hk
        have hk : (c.keywordWatch || !interactive) = true := hi
        rcases (Bool.or_eq_true _ _).mp hk with hk | hk
        · exact .inl hk
        · exact .inr ⟨hcharge, k, interactive, rfl, fun _ => by simpa using hk⟩
      · exact .inr ⟨hcharge, k, interactive, rfl, fun h => absurd h hk⟩
    · rw [hs, hcharge]
      rfl

theorem hires_setActivity (c : Console) (id : TaskId) (a : Activity) :
    Hires c (c.setActivity id a) none := by
  have ht := c.isAlive_setActivity id a
  obtain ⟨producers, ticker, he⟩ := c.setActivity_eq id a
  rw [he] at ht ⊢
  exact .same rfl rfl ht rfl rfl

theorem attempt?_eq_none {rest : Program} (hp : a.program = s :: rest)
    (hn : ∀ k interactive, s = .start k interactive → a.wait ≠ .fresh) : a.attempt? = none := by
  unfold Activity.attempt?
  split
  · rename_i hs hw
    rw [hp] at hs
    exact absurd hw (hn _ _ (List.cons.inj hs).1)
  · rfl

theorem Pursuit.hires (h : Pursuit c id a note d pace)
    (hnote : ∀ o, (note o).started? = o.started?) : Hires c d a.attempt? := by
  -- An attempt is over with the small step that makes it, so only a finished step can be one.
  have hnone {s : Statement} {rest : Program} {e : Console} {stage : Stage}
      (hp : a.program = s :: rest) (he : c.perform id s a.wait = (e, stage))
      (hs : ∀ b, stage ≠ .finished (.started b)) : a.attempt? = none ∧ Hires c e none := by
    have hn (k : Nat) (interactive : Bool) (hk : s = .start k interactive) : a.wait ≠ .fresh := by
      intro hw
      rw [hk, hw] at he
      exact hs _ (Prod.mk.inj he).2.symm
    exact ⟨attempt?_eq_none hp hn, (deed_of_perform he).hires_none hn⟩
  cases h with
  | ended hp =>
    have ha : a.attempt? = none := by simp [Activity.attempt?, hp]
    rw [ha]
    exact .refl c
  | rested hp he =>
    obtain ⟨ha, hd⟩ := hnone hp he nofun
    rw [ha]
    exact hd.trans (hires_setActivity _ _ _)
  | moved hp he =>
    obtain ⟨ha, hd⟩ := hnone hp he nofun
    rw [ha]
    exact hd.trans (hires_setActivity _ _ _)
  | crashed hp he =>
    obtain ⟨ha, hd⟩ := hnone hp he nofun
    rw [ha]
    exact hd
  | @followed s _ _ d o hp he hf =>
    obtain ⟨ha, hd⟩ := hnone hp he fun b hb => by cases hb; cases s <;> cases hf
    rw [ha]
    exact hd.trans (hires_setActivity _ _ _)
  | @finished s rest d o hp he =>
    refine Hires.trans ?_ (hires_setActivity _ _ _)
    by_cases hs : ∃ k interactive, s = .start k interactive ∧ a.wait = .fresh
    · obtain ⟨k, interactive, rfl, hw⟩ := hs
      have ha : a.attempt? = some ⟨k, interactive⟩ := by simp [Activity.attempt?, hp, hw]
      rw [hw] at he
      obtain ⟨rfl, ho⟩ := Prod.mk.inj he
      cases ho
      rw [ha]
      exact (c.supervise_cases k interactive).hires (hnote _)
    · have hn (k : Nat) (interactive : Bool) (hk : s = .start k interactive) : a.wait ≠ .fresh :=
        fun hw => hs ⟨k, interactive, hk, hw⟩
      rw [attempt?_eq_none hp hn]
      have hd := deed_of_perform he
      have ho : (note o).started? = none := (hnote o).trans ((hd.aloof hn).2 o rfl)
      refine (hd.hires_none hn).trans (.same rfl rfl rfl rfl ?_)
      rw [starts_record, ho]
      exact List.append_nil _

/-! Turns. -/

theorem ProducerTurn.hires {n : Nat} (h : ProducerTurn c n d more) :
    Hires c d (c.attempt? (.step (.producer n))) := by
  have hx {a : Activity} (ha : c.activity? (.producer n) = some a) :
      c.attempt? (.step (.producer n)) = a.attempt? := by
    simp [attempt?, current?, standing_producer.2 ha]
  cases h with
  | off ha =>
    have hn : c.attempt? (.step (.producer n)) = none := by
      simp only [attempt?, current?]
      split
      · rename_i a hb
        rw [standing_producer.1 hb] at ha
        cases ha
      · rfl
    rw [hn]
    exact .refl c
  | on ha hd =>
    rw [hx ha]
    exact hd.hires fun _ => rfl
  | quit ha hd =>
    rw [hx ha]
    exact (hd.hires fun _ => rfl).trans (.same rfl rfl rfl rfl rfl)

theorem hires_pause (h : Hires c d x) (ht : c.ticker.isAlive = true) : Hires c d.pause x := by
  refine ⟨h.charge, fun i hi => ?_, h.told⟩
  cases i with
  | ticker => exact .inl ht
  | _ => exact h.serves _ hi

theorem hires_record (c : Console) {y : Event} (hy : y.started? = none) :
    Hires c (c.record y) none := by
  refine .same rfl rfl rfl rfl ?_
  rw [starts_record, hy]
  exact List.append_nil _

theorem hires_recover (c : Console) (s : Supervision) (r : Option Request) :
    Hires c (c.recover s r) none := by
  have hl := c.hires_record (y := .logged (.callCrashed (c.job s.job).name r.isSome)) rfl
  cases r <;> exact hl.trans (.same rfl rfl rfl rfl rfl)

theorem CallTurn.hires {s : Supervision} {request : Option Request}
    (h : CallTurn c s request a d more) (hk : c.ticker = .calling request a) :
    Hires c d a.attempt? := by
  have ht : c.ticker.isAlive = true := by rw [hk]; rfl
  cases h with
  | on hd => exact hd.hires fun _ => rfl
  | ended hd => exact hires_pause ((hd.hires fun _ => rfl).trans (hires_record _ rfl)) ht
  | crashed hd =>
    have hr := (hd.hires fun _ => rfl).trans
      (hires_record _ (y := .call s.job request (s.tally.number request) .crashed) rfl)
    exact hires_pause (hr.trans (hires_recover _ s request)) ht

theorem hires_beginCall {s : Supervision} (hs : c.supervision = some s)
    (hk : c.ticker = .checking) :
    Hires c (c.beginCall s) none := by
  have he : (c.beginCall s).starts = c.starts := by
    rw [starts, events_beginCall, List.filterMap_append, startNews]
    cases c.request <;> exact List.append_nil _
  obtain ⟨-, hv, -⟩ := c.beginCall_spec s
  have hcharge : (c.beginCall s).charge = c.charge := by rw [charge, charge, hv, hs]; rfl
  obtain ⟨request, supervision, ticker, journal, hb⟩ := c.beginCall_eq s
  refine .quiet hcharge (fun i hi => ?_) he
  rw [hb] at hi
  cases i with
  | ticker => exact (by rw [hk]; rfl : c.ticker.isAlive = true)
  | _ => exact hi

theorem hires_stopTicker (c : Console) (s : Supervision) : Hires c (c.stopTicker s) none := by
  refine .quiet rfl (fun i hi => ?_) ?_
  · cases i <;> first | exact hi | cases hi
  · have hs := starts_record { c.withdraw .ticker with ticker := .absent }
      (.logged (.stopped (c.job s.job).name))
    exact hs.trans (List.append_nil _)

theorem hires_due {deadline : Nat} (hk : c.ticker = .sleeping deadline) :
    Hires c { c with ticker := .checking } none :=
  .same rfl rfl (by rw [hk]; rfl) rfl rfl

theorem TickerTurn.hires_idle (h : TickerTurn c d more)
    (hn : ∀ s request a, c.supervision = some s → c.ticker = .calling request a →
      c.terminated = true) : Hires c d none := by
  cases h with
  | off => exact .refl c
  | stop => exact hires_stopTicker c _
  | call hs hk => exact hires_beginCall hs hk
  | on hs hk ht => rw [hn _ _ _ hs hk] at ht; cases ht
  | ended hs hk ht => rw [hn _ _ _ hs hk] at ht; cases ht
  | crashed hs hk ht => rw [hn _ _ _ hs hk] at ht; cases ht
  | due hk => exact hires_due hk
  | asleep => exact .refl c

theorem current?_ticker : c.current? .ticker = some a ↔ c.terminated = false ∧
    ∃ s request, c.supervision = some s ∧ c.ticker = .calling request a := by
  constructor
  · intro h
    unfold current? at h
    split at h
    · rename_i b hb
      split at h
      · cases h
      · rename_i ht
        cases h
        obtain ⟨hs, hk⟩ := standing_ticker.1 hb
        obtain ⟨s, hs⟩ := Option.isSome_iff_exists.1 hs
        refine ⟨by simpa using ht, s, ?_⟩
        simp only [activity?] at hk
        cases hc : c.ticker with
        | calling request b =>
          rw [hc] at hk
          cases hk
          exact ⟨request, hs, rfl⟩
        | _ => rw [hc] at hk; cases hk
    · cases h
  · rintro ⟨ht, s, request, hs, hk⟩
    simp [current?, standing_calling hs hk, ht]

theorem tickerTurn_hires (c : Console) : Hires c c.tickerTurn.1 (c.attempt? (.step .ticker)) := by
  cases hx : c.current? .ticker with
  | none =>
    rw [attempt?, hx]
    refine (tickerTurn_cases c).hires_idle fun s request a hs hk => ?_
    by_contra ht
    have hb := current?_ticker.2 ⟨by simpa using ht, s, request, hs, hk⟩
    rw [hx] at hb
    cases hb
  | some a =>
    obtain ⟨ht, s, request, hs, hk⟩ := current?_ticker.1 hx
    have he : c.tickerTurn = c.continueCall s request a := by
      simp only [tickerTurn, hs, hk, ht, Bool.false_eq_true, if_false]
    rw [attempt?, hx, he]
    exact (callTurn_cases c s request a).hires hk

theorem PrinterTurn.hires (h : PrinterTurn c d more) : Hires c d none := by
  have ht := h.isAlive_eq
  have hs : d.starts = c.starts := by
    refine (h.adds.mono fun e he => ?_).starts
    cases e <;> first | rfl | cases he
  obtain ⟨_, _, _, _, _, _, _, _, _, _, rfl⟩ := h.frame
  exact .same rfl rfl ht rfl hs

theorem starts_of_isWatches (h : Adds Event.isWatches c d) : d.starts = c.starts := by
  refine (h.mono fun e he => ?_).starts
  cases e <;> first | rfl | cases he

theorem SignalWatchTurn.hires (h : SignalWatchTurn c d more) : Hires c d none := by
  refine .quiet ?_ (fun i hi => ?_) (starts_of_isWatches h.adds)
  · obtain ⟨_, _, _, rfl⟩ := h.frame
    rfl
  · cases i with
    | signalWatch =>
      cases h with
      | off => exact hi
      | register h => simp [Serves, h]
      | disable => exact absurd rfl hi
      | stop => exact absurd rfl hi
      | quiet h => exact hi
      | hear h => simp [Serves, h]
    | _ =>
      obtain ⟨_, _, _, rfl⟩ := h.frame
      exact hi

theorem KeywordWatchTurn.hires (h : KeywordWatchTurn c d more) : Hires c d none := by
  refine .quiet ?_ (fun i hi => ?_) (starts_of_isWatches h.adds)
  · obtain ⟨_, _, _, _, _, rfl⟩ := h.frame
    rfl
  · cases i with
    | keywordWatch =>
      cases h with
      | off => exact hi
      | stop h | pending h | keyword h | other h | failed h => exact h
    | _ =>
      obtain ⟨_, _, _, _, _, rfl⟩ := h.frame
      exact hi

theorem turn_hires (c : Console) (id : TaskId) :
    Hires c (c.turn id).1 (c.attempt? (.step id)) := by
  cases id with
  | printer => exact (printerTurn_cases c).hires
  | signalWatch => exact (signalWatchTurn_cases c).hires
  | keywordWatch => exact (keywordWatchTurn_cases c).hires
  | ticker => exact c.tickerTurn_hires
  | producer n => exact (producerTurn_cases c n).hires

theorem act_hires (c : Console) (m : Move) : Hires c (c.act m) (c.attempt? m) := by
  cases m with
  | step id =>
    have ht := c.turn_hires id
    obtain ⟨ready, he⟩ := c.turn_eq_step id
    rw [act, he]
    exact ht.trans (.same rfl rfl rfl rfl rfl)
  | kill n =>
    rw [act, kill]
    split
    · exact .refl c
    · exact .same rfl rfl rfl rfl rfl
  | raise s =>
    rw [act, raise]
    split
    · rename_i pending h
      refine .quiet rfl (fun i hi => ?_) rfl
      cases i with
      | signalWatch => simp [Serves, h]
      | _ => exact hi
    · exact .refl c
  | setSink s =>
    have hs := starts_record { c with display.sink := s } (.sinkChanged s)
    exact .same rfl rfl rfl rfl (hs.trans (List.append_nil _))
  | start k interactive => exact (c.supervise_cases k interactive).hires rfl
  | _ => exact .same rfl rfl rfl rfl rfl

theorem Hires.charged (h : Hires c d x) (hc : ∀ i, c.Serves i → c.charge ≠ none) :
    ∀ i, d.Serves i → d.charge ≠ none := by
  intro i hi
  rw [h.charge]
  rcases h.serves i hi with hi | ⟨hn, k, interactive, hx, -⟩
  · obtain ⟨k, hk⟩ := Option.ne_none_iff_exists'.1 (hc i hi)
    simp [hk]
  · simp [hn, hx]

theorem new_charged {settings : Settings} {jobs : List Job} {source : Source} {sink : Sink}
    (h : new? settings jobs source sink = some c) : ∀ i, c.Serves i → c.charge ≠ none := by
  obtain ⟨-, rfl⟩ := new?_eq_some.1 h
  intro i hi
  cases i with
  | signalWatch => exact absurd rfl hi
  | _ => cases hi

theorem Reachable.charged (h : c.Reachable) : ∀ i, c.Serves i → c.charge ≠ none :=
  h.invariant (P := fun c => ∀ i, c.Serves i → c.charge ≠ none) new_charged
    fun c m _ _ hc => (c.act_hires m).charged hc

theorem Hires.watched (h : Hires c d x) (hk : c.keywordWatch = false) (hj : c.charge ≠ none) :
    d.keywordWatch = false ∧ d.charge ≠ none := by
  constructor
  · by_contra hn
    have hi : d.keywordWatch = true := by simpa using hn
    rcases h.serves .keywordWatch hi with hi | ⟨hn, -⟩
    · rw [Serves, hk] at hi
      cases hi
    · exact hj hn
  · obtain ⟨k, hk⟩ := Option.ne_none_iff_exists'.1 hj
    simp [h.charge, hk]

theorem act_watched (m : Move) (hk : c.keywordWatch = false) (hj : c.charge ≠ none) :
    (c.act m).keywordWatch = false ∧ (c.act m).charge ≠ none :=
  (c.act_hires m).watched hk hj

end Console

end JobConsole
