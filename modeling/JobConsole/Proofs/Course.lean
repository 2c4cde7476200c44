import JobConsole.Proofs.Crew
import JobConsole.Proofs.Parking

namespace JobConsole

def Event.isFor (k : Option Nat) : Event → Bool
  | call job .. => k = some job
  | _ => true

theorem Event.isFor_or {e : Event} {k : Option Nat} (h : e.isFor k) (l : Option Nat) :
    e.isFor (k.or l) := by
  cases e with
  | call job =>
    have hk : k = some job := by simpa [isFor] using h
    simp [isFor, hk]
  | _ => rfl

namespace Console

def attempted? (c : Console) : Stride → Option Attempt
  | .move (.start k interactive) => some ⟨k, interactive⟩
  | x => (c.pursued? x).bind fun p => p.2.attempt?

def tried (c : Console) : List Stride → List Attempt
  | [] => []
  | x :: xs => (c.attempted? x).toList ++ (c.stride x).tried xs

variable {c₀ c d : Console} {xs older newer : List Stride} {x : Stride} {id : TaskId} {a : Activity}
  {k : Nat} {interactive : Bool}

theorem Course.cut (h : Course c₀ xs c) (he : xs = older ++ x :: newer) :
    Course c₀ older (c₀.follow older) ∧ (c₀.follow older).permits x := by
  induction h generalizing newer with
  | start => simp at he
  | @next ys d y h hy ih =>
    rcases append_cons_eq_concat he.symm with ⟨rfl, rfl, -⟩ | ⟨newer', -, he⟩
    · rw [← h.eq_follow]
      exact ⟨h, hy⟩
    · exact ih he.symm

theorem tried_append (c : Console) (xs ys : List Stride) :
    c.tried (xs ++ ys) = c.tried xs ++ (c.follow xs).tried ys := by
  induction xs generalizing c with
  | nil => rfl
  | cons x xs ih =>
    rw [List.cons_append, tried, tried, ih, List.append_assoc]
    rfl

theorem Course.tried_next (h : Course c₀ xs c) (x : Stride) :
    c₀.tried (xs ++ [x]) = c₀.tried xs ++ (c.attempted? x).toList := by
  rw [tried_append, ← h.eq_follow, tried, tried, List.append_nil]

/-! What a stride does to the supervision. -/

theorem attempted?_move (c : Console) (m : Move) : c.attempted? (.move m) = c.attempt? m := by
  cases m with
  | step id =>
    simp only [attempted?, pursued?, attempt?, Option.bind_map]
    rfl
  | _ => rfl

theorem work_hires (c : Console) (hi : id ∈ watchers) :
    Hires c (c.work id) (c.attempted? (.work id)) := by
  rcases c.work_cases id with ⟨s, request, a, rfl, hs, hk, he⟩ | ⟨hn, he⟩ <;> rw [he]
  · have ha : c.attempted? (.work .ticker) = a.attempt? := by
      simp [attempted?, pursued?_calling hs hk]
    rw [ha]
    exact (callTurn_cases c s request a).hires hk
  · have ha : c.attempted? (.work id) = none := by
      simp [attempted?, pursued?_eq_none hi hn]
    have ht : Hires { c with terminated := false }
        (turn { c with terminated := false } id).1 none := by
      cases id with
      | printer => exact absurd rfl (not_printer_of_watchers hi)
      | signalWatch => exact (signalWatchTurn_cases _).hires
      | keywordWatch => exact (keywordWatchTurn_cases _).hires
      | ticker =>
        exact (tickerTurn_cases _).hires_idle fun s r b hs hk => absurd hk (hn s r b rfl hs)
      | producer n => simp [watchers] at hi
    have hopen : Hires c { c with terminated := false } none := .same rfl rfl rfl rfl rfl
    rw [ha]
    exact (hopen.trans ht).trans (.same rfl rfl rfl rfl rfl)

theorem stride_hires (hx : c.permits x) : Hires c (c.stride x) (c.attempted? x) := by
  cases x with
  | move m =>
    rw [attempted?_move]
    exact c.act_hires m
  | work id =>
    simp only [permits, Bool.and_eq_true, decide_eq_true_eq] at hx
    exact c.work_hires hx.1.1

/-! Only the job under supervision is called. -/

theorem PrinterTurn.adds_isFor {more : Bool} (h : PrinterTurn c d more) (k : Option Nat) :
    Adds (Event.isFor k) c d := by
  refine h.adds.mono fun e he => ?_
  cases e <;> first | rfl | cases he

theorem isFor_of_isWatches {e : Event} (h : e.isWatches) (k : Option Nat) : e.isFor k := by
  cases e <;> first | rfl | cases h

theorem isFor_of_isDeeds {e : Event} (h : e.isDeeds id) (k : Option Nat) : e.isFor k := by
  cases e <;> first | rfl | cases h

theorem ProducerTurn.adds_isFor {n : Nat} {more : Bool} (h : ProducerTurn c n d more)
    (k : Option Nat) : Adds (Event.isFor k) c d := by
  cases h with
  | off => exact .same rfl
  | on _ hd => exact hd.adds (fun _ he => isFor_of_isDeeds he k) fun _ => rfl
  | quit _ hd =>
    exact (hd.adds (fun _ he => isFor_of_isDeeds he k) fun _ => rfl).trans (.same rfl)

theorem CallTurn.adds_isFor {s : Supervision} {request : Option Request} {more : Bool}
    (h : CallTurn c s request a d more) : Adds (Event.isFor (some s.job)) c d := by
  have hp {d : Console} {pace : Pace}
      (hd : Pursuit c .ticker a (Event.call s.job request (s.tally.number request) ∘ .finished)
        d pace) : Adds (Event.isFor (some s.job)) c d :=
    hd.adds (fun _ he => isFor_of_isDeeds he _) fun _ => decide_eq_true rfl
  have hnote (note : CallNote) :
      Event.isFor (some s.job) (.call s.job request (s.tally.number request) note) :=
    decide_eq_true rfl
  cases h with
  | on hd => exact hp hd
  | ended hd => exact ((hp hd).record (hnote .ended)).trans (.same rfl)
  | @crashed d hd =>
    have hc := ((hp hd).record (hnote .crashed)).record
      (x := .logged (.callCrashed (d.job s.job).name request.isSome)) rfl
    unfold recover
    cases request <;> exact hc.trans (.same rfl)

theorem TickerTurn.adds_isFor {more : Bool} (h : TickerTurn c d more) :
    Adds (Event.isFor c.charge) c d := by
  have hj {s : Supervision} (hs : c.supervision = some s) : c.charge = some s.job := by
    rw [charge, hs]
    rfl
  cases h with
  | off => exact .same rfl
  | @stop s =>
    have hw : Adds (Event.isFor c.charge) c { c.withdraw .ticker with ticker := .absent } :=
      .same rfl
    exact (hw.record (x := .logged (.stopped (c.job s.job).name)) rfl).trans (.same rfl)
  | @call s hs =>
    refine ⟨_, c.events_beginCall s, fun e he => ?_⟩
    rcases List.mem_append.1 he with he | he
    · obtain ⟨r, -, rfl⟩ := List.mem_map.1 he
      rfl
    · rw [List.mem_singleton.1 he, hj hs]
      exact decide_eq_true rfl
  | on hs _ _ hd hp => exact hj hs ▸ (CallTurn.on hd hp).adds_isFor
  | ended hs _ _ hd => exact hj hs ▸ (CallTurn.ended hd).adds_isFor
  | crashed hs _ _ hd => exact hj hs ▸ (CallTurn.crashed hd).adds_isFor
  | due => exact .same rfl
  | asleep => exact .same rfl

theorem turn_adds_isFor (c : Console) (id : TaskId) :
    Adds (Event.isFor c.charge) c (c.turn id).1 := by
  cases id with
  | printer => exact (printerTurn_cases c).adds_isFor _
  | signalWatch => exact (signalWatchTurn_cases c).adds.mono fun _ he => isFor_of_isWatches he _
  | keywordWatch => exact (keywordWatchTurn_cases c).adds.mono fun _ he => isFor_of_isWatches he _
  | ticker => exact (tickerTurn_cases c).adds_isFor
  | producer n => exact (producerTurn_cases c n).adds_isFor _

theorem act_adds_isFor (c : Console) (m : Move) : Adds (Event.isFor c.charge) c (c.act m) := by
  cases m with
  | step id =>
    obtain ⟨ready, he⟩ := c.turn_eq_step id
    rw [act, he]
    exact (c.turn_adds_isFor id).trans (.same rfl)
  | kill n =>
    rw [act, kill]
    split <;> exact .same rfl
  | raise s =>
    rw [act, raise]
    split <;> exact .same rfl
  | setSink s => exact .record (x := .sinkChanged s) (.same rfl) rfl
  | start k interactive =>
    have hs : Adds (Event.isFor c.charge) c (c.supervise k interactive).1 := by
      refine (c.supervise_cases k interactive).adds.mono fun e he => ?_
      cases e <;> first | rfl | cases he
    exact hs.record rfl
  | _ => exact .same rfl

theorem stride_adds_isFor (c : Console) (x : Stride) :
    Adds (Event.isFor c.charge) c (c.stride x) := by
  cases x with
  | move m => exact c.act_adds_isFor m
  | work id =>
    rw [stride]
    rcases c.work_cases id with ⟨s, request, a, rfl, hs, hk, he⟩ | ⟨-, he⟩ <;> rw [he]
    · have hj : c.charge = some s.job := by
        rw [charge, hs]
        rfl
      exact hj ▸ (callTurn_cases c s request a).adds_isFor
    · have hopen : Adds (Event.isFor c.charge) c { c with terminated := false } := .same rfl
      exact (hopen.trans (turn_adds_isFor _ id)).trans (.same rfl)

/-! Attempts that come too late. -/

/-- An attempt that comes too late is noted. That is all, but for a task that goes on to its next
statement. -/
inductive Loses (c : Console) (k : Nat) : Console → Prop
  | host : Loses c k ((c.log (.alreadyStarted (c.job k).name)).record (.hostStarted k false))
  | task {id : TaskId} {a : Activity} {interactive : Bool} {rest : Program} {y : Event}
      (hb : c.standing id = .busy a) (hp : a.program = .start k interactive :: rest)
      (hy : y.started? = some false) :
      Loses c k (((c.log (.alreadyStarted (c.job k).name)).record y).setActivity id
        { program := rest, index := a.index + 1 })

theorem program_of_attempt? (h : a.attempt? = some ⟨k, interactive⟩) :
    ∃ rest, a.program = .start k interactive :: rest ∧ a.wait = .fresh := by
  unfold Activity.attempt? at h
  split at h
  · rename_i k' interactive' rest hp hw
    cases h
    exact ⟨rest, hp, hw⟩
  · cases h

theorem pursue_lost {rest : Program} {s : Supervision}
    (hp : a.program = .start k interactive :: rest) (hw : a.wait = .fresh)
    (hs : c.supervision = some s) (note : Outcome → Event) :
    c.pursue id a note =
      (((c.log (.alreadyStarted (c.job k).name)).record (note (.started false))).setActivity id
        { program := rest, index := a.index + 1 }, .moving) := by
  simp only [pursue, hp, hw, perform, begin, supervise, hs]
  rfl

theorem supervise_lost {s : Supervision} (hs : c.supervision = some s) (k : Nat)
    (interactive : Bool) :
    c.supervise k interactive = (c.log (.alreadyStarted (c.job k).name), false) := by
  simp only [supervise, hs]

theorem continueCall_lost {s : Supervision} {rest : Program}
    (hp : a.program = .start k interactive :: rest) (hw : a.wait = .fresh)
    (hs : c.supervision = some s) (request : Option Request) :
    c.continueCall s request a =
      (((c.log (.alreadyStarted (c.job k).name)).record
        (.call s.job request (s.tally.number request) (.finished (.started false)))).setActivity
          .ticker { program := rest, index := a.index + 1 }, true) := by
  simp only [continueCall, pursue_lost hp hw hs]
  rfl

theorem stride_lost {s : Supervision} {rest : Program} (hx : c.permits x)
    (hb : c.pursued? x = some (id, a)) (hp : a.program = .start k interactive :: rest)
    (hw : a.wait = .fresh) (hs : c.supervision = some s) : ∃ y, y.started? = some false ∧
      c.stride x = ((c.log (.alreadyStarted (c.job k).name)).record y).setActivity id
        { program := rest, index := a.index + 1 } := by
  have hbusy := busy_of_pursued? hb
  cases x with
  | move m =>
    cases m with
    | step j =>
      obtain ⟨b, hc, he⟩ := Option.map_eq_some_iff.1 hb
      cases he
      cases id with
      | producer n =>
        refine ⟨.finished n a.index (.started false), rfl, ?_⟩
        simp only [stride, act, step, turn, producerTurn, activity?_of_standing hbusy,
          pursue_lost hp hw hs, if_true]
      | ticker =>
        obtain ⟨ht, s', request, hs', hk⟩ := current?_ticker.1 hc
        rw [hs] at hs'
        cases hs'
        refine ⟨.call s.job request (s.tally.number request) (.finished (.started false)), rfl, ?_⟩
        simp only [stride, act, step, turn, tickerTurn, hs, hk, ht, Bool.false_eq_true, if_false,
          continueCall_lost hp hw hs, if_true]
      | _ => cases hbusy
    | _ => cases hb
  | work j =>
    -- Of the tasks that work on in spite of the termination only the ticker has an activity.
    obtain ⟨b, -, he⟩ := Option.map_eq_some_iff.1 hb
    cases he
    simp only [permits, Bool.and_eq_true, decide_eq_true_eq] at hx
    rcases c.work_cases id with ⟨s', request, b, rfl, hs', hk, he⟩ | ⟨hn, -⟩
    · rw [hs] at hs'
      cases hs'
      rw [standing_calling hs hk] at hbusy
      cases hbusy
      refine ⟨.call s.job request (s.tally.number request) (.finished (.started false)), rfl, ?_⟩
      rw [stride, he, continueCall_lost hp hw hs]
    · rw [pursued?_eq_none hx.1.1 hn] at hb
      cases hb

theorem stride_loses (hx : c.permits x) (hy : c.attempted? x = some ⟨k, interactive⟩)
    (hc : c.charge ≠ none) : Loses c k (c.stride x) := by
  obtain ⟨s, hs⟩ := supervision_of_charge hc
  by_cases hm : ∃ k interactive, x = .move (.start k interactive)
  · obtain ⟨k, interactive, rfl⟩ := hm
    cases hy
    simp only [stride, act, supervise_lost hs]
    exact .host
  · have hy : (c.pursued? x).bind (fun p => p.2.attempt?) = some ⟨k, interactive⟩ := by
      unfold attempted? at hy
      split at hy
      · exact absurd ⟨_, _, rfl⟩ hm
      · exact hy
    obtain ⟨⟨id, a⟩, hb, ha⟩ := Option.bind_eq_some_iff.1 hy
    obtain ⟨rest, hp, hw⟩ := program_of_attempt? ha
    obtain ⟨y, hy, he⟩ := stride_lost hx hb hp hw hs
    rw [he]
    exact .task (busy_of_pursued? hb) hp hy

/-! Courses. -/

structure StartedOnce (c₀ : Console) (xs : List Stride) (c : Console) : Prop where
  /-- The first attempt is told so, and no other is. -/
  told : c.starts = (c₀.tried xs).mapIdx fun i _ => decide (i = 0)
  calls : ∀ job request number note, .call job request number note ∈ c.events →
    (c₀.tried xs).head?.map Attempt.job = some job
  /-- Whoever serves the supervision came with the first attempt. -/
  crew : ∀ older x newer i, xs = older ++ x :: newer → ((c₀.follow older).stride x).Serves i →
    (c₀.follow older).Serves i ∨ c₀.tried older = [] ∧ ∃ k interactive,
      (c₀.follow older).attempted? x = some ⟨k, interactive⟩ ∧
        (i = .keywordWatch → interactive = false)
  lost : ∀ older x newer k interactive, xs = older ++ x :: newer →
    (c₀.follow older).attempted? x = some ⟨k, interactive⟩ → c₀.tried older ≠ [] →
      Loses (c₀.follow older) k ((c₀.follow older).stride x)

variable {settings : Settings} {jobs : List Job} {source : Source} {sink : Sink}

theorem Course.charge_eq (h : Course c₀ xs c) (h₀ : c₀.supervision = none) :
    c.charge = (c₀.tried xs).head?.map Attempt.job := by
  induction h with
  | start =>
    rw [charge, h₀]
    rfl
  | @next xs c x h hx ih =>
    rw [(stride_hires hx).charge, ih, h.tried_next]
    cases c₀.tried xs <;> cases c.attempted? x <;> rfl

theorem Course.charge_eq_none (h : Course c₀ xs c) (h₀ : c₀.supervision = none) :
    c.charge = none ↔ c₀.tried xs = [] := by
  rw [h.charge_eq h₀]
  cases c₀.tried xs <;> simp

theorem Course.starts_eq (h : Course c₀ xs c) (h₀ : c₀.supervision = none) (hj : c₀.journal = []) :
    c.starts = (c₀.tried xs).mapIdx fun i _ => decide (i = 0) := by
  induction h with
  | start => simp [starts, events, hj, tried]
  | @next xs c x h hx ih =>
    have hc := h.charge_eq_none h₀
    rw [(stride_hires hx).told, ih, h.tried_next, List.mapIdx_append]
    congr 1
    cases c.attempted? x with
    | none => rfl
    | some y =>
      -- The attempt is the first one if and only if nothing is under supervision.
      cases hs : c₀.tried xs with
      | nil => simp [hc.2 hs]
      | cons z zs =>
        have hne : c.charge ≠ none := fun hn => by simp [hc.1 hn] at hs
        simp [Option.isNone_eq_false_iff.2 (Option.isSome_iff_ne_none.2 hne)]

theorem Course.events_isFor (h : Course c₀ xs c) (hj : c₀.journal = []) :
    ∀ e ∈ c.events, e.isFor c.charge := by
  induction h with
  | start => simp [events, hj]
  | @next xs c x h hx ih =>
    obtain ⟨news, he, hn⟩ := c.stride_adds_isFor x
    intro e hm
    rw [(stride_hires hx).charge]
    rw [he] at hm
    exact Event.isFor_or ((List.mem_append.1 hm).elim (ih e) (hn e)) _

theorem Course.startedOnce (h : Course c₀ xs c) (h₀ : new? settings jobs source sink = some c₀) :
    StartedOnce c₀ xs c := by
  obtain ⟨-, hc₀⟩ := new?_eq_some.1 h₀
  have hs : c₀.supervision = none := by rw [hc₀]
  have hj : c₀.journal = [] := by rw [hc₀]
  refine ⟨h.starts_eq hs hj, fun job request number note he => ?_, ?_, ?_⟩
  · have hf := h.events_isFor hj _ he
    rw [h.charge_eq hs] at hf
    simpa [Event.isFor] using hf
  · intro older x newer i he hi
    obtain ⟨hb, hx⟩ := h.cut he
    exact ((stride_hires hx).serves i hi).imp_right fun hn =>
      ⟨(hb.charge_eq_none hs).1 hn.1, hn.2⟩
  · intro older x newer k interactive he hy hn
    obtain ⟨hb, hx⟩ := h.cut he
    exact stride_loses hx hy fun hc => hn ((hb.charge_eq_none hs).1 hc)

end Console

end JobConsole
