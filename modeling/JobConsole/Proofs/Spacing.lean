import JobConsole.Proofs.Cadence
import JobConsole.Proofs.Scripts

namespace JobConsole

theorem length_le_of_apart {period last : Nat} (hp : 1 ≤ period) {ts : List Nat}
    (h : ts.Pairwise fun s t => s + period ≤ t) : ∀ first, (∀ t ∈ ts, first ≤ t ∧ t ≤ last) →
      ts.length ≤ (last - first) / period + 1 := by
  induction h with
  | nil => exact fun _ _ => Nat.zero_le _
  | @cons s ts hs _ ih =>
    intro first hspan
    obtain ⟨hfirst, hlast⟩ := hspan s List.mem_cons_self
    cases ts with
    | nil => exact Nat.le_add_left ..
    | cons t ts =>
      have hnext := ih (s + period) fun u hu => ⟨hs u hu, (hspan u (List.mem_cons_of_mem _ hu)).2⟩
      have ht := hs t List.mem_cons_self
      have htl := (hspan t (List.mem_cons_of_mem _ List.mem_cons_self)).2
      have hdiv : (last - s) / period = (last - (s + period)) / period + 1 := by
        rw [← Nat.add_div_right _ hp]
        congr 1
        omega
      have hmono : (last - s) / period ≤ (last - first) / period :=
        Nat.div_le_div_right (by omega)
      rw [List.length_cons]
      omega

def Stride.isTasks : Stride → Bool
  | move (.step _) | work _ => true
  | _ => false

namespace Console

variable {c d e : Console} {id : TaskId} {a : Activity} {note : Outcome → Event} {pace : Pace}
  {more : Bool} {request : Option Request}

def begun (c : Console) : List Nat :=
  begins (beats c.journal)

/-- A period lies between the calls so far, and will lie before the next one. -/
structure Spaced (c : Console) : Prop where
  apart : c.begun.Pairwise fun s t => s + c.intervalMilliseconds ≤ t
  past : ∀ s ∈ c.begun, s ≤ c.now
  unstarted : c.supervision = none → c.begun = []
  checking : c.ticker = .checking → ∀ s ∈ c.begun, s + c.intervalMilliseconds ≤ c.now
  sleeping : ∀ deadline, c.ticker = .sleeping deadline →
    ∀ s ∈ c.begun, s + c.intervalMilliseconds ≤ deadline

/-- Time does not go back, calls that begin do so in the meantime, and the spacing is kept. -/
structure Paces (c d : Console) : Prop where
  settings : d.settings = c.settings
  now : c.now ≤ d.now
  journal : ∃ new, d.journal = new ++ c.journal ∧ ∀ t ∈ begins (beats new), c.now ≤ t
  spaced : c.Spaced → d.Spaced

theorem begins_append (new old : List Entry) :
    begins (beats (new ++ old)) = begins (beats old) ++ begins (beats new) := by
  rw [beats_append, begins, List.filter_append, List.map_append]
  rfl

theorem begun_of_journal {new : List Entry} (hj : d.journal = new ++ c.journal) :
    d.begun = c.begun ++ begins (beats new) := by
  rw [begun, hj, begins_append]
  rfl

theorem Paces.trans (h : Paces c d) (g : Paces d e) : Paces c e := by
  obtain ⟨new, hj, hn⟩ := h.journal
  obtain ⟨new', hj', hn'⟩ := g.journal
  refine ⟨g.settings.trans h.settings, h.now.trans g.now, ⟨new' ++ new, ?_, fun t ht => ?_⟩,
    fun hc => g.spaced (h.spaced hc)⟩
  · rw [hj', hj, List.append_assoc]
  · rw [begins_append] at ht
    rcases List.mem_append.1 ht with ht | ht
    · exact hn t ht
    · exact h.now.trans (hn' t ht)

theorem Paces.quiet (hs : d.settings = c.settings) (hn : c.now ≤ d.now)
    (hj : ∃ new, d.journal = new ++ c.journal ∧ begins (beats new) = [])
    (hu : d.supervision = none → c.supervision = none)
    (hc : d.ticker = .checking → c.Spaced → ∀ s ∈ c.begun, s + c.intervalMilliseconds ≤ d.now)
    (hd : ∀ deadline, d.ticker = .sleeping deadline → c.Spaced →
      ∀ s ∈ c.begun, s + c.intervalMilliseconds ≤ deadline) : Paces c d := by
  have hi := intervalMilliseconds_congr hs
  obtain ⟨new, hj, hb⟩ := hj
  have hbegun : d.begun = c.begun := by rw [begun_of_journal hj, hb, List.append_nil]
  refine ⟨hs, hn, ⟨new, hj, by simp [hb]⟩, fun h => ?_⟩
  refine ⟨?_, ?_, ?_, ?_, ?_⟩ <;> rw [hbegun]
  · exact hi ▸ h.apart
  · exact fun s hs => (h.past s hs).trans hn
  · exact fun hv => h.unstarted (hu hv)
  · exact fun hk => hi ▸ hc hk h
  · exact fun deadline hk => hi ▸ hd deadline hk h

theorem Steady.paces (h : Steady c d) : Paces c d := by
  obtain ⟨new, hj, hb⟩ := h.journal
  have hk {t : Ticker} (ht : t.activity? = none) (hd : d.ticker = t) : c.ticker = t := by
    cases hc : c.ticker with
    | calling request a =>
      obtain ⟨b, hcall⟩ := h.calling hc
      rw [← hd, hcall] at ht
      cases ht
    | _ => rw [← hc, ← hd, h.ticker_eq (by rw [hc]; rfl)]
  refine .quiet h.settings h.now.ge ⟨new, hj, by rw [hb]; rfl⟩ (fun hv => h.supervision ▸ hv)
    (fun hd hc => ?_)
    fun deadline hd hc => hc.sleeping deadline (hk rfl hd)
  rw [h.now]
  exact hc.checking (hk rfl hd)

theorem Paces.refl (c : Console) : Paces c c :=
  (Steady.refl c).paces

theorem Supervised.paces {k : Nat} {interactive first : Bool}
    (h : Supervised c k interactive d first) : Paces c d := by
  cases h with
  | already => exact ((Steady.refl c).log rfl).paces
  | @started ready hnew =>
    have hnone (hc : c.Spaced) : ∀ s ∈ c.begun, s + c.intervalMilliseconds ≤ c.now := by
      rw [hc.unstarted hnew]
      exact nofun
    exact .quiet rfl (Nat.le_refl _) ⟨[_], rfl, rfl⟩ nofun (fun _ hc => hnone hc) nofun

theorem Opens.paces (h : Opens c d) : Paces c d := by
  rcases h with h | ⟨k, interactive, h⟩
  · exact h.paces
  · exact (c.supervise_cases k interactive).paces.trans h.paces

theorem ProducerTurn.paces {n : Nat} (h : ProducerTurn c n d more) : Paces c d := by
  cases h with
  | off => exact .refl c
  | on _ hd => exact (hd.opens fun _ => rfl).paces
  | quit _ hd => exact ((hd.opens fun _ => rfl).trans (steady_endProducer _ n)).paces

/-! The ticker. -/

theorem paces_beginCall (s : Supervision) (hk : c.ticker = .checking) :
    Paces c (c.beginCall s) := by
  obtain ⟨-, hv, ht⟩ := c.beginCall_spec s
  obtain ⟨new, hj, hb⟩ := c.journal_beginCall s
  obtain ⟨request, supervision, ticker, journal, he⟩ := c.beginCall_eq s
  have hnow : (c.beginCall s).now = c.now := by rw [he]
  have hset : (c.beginCall s).settings = c.settings := by rw [he]
  have hbegun : (c.beginCall s).begun = c.begun ++ [c.now] := by
    rw [begun_of_journal hj, hb]
    rfl
  refine ⟨hset, hnow.ge, ⟨new, hj, by simp [hb, begins, Beat.begins]⟩, fun h => ?_⟩
  have hi := intervalMilliseconds_congr hset
  refine ⟨?_, ?_, fun hn => ?_, fun hn => ?_, fun deadline hn => ?_⟩
  · rw [hbegun, hi]
    exact List.pairwise_append.2 ⟨h.apart, List.pairwise_singleton .., by simpa using h.checking hk⟩
  · rw [hbegun, hnow]
    intro t htm
    rcases List.mem_append.1 htm with htm | htm
    · exact h.past t htm
    · exact (List.mem_singleton.1 htm).le
  · rw [hv] at hn; cases hn
  · rw [ht] at hn; cases hn
  · rw [ht] at hn; cases hn

theorem paces_pause (c : Console) : Paces c c.pause := by
  refine .quiet rfl (Nat.le_refl _) ⟨[], rfl, rfl⟩ (fun h => h) nofun fun deadline hk hc s hm => ?_
  have hd : .sleeping (c.now + c.intervalMilliseconds) = Ticker.sleeping deadline := hk
  cases hd
  exact Nat.add_le_add_right (hc.past s hm) _

theorem paces_record {x : Event} (hx : begins (beats [⟨c.now, x⟩]) = []) :
    Paces c (c.record x) :=
  .quiet rfl (Nat.le_refl _) ⟨[_], rfl, hx⟩ (fun h => h) (fun hk hc => hc.checking hk)
    fun _ hk hc => hc.sleeping _ hk

theorem CallTurn.paces {s : Supervision} (h : CallTurn c s request a d more) : Paces c d := by
  cases h with
  | on hd => exact (hd.opens fun _ => rfl).paces
  | @ended d hd =>
    exact ((hd.opens fun _ => rfl).paces.trans (paces_record rfl)).trans (paces_pause _)
  | @crashed d hd =>
    have hr := (hd.opens fun _ => rfl).paces.trans
      (paces_record (x := .call s.job request (s.tally.number request) .crashed) rfl)
    exact (hr.trans (steady_recover _ s request).paces).trans (paces_pause _)

theorem paces_stopTicker (c : Console) (s : Supervision) : Paces c (c.stopTicker s) := by
  have hstop : Paces c (log { c.withdraw .ticker with ticker := .absent }
      (.stopped (c.job s.job).name)) :=
    .quiet rfl (Nat.le_refl _) ⟨[_], rfl, rfl⟩ (fun h => h) nofun nofun
  exact hstop.trans (steady_letGo _).paces

theorem TickerTurn.paces (h : TickerTurn c d more) : Paces c d := by
  cases h with
  | off | asleep => exact .refl c
  | stop => exact paces_stopTicker c _
  | call _ hk => exact paces_beginCall _ hk
  | on _ _ _ hd hp => exact CallTurn.paces (.on hd hp)
  | ended _ _ _ hd => exact CallTurn.paces (.ended hd)
  | crashed _ _ _ hd => exact CallTurn.paces (.crashed hd)
  | @due deadline hk _ h =>
    exact .quiet rfl (Nat.le_refl _) ⟨[], rfl, rfl⟩ (fun h => h)
      (fun _ hc s hm => (hc.sleeping deadline hk s hm).trans h) nofun

theorem turn_paces (c : Console) (id : TaskId) : Paces c (c.turn id).1 := by
  cases id with
  | printer => exact (printerTurn_cases c).steady.paces
  | signalWatch => exact (signalWatchTurn_cases c).steady.paces
  | keywordWatch => exact (keywordWatchTurn_cases c).steady.paces
  | ticker => exact (tickerTurn_cases c).paces
  | producer n => exact (producerTurn_cases c n).paces

theorem paces_step (c : Console) (id : TaskId) : Paces c (c.step id) := by
  obtain ⟨ready, he⟩ := c.turn_eq_step id
  have ht := c.turn_paces id
  rw [he]
  exact { ht with spaced := fun hc => { ht.spaced hc with } }

theorem paces_work (c : Console) (id : TaskId) : Paces c (c.work id) := by
  rcases c.work_cases id with ⟨s, request, a, -, -, -, he⟩ | ⟨-, he⟩ <;> rw [he]
  · exact (callTurn_cases c s request a).paces
  · have ht := turn_paces { c with terminated := false } id
    exact { ht with spaced := fun hc => { ht.spaced { hc with } with } }

theorem paces_ring {time : Nat} (h : c.now ≤ time) : Paces c (c.ring time) :=
  .quiet rfl h ⟨[], rfl, rfl⟩ (fun h => h) (fun hk hc s hm => (hc.checking hk s hm).trans h)
    fun _ hk hc => hc.sleeping _ hk

theorem paces_act {m : Move} (ha : c.allows m = true) : Paces c (c.act m) := by
  cases m with
  | step id => exact c.paces_step id
  | pass time => exact paces_ring (of_decide_eq_true ha)
  | start k interactive =>
    exact (c.supervise_cases k interactive).paces.trans (paces_record rfl)
  | _ => exact Steady.paces (steady_act rfl)

theorem Course.paces {xs : List Stride} (h : Course c xs d) : Paces c d := by
  induction h with
  | start => exact .refl c
  | @next _ d x _ hx ih =>
    cases x with
    | move m => exact ih.trans (paces_act hx)
    | work id => exact ih.trans (d.paces_work id)

theorem Attainable.spaced (h : c.Attainable) : Spaced c := by
  refine h.invariant (fun h₀ => ?_) (fun c m _ ha hc => (paces_act ha).spaced hc)
    fun c id _ _ _ _ hc => (c.paces_work id).spaced hc
  obtain ⟨-, rfl⟩ := new?_eq_some.1 h₀
  exact ⟨.nil, nofun, fun _ => rfl, nofun, nofun⟩

theorem Course.begun {xs : List Stride} (h : Course c xs d) (hc : c.Attainable) :
    ∃ new, d.begun = c.begun ++ new ∧
      new.length ≤ (d.now - c.now) / c.intervalMilliseconds + 1 := by
  obtain ⟨entries, hj, hn⟩ := h.paces.journal
  have hb := begun_of_journal hj
  have hd := (h.attainable hc).spaced
  have hpos : 1 ≤ c.intervalMilliseconds := c.settings.one_le_ceilMilliseconds_interval
  have hi := intervalMilliseconds_congr h.paces.settings
  have hsub : (begins (beats entries)).Sublist d.begun := hb ▸ List.sublist_append_right ..
  refine ⟨_, hb, length_le_of_apart hpos ?_ c.now fun t ht =>
    ⟨hn t ht, hd.past t (hsub.subset ht)⟩⟩
  exact hi ▸ hd.apart.sublist hsub

/-! Small steps. -/

/-- Whether a stride is a small step of a task. A watch or a ticker that finds nothing to work on
looks for termination within the same small step. -/
def isSmall (c : Console) : Stride → Bool
  | .move (.step _) => true
  | .work id => c.worksOn id
  | _ => false

def smallSteps (c : Console) : List Stride → Nat
  | [] => 0
  | x :: xs => (c.isSmall x).toNat + (c.stride x).smallSteps xs

theorem smallSteps_append (c : Console) (xs ys : List Stride) :
    c.smallSteps (xs ++ ys) = c.smallSteps xs + (c.follow xs).smallSteps ys := by
  induction xs generalizing c with
  | nil => exact (Nat.zero_add _).symm
  | cons x xs ih => rw [List.cons_append, smallSteps, smallSteps, ih, Nat.add_assoc]; rfl

theorem isSmall_add_workload_le {ids : List TaskId} {x : Stride} (hc : Enrolled ids c)
    (hx : c.permits x = true) (ht : x.isTasks = true) :
    (c.isSmall x).toNat + (c.stride x).workload ≤ c.workload := by
  cases x with
  | move m =>
    cases m with
    | step id =>
      have hlt := workload_step_lt hc (of_decide_eq_true hx : id ∈ c.ready)
      rw [Nat.add_comm]
      exact hlt
    | _ => cases ht
  | work id =>
    have he := work_eases hc id
    simp only [isSmall, stride]
    cases hw : c.worksOn id with
    | false => exact (Nat.zero_add _).trans_le he.workload_le
    | true =>
      rcases he with he | ⟨hm, -⟩
      · rw [Bool.toNat_true, Nat.add_comm]
        exact he
      · rw [hw] at hm
        cases hm

theorem Course.smallSteps_le {xs : List Stride} (h : Course c xs d) (hc : c.Attainable)
    (hx : ∀ x ∈ xs, x.isTasks = true) : c.smallSteps xs + d.workload ≤ c.workload := by
  induction h with
  | start => exact (Nat.zero_add _).le
  | @next xs d x h hp ih =>
    have hd := (h.attainable hc).enrolled
    have hle := ih fun y hy => hx y (List.mem_append_left _ hy)
    have hstep := isSmall_add_workload_le hd hp (hx x (by simp))
    rw [smallSteps_append, ← h.eq_follow, smallSteps, smallSteps]
    omega

/-- At one moment only so much can happen, and in any span of time only so many calls can begin. -/
structure Temperate (c : Console) : Prop where
  moment : ∀ xs d, Course c xs d → (∀ x ∈ xs, x.isTasks = true) →
    c.smallSteps xs + d.workload ≤ c.workload
  settled : c.settle.ready = []
  span : ∀ xs d, Course c xs d → ∃ new, d.begun = c.begun ++ new ∧
    new.length ≤ (d.now - c.now) / c.intervalMilliseconds + 1
  elapsed : ∀ milliseconds, (Script.perform c (.advance milliseconds)).ready = [] ∧
    ∃ new, (Script.perform c (.advance milliseconds)).begun = c.begun ++ new ∧
      new.length ≤ milliseconds / c.intervalMilliseconds + 1

theorem now_elapse (c : Console) (milliseconds : Nat) :
    (c.elapse milliseconds).now = c.now + milliseconds := by
  have hnow (time n : Nat) (c : Console) : (passUntil time n c).now = time := by
    induction n generalizing c with
    | zero => rfl
    | succ n ih =>
      unfold passUntil
      split
      · rfl
      · split
        · exact ih _
        · rfl
  exact hnow ..

theorem temperate_of_attainable (h : c.Attainable) : Temperate c := by
  refine ⟨fun xs d hd hx => hd.smallSteps_le h hx, ready_settle h.enrolled,
    fun xs d hd => hd.begun h, fun milliseconds => ?_⟩
  have helapse := (leads_elapse h milliseconds).attainable h
  have hnow : (Script.perform c (.advance milliseconds)).now = c.now + milliseconds :=
    (helapse.wound.settle).now.trans (c.now_elapse milliseconds)
  obtain ⟨xs, hd⟩ := leads_perform h (.advance milliseconds)
  obtain ⟨new, hb, hn⟩ := hd.begun h
  rw [hnow, Nat.add_sub_cancel_left] at hn
  exact ⟨ready_settle helapse.enrolled, new, hb, hn⟩

def stumbling : Job where
  name := "stumbling"
  report _ := [.crash "report"]
  cancel _ := [.crash "cancel"]

def stampede : List Stride :=
  [.move (.spawn [.info "a", .info "b", .start 0 false]), .move (.step (.producer 0)),
    .move (.step (.producer 0)), .move (.step .printer), .move (.step (.producer 0)),
    .move (.step (.producer 0)), .move (.step .signalWatch), .move (.raise .interrupt),
    .move (.feed (.bytes [0x0A])), .move (.step .ticker), .move (.step .ticker)]

theorem temperate_of_stampede : ∃ c₀,
    new? { mailboxCapacity := 0, reportInterval := .ofMilliseconds 0 } [stumbling] {} {} =
        some c₀ ∧
      (c₀.follow stampede).Attainable ∧ (c₀.follow stampede).ready ≠ [] ∧
      (Script.perform (c₀.follow stampede) (.advance 3)).begun = [0, 1, 2, 3] ∧
      Temperate (c₀.follow stampede) := by
  have h₀ : new? { mailboxCapacity := 0, reportInterval := .ofMilliseconds 0 } [stumbling] {} {} =
    some _ := rfl
  exact ⟨_, h₀, (Course.of_lawful (by decide)).attainable (.new h₀), by decide, by decide,
    temperate_of_attainable ((Course.of_lawful (by decide)).attainable (.new h₀))⟩

end Console

end JobConsole
