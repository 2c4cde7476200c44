import JobConsole.Proofs.CopyShown
import Mathlib.Order.Bounds.Defs

/-!
A copy that nothing disturbs runs to its one end. On a virtual clock its calls take no time, so that
the ticks come a period apart, up to the tick that ends the copy. No call follows that one.
-/

namespace JobConsole

/-- The checks of a ticker that keeps time, given what they see. -/
def paced (first period : Nat) (seen : List (Option Request)) : List (Nat × Option Request) :=
  seen.zipIdx.map fun x => (first + x.2 * period, x.1)

variable {first period k : Nat} {seen : List (Option Request)} {request : Option Request}

theorem paced_concat : paced first period (seen ++ [request]) =
    paced first period seen ++ [(first + seen.length * period, request)] := by
  simp [paced, List.zipIdx_append]

theorem getElem?_paced : (paced first period seen)[k]? =
    seen[k]?.map (first + k * period, ·) := by
  rw [paced, List.getElem?_map, List.getElem?_zipIdx, Option.map_map, Nat.zero_add]
  rfl

namespace Console

open FileCopy

inductive OnTime (first : Nat) (c : Console) : Prop
  | checking (hk : c.ticker = .checking)
      (hn : c.now = first + c.checks.length * c.intervalMilliseconds)
  | sleeping (hk : c.ticker = .sleeping (first + c.checks.length * c.intervalMilliseconds))
  | calling {request : Option Request} {a : Activity} (hk : c.ticker = .calling request a)
      (hn : c.now + c.intervalMilliseconds = first + c.checks.length * c.intervalMilliseconds)

structure Stilled (c : Console) : Prop where
  checking : c.ticker ≠ .checking
  sleeping : ∀ deadline, c.ticker = .sleeping deadline → c.now < deadline

/-- The ticks have come a period apart, and none behind the one that ends the copy. -/
structure TickTimes (start : UInt32) (first : Nat) (c : Console) : Prop where
  started : (first, .start) ∈ beats c.journal
  paced : c.checks = paced first c.intervalMilliseconds (c.checks.map Prod.snd)
  last : ∀ k request, (c.checks.map Prod.snd)[k]? = some request →
    closes start k request = true → c.checks.length = k + 1

structure OnSchedule (start : UInt32) (first : Nat) (c : Console) : Prop where
  times : TickTimes start first c
  onTime : c.terminated = false → OnTime first c
  stilled : c.terminated = true → Stilled c

variable {start files : UInt32} {c₀ c d : Console} {id : TaskId} {more : Bool} {m : Move}
  {ms : List Message} {past rest : List (Nat × Message)} {xs : List Stride} {x : Stride}
  {v : Supervision} {p : Tempo}

theorem TickTimes.same (h : TickTimes start first c) (hp : Paces c d) (hc : d.checks = c.checks) :
    TickTimes start first d := by
  obtain ⟨new, hj, -⟩ := hp.journal
  refine ⟨?_, ?_, hc ▸ h.last⟩
  · rw [hj, beats_append]
    exact List.mem_append_left _ h.started
  · rw [hc, intervalMilliseconds_congr hp.settings]
    exact h.paced

theorem Steady.onTime (h : Steady c d) (hc : OnTime first c) : OnTime first d := by
  have hi := intervalMilliseconds_congr h.settings
  cases hc with
  | checking hk hn =>
    refine .checking ((h.ticker_eq (by rw [hk]; rfl)).trans hk) ?_
    rw [h.now, h.checks_eq, hi]
    exact hn
  | sleeping hk =>
    refine .sleeping ((h.ticker_eq (by rw [hk]; rfl)).trans ?_)
    rw [h.checks_eq, hi]
    exact hk
  | calling hk hn =>
    obtain ⟨b, hd⟩ := h.calling hk
    refine .calling hd ?_
    rw [h.now, h.checks_eq, hi]
    exact hn

theorem Steady.stilled (h : Steady c d) (hc : Stilled c) : Stilled d := by
  have hback {t : Ticker} (ht : t.activity? = none) (hd : d.ticker = t) : c.ticker = t := by
    cases hk : c.ticker with
    | calling request a =>
      obtain ⟨b, hb⟩ := h.calling hk
      rw [← hd, hb] at ht
      cases ht
    | _ => rw [← hk, ← hd, h.ticker_eq (by rw [hk]; rfl)]
  refine ⟨fun hd => hc.checking (hback rfl hd), fun deadline hd => ?_⟩
  rw [h.now]
  exact hc.sleeping deadline (hback rfl hd)

theorem OnSchedule.steady (h : OnSchedule start first c) (hs : Steady c d)
    (ht : d.terminated = c.terminated) :
    OnSchedule start first d :=
  ⟨h.times.same hs.paces hs.checks_eq, fun hd => hs.onTime (h.onTime (ht ▸ hd)),
    fun hd => hs.stilled (h.stilled (ht ▸ hd))⟩

/-! The turns of the ticker. -/

theorem TickTimes.concat (h : TickTimes start first c) (hp : Paces c d)
    (hn : c.now = first + c.checks.length * c.intervalMilliseconds)
    (hg : goesOn start 0 (c.checks.map Prod.snd) = true)
    (hd : d.checks = c.checks ++ [(c.now, request)]) : TickTimes start first d := by
  obtain ⟨new, hj, -⟩ := hp.journal
  have hlen : (c.checks.map Prod.snd).length = c.checks.length := List.length_map _
  refine ⟨?_, ?_, fun k r hk hc => ?_⟩
  · rw [hj, beats_append]
    exact List.mem_append_left _ h.started
  · rw [hd, List.map_append, List.map_singleton, paced_concat,
      intervalMilliseconds_congr hp.settings, ← h.paced, hlen, ← hn]
  · rw [hd, List.map_append, List.map_singleton] at hk
    rcases Nat.lt_or_ge k c.checks.length with hlt | hge
    · rw [List.getElem?_append_left (by omega)] at hk
      have hopen := goesOn_iff.1 hg k r hk
      rw [Nat.zero_add, hc] at hopen
      cases hopen
    · have hlt := (List.getElem?_eq_some_iff.1 hk).1
      rw [List.length_append, hlen, List.length_singleton] at hlt
      rw [hd, List.length_append, List.length_singleton]
      omega

theorem onTime_pause (hn : c.now + c.intervalMilliseconds =
    first + c.checks.length * c.intervalMilliseconds) : OnTime first c.pause := by
  have hchecks : c.pause.checks = c.checks := rfl
  have hi : c.pause.intervalMilliseconds = c.intervalMilliseconds := rfl
  refine .sleeping ?_
  rw [hchecks, hi, ← hn]
  rfl

theorem OnTime.of_checking (h : OnTime first c) (hk : c.ticker = .checking) :
    c.now = first + c.checks.length * c.intervalMilliseconds := by
  cases h with
  | checking _ hn => exact hn
  | sleeping hn | calling hn => rw [hk] at hn; cases hn

theorem OnTime.of_calling {a : Activity} (h : OnTime first c)
    (hk : c.ticker = .calling request a) :
    c.now + c.intervalMilliseconds = first + c.checks.length * c.intervalMilliseconds := by
  cases h with
  | calling _ hn => exact hn
  | checking hn | sleeping hn => rw [hk] at hn; cases hn

theorem OnTime.of_sleeping {deadline : Nat} (h : OnTime first c)
    (hk : c.ticker = .sleeping deadline) :
    deadline = first + c.checks.length * c.intervalMilliseconds := by
  cases h with
  | checking hn | calling hn => rw [hk] at hn; cases hn
  | sleeping hn =>
    rw [hk] at hn
    cases hn
    rfl

/-- A ticker that finds its deadline passed finds it just passed. -/
theorem Awaits.deadline_eq {deadline : Nat} (h : c.Awaits p) (hs : c.supervision.isSome)
    (hk : c.ticker = .sleeping deadline) (hle : deadline ≤ c.now) : deadline = c.now := by
  cases h with
  | still hn => rw [hn] at hs; cases hs
  | asleep _ hn hlt =>
    rw [hk] at hn
    cases hn
    omega
  | roused _ hn =>
    rw [hk] at hn
    rcases hn with hn | hn <;> cases hn
    rfl
  | calling _ hn => rw [hk] at hn; cases hn

theorem TickTimes.beginCall (h : TickTimes start first c) (hc : OnTime first c)
    (hv : c.supervision = some v) (hk : c.ticker = .checking) (hs : Stands start c ms)
    (hp : Paces c (c.beginCall v)) :
    TickTimes start first (c.beginCall v) ∧ OnTime first (c.beginCall v) := by
  have hn := hc.of_checking hk
  obtain ⟨-, -, hcalling⟩ := c.beginCall_spec v
  have hchecks := c.checks_beginCall v
  have hi := intervalMilliseconds_congr hp.settings
  have hnow : (c.beginCall v).now = c.now := by
    obtain ⟨request, supervision, ticker, journal, he⟩ := c.beginCall_eq v
    rw [he]
  refine ⟨h.concat hp hn (hs.of_checking hv hk).2.2 hchecks, .calling hcalling ?_⟩
  rw [hi, hnow, hchecks, List.length_append, List.length_singleton, hn, Nat.add_mul, Nat.one_mul,
    Nat.add_assoc]

theorem TickerTurn.onTime (h : TickerTurn c d more) (hk : TickTimes start first c)
    (ht : c.terminated = false) (hc : OnTime first c) (hs : Stands start c ms) (hp : c.Awaits p) :
    TickTimes start first d ∧ OnTime first d := by
  have hpaces := h.paces
  have hsupervised := hs.isSome
  cases h with
  | off hn =>
    rcases hn with hn | hn
    · rw [hn] at hsupervised; cases hsupervised
    · cases hc with
      | checking hk | sleeping hk | calling hk => rw [hn] at hk; cases hk
  | stop _ _ hn => rw [ht] at hn; cases hn
  | call hw hchecking => exact hk.beginCall hc hw hchecking hs hpaces
  | on _ _ _ hd =>
    have hsteady := (hd.opens fun _ => rfl).steady hsupervised
    exact ⟨hk.same hpaces hsteady.checks_eq, hsteady.onTime hc⟩
  | @ended w request a d _ hcalling _ hd =>
    obtain rfl := hd.stop_eq (.inl rfl)
    have hchecks := d.checks_ended w request
    refine ⟨hk.same hpaces hchecks, onTime_pause ?_⟩
    rw [hchecks]
    exact hc.of_calling hcalling
  | @crashed w request a d _ hcalling _ hd =>
    obtain rfl := hd.stop_eq (.inr rfl)
    have hrecover := steady_recover
      (d.record (.call w.job request (w.tally.number request) .crashed)) w request
    have hchecks := d.checks_crashed w request
    refine ⟨hk.same hpaces hchecks, onTime_pause ?_⟩
    have hi := intervalMilliseconds_congr hrecover.settings
    rw [hchecks, hi, hrecover.now]
    exact hc.of_calling hcalling
  | due hsleeping _ hle =>
    have hnow := hp.deadline_eq hsupervised hsleeping hle
    exact ⟨hk.same hpaces rfl, .checking rfl (hnow.symm.trans (hc.of_sleeping hsleeping))⟩
  | asleep => exact ⟨hk, hc⟩

theorem CallTurn.stilled {request : Option Request} {a : Activity}
    (h : CallTurn c v request a d more) (hs : c.supervision.isSome)
    (hk : c.ticker = .calling request a) : d.checks = c.checks ∧ Stilled d := by
  have hpause (e : Console) : Stilled e.pause := by
    have hpos : 1 ≤ e.intervalMilliseconds := e.settings.one_le_ceilMilliseconds_interval
    refine ⟨nofun, fun deadline hd => ?_⟩
    obtain rfl : e.now + e.intervalMilliseconds = deadline := Ticker.sleeping.inj hd
    exact Nat.lt_add_of_pos_right hpos
  cases h with
  | on hd =>
    have hsteady := (hd.opens fun _ => rfl).steady hs
    exact ⟨hsteady.checks_eq, hsteady.stilled ⟨by simp [hk], by simp [hk]⟩⟩
  | @ended d hd =>
    obtain rfl := hd.stop_eq (.inl rfl)
    exact ⟨d.checks_ended v request, hpause _⟩
  | @crashed d hd =>
    obtain rfl := hd.stop_eq (.inr rfl)
    exact ⟨d.checks_crashed v request, hpause _⟩

theorem TickerTurn.stilled (h : TickerTurn c d more) (hc : Stilled c)
    (hcalling : ∀ request a, c.ticker = .calling request a → c.terminated = true) :
    d.checks = c.checks ∧ Stilled d := by
  cases h with
  | off | asleep => exact ⟨rfl, hc⟩
  | @stop w =>
    have hj : (c.stopTicker w).journal =
        [⟨c.now, .logged (.stopped (c.job w.job).name)⟩] ++ c.journal := rfl
    exact ⟨(checks_of_journal hj).trans (List.append_nil _), nofun, nofun⟩
  | call _ hk => exact absurd hk hc.checking
  | on _ hk ht | ended _ hk ht | crashed _ hk ht =>
    rw [hcalling _ _ hk] at ht
    cases ht
  | due hk _ hle =>
    have hlt := hc.sleeping _ hk
    omega

/-! Strides. -/

theorem OnSchedule.ready (h : OnSchedule start first c) (ready : List TaskId) :
    OnSchedule start first { c with ready } := by
  refine ⟨⟨h.times.started, h.times.paced, h.times.last⟩, fun ht => ?_, fun ht => ?_⟩
  · cases h.onTime ht with
    | checking hk hn => exact .checking hk hn
    | sleeping hk => exact .sleeping hk
    | calling hk hn => exact .calling hk hn
  · exact ⟨(h.stilled ht).checking, (h.stilled ht).sleeping⟩

theorem StoryShown.stilled (h : StoryShown start files c past rest) (hc : c.Attainable)
    (hj : Copies start files c) (hv : c.supervision = some v) (ht : c.terminated = false)
    (hp : c.printer = .leaving) : Stilled c := by
  obtain ⟨ms, hs, -⟩ := (hc.copying hv (hj v hv)).stands ht
  cases hs with
  | calling _ _ _ hk => exact ⟨by simp [hk], by simp [hk]⟩
  | between _ _ _ hg =>
    cases h.phase with
    | showing hn => rw [hp] at hn; cases hn
    | unused hn => rw [hp] at hn; cases hn
    | exited _ _ he =>
      obtain ⟨x, hx, hcode⟩ := he
      have hstory : x ∈ story start files 0 c.checks := h.whole ▸ List.mem_append_left _ hx
      rw [code?_of_goesOn hg hstory] at hcode
      cases hcode

theorem OnSchedule.act (h : OnSchedule start first c) (hp : StoryShown start files c past rest)
    (hc : c.Attainable) (hj : Copies start files c) (hv : c.supervision = some v)
    (ht : c.terminated = false) (hw : c.Awaits p) (ha : c.allows m) (hk : c.keepsTime m) :
    OnSchedule start first (c.act m) := by
  obtain ⟨ms, hs, -⟩ := (hc.copying hv (hj v hv)).stands ht
  by_cases hm : m = .step .ticker
  · subst hm
    have hturn := tickerTurn_cases c
    obtain ⟨htable, honTime⟩ := hturn.onTime h.times ht (h.onTime ht) hs hw
    have hd : c.tickerTurn.1.terminated = false := hturn.beside.terminated.trans ht
    obtain ⟨ready, he⟩ := c.turn_eq_step .ticker
    rw [Console.act, he]
    exact OnSchedule.ready ⟨htable, fun _ => honTime,
      fun hn => absurd (hd.symm.trans hn) Bool.false_ne_true⟩ ready
  by_cases hpass : ∃ time, m = .pass time
  · obtain ⟨time, rfl⟩ := hpass
    have hready : c.ready = [] := by
      simp only [keepsTime, Bool.and_eq_true, List.isEmpty_iff] at hk
      exact hk.1
    have hsleeping : c.ticker = .sleeping (first + c.checks.length * c.intervalMilliseconds) := by
      cases h.onTime ht with
      | sleeping hn => exact hn
      | checking hn =>
        have hmem := hw.mem_ready (by rw [hv]; rfl) (.inl hn)
        rw [hready] at hmem
        cases hmem
      | calling hn =>
        cases hs with
        | between _ _ hb => rw [hn] at hb; rcases hb with hb | ⟨_, hb⟩ <;> cases hb
        | calling _ _ _ hb _ howes =>
          exact absurd howes ((hp.resting hc hready ht).2.2 _ _ _ (by rw [hv]; rfl) hb)
    exact ⟨h.times.same (paces_act ha) rfl, fun _ => .sleeping hsleeping,
      fun hn => absurd (ht.symm.trans hn) Bool.false_ne_true⟩
  · have hsteady : Steady c (c.act m) :=
      (act_opens hm fun time he => hpass ⟨time, he⟩).steady (by rw [hv]; rfl)
    cases hd : (c.act m).terminated with
    | false => exact h.steady hsteady (hd.trans ht.symm)
    | true =>
      have hleaving : c.printer = .leaving := by
        rcases (act_terminates hc.staged ht hd).2 with hl | ⟨-, -, hh⟩
        · exact hl
        · rw [hc.supervision_eq_none hj ht hh] at hv
          cases hv
      exact ⟨h.times.same hsteady.paces hsteady.checks_eq,
        fun hn => absurd (hn.symm.trans hd) Bool.false_ne_true,
        fun _ => hsteady.stilled (hp.stilled hc hj hv ht hleaving)⟩

theorem OnSchedule.act_terminated (h : OnSchedule start first c) (hc : c.Attainable)
    (hv : c.supervision = some v) (ht : c.terminated = true) (ha : c.allows m)
    (hk : c.keepsTime m) : OnSchedule start first (c.act m) := by
  have hstilled := h.stilled ht
  by_cases hm : m = .step .ticker
  · subst hm
    have hturn := tickerTurn_cases c
    obtain ⟨hchecks, hs⟩ := hturn.stilled hstilled fun _ _ _ => ht
    have hd : c.tickerTurn.1.terminated = true := hturn.beside.terminated.trans ht
    obtain ⟨ready, he⟩ := c.turn_eq_step .ticker
    rw [Console.act, he]
    exact OnSchedule.ready ⟨h.times.same hturn.paces hchecks,
      fun hn => absurd (hn.symm.trans hd) Bool.false_ne_true, fun _ => hs⟩ ready
  by_cases hpass : ∃ time, m = .pass time
  · obtain ⟨time, rfl⟩ := hpass
    -- The ticker would be ready to stop, so it is gone.
    have habsent : c.ticker.isAlive = false := by
      by_contra hn
      have hmem := hc.awake ht .ticker (Bool.eq_true_of_not_eq_false hn)
      simp only [keepsTime, Bool.and_eq_true, List.isEmpty_iff] at hk
      rw [hk.1] at hmem
      cases hmem
    refine ⟨h.times.same (paces_act ha) rfl, fun hn => absurd (hn.symm.trans ht) Bool.false_ne_true,
      fun _ => ⟨hstilled.checking, fun deadline hd => ?_⟩⟩
    have hsleeping : c.ticker = .sleeping deadline := hd
    rw [hsleeping] at habsent
    cases habsent
  · have hsteady : Steady c (c.act m) :=
      (act_opens hm fun time he => hpass ⟨time, he⟩).steady (by rw [hv]; rfl)
    exact h.steady hsteady ((Console.act_terminated hc.staged ht m).trans ht.symm)

theorem OnSchedule.work (h : OnSchedule start first c) (hv : c.supervision = some v)
    (ht : c.terminated = true) (hi : id ∈ watchers) : OnSchedule start first (c.work id) := by
  have hstilled := h.stilled ht
  have hd : (c.work id).terminated = true := (beside_work c hi).terminated.trans ht
  have hpaces := c.paces_work id
  suffices hw : (c.work id).checks = c.checks ∧ Stilled (c.work id) from
    ⟨h.times.same hpaces hw.1, fun hn => absurd (hn.symm.trans hd) Bool.false_ne_true,
      fun _ => hw.2⟩
  rcases c.work_cases id with ⟨w, request, a, -, hs, hk, he⟩ | ⟨hn, he⟩ <;> rw [he]
  · exact (callTurn_cases c w request a).stilled (by rw [hs]; rfl) hk
  · by_cases hid : id = .ticker
    · subst hid
      have hturn := tickerTurn_cases { c with terminated := false }
      obtain ⟨hchecks, hs⟩ := hturn.stilled ⟨hstilled.checking, hstilled.sleeping⟩
        fun request a hk => absurd hk (hn v request a rfl hv)
      exact ⟨hchecks, hs.checking, hs.sleeping⟩
    · have hopen : Steady c { c with terminated := false } :=
        .aside rfl rfl rfl rfl rfl rfl fun h => h
      have hsteady := (turn_opens (c := { c with terminated := false }) hid).steady
        (by rw [hv]; rfl)
      have hs := hsteady.stilled (hopen.stilled hstilled)
      exact ⟨hsteady.checks_eq, hs.checking, hs.sleeping⟩

theorem OnSchedule.opened (start : UInt32) {l : Nat} {interactive : Bool} (hc : c.Attainable)
    (hv : c.supervision = none) (h : Steady (c.supervise l interactive).1 d)
    (ht : d.terminated = false) : OnSchedule start c.now d := by
  have hchecks : d.checks = [] := by
    rw [h.checks_eq, checks_supervise, checks_of_unsupervised hc.spaced hv]
  have hopen : (c.supervise l interactive).1.ticker = .checking ∧
      (c.supervise l interactive).1.now = c.now ∧
        (c.now, .start) ∈ beats (c.supervise l interactive).1.journal := by
    have hs := c.supervise_cases l interactive
    generalize (c.supervise l interactive).1 = e, (c.supervise l interactive).2 = first at hs ⊢
    cases hs with
    | already hn => rw [hv] at hn; cases hn
    | started =>
      refine ⟨rfl, rfl, ?_⟩
      have hj : (c.log (.started (c.job l).name c.settings.interval interactive)).journal =
          [⟨c.now, .logged (.started (c.job l).name c.settings.interval interactive)⟩] ++
            c.journal := rfl
      change _ ∈ beats (c.log _).journal
      rw [hj, beats_append]
      exact List.mem_append_right _ List.mem_cons_self
  obtain ⟨hticker, hnow, hstart⟩ := hopen
  obtain ⟨new, hj, -⟩ := h.journal
  refine ⟨⟨?_, by rw [hchecks]; rfl, by simp [hchecks]⟩, fun _ => .checking ?_ ?_,
    fun hn => absurd (ht.symm.trans hn) Bool.false_ne_true⟩
  · rw [hj, beats_append]
    exact List.mem_append_left _ hstart
  · rw [h.ticker_eq (by rw [hticker]; rfl), hticker]
  · rw [h.now, hnow, hchecks]
    simp

theorem Timely.awaits {settings : Settings} {jobs : List Job} {source : Source} {sink : Sink}
    (h₀ : new? settings jobs source sink = some c₀) (h : Timely c₀ xs c)
    (ht : c.terminated = false) : ∃ p, c.Awaits p := by
  induction h with
  | start =>
    obtain ⟨-, rfl⟩ := new?_eq_some.1 h₀
    exact ⟨.still, .still rfl⟩
  | @next xs c x h hx hk ih =>
    have hc : c.Attainable := h.course.attainable (.new h₀)
    cases x with
    | move m =>
      have hc' : c.terminated = false := by
        by_contra hn
        have hd := Console.act_terminated hc.staged (Bool.eq_true_of_not_eq_false hn) m
        exact absurd (ht.symm.trans hd) Bool.false_ne_true
      obtain ⟨p, hp⟩ := ih hc'
      obtain ⟨-, new, -, hg⟩ := act_goes hc' hx hk
      obtain ⟨q, -, hq⟩ := hg p hp
      exact ⟨q, hq⟩
    | work id =>
      simp only [permits, Bool.and_eq_true, decide_eq_true_eq] at hx
      have hd := (beside_work c hx.1.1).terminated
      exact absurd (ht.symm.trans (hd.trans hx.2)) Bool.false_ne_true

theorem OnSchedule.begins {files : UInt32} (hp : StoryShown start files c past rest)
    (hc : c.Attainable) (hv : c.supervision = none) (hx : c.permits x)
    (hd : (c.stride x).supervision.isSome) :
    OnSchedule start c.now (c.stride x) := by
  have hheld : c.terminated = false := by
    by_contra hn
    have hstopped := hc.staged.terminated_iff.1 (Bool.eq_true_of_not_eq_false hn)
    cases hp.phase with
    | showing hr => rw [hstopped] at hr; cases hr
    | exited _ _ he =>
      obtain ⟨y, hy, -⟩ := he
      rw [(hp.story_eq_nil hc hv).1] at hy
      cases hy
    | unused _ hh =>
      rw [supervision_of_not_isHeld hh hx hv] at hd
      cases hd
  cases x with
  | work id =>
    simp only [permits, Bool.and_eq_true, decide_eq_true_eq] at hx
    exact absurd (hheld.symm.trans hx.2) Bool.false_ne_true
  | move m =>
    have hterminated : (c.act m).terminated = false := by
      by_contra hn
      have hstop := (act_terminates hc.staged hheld (Bool.eq_true_of_not_eq_false hn)).1
      obtain ⟨producers, ticker, ready, he⟩ := c.stopPrinter_eq
      rw [stride, hstop, he] at hd
      rw [hv] at hd
      cases hd
    by_cases hpass : ∃ time, m = .pass time
    · obtain ⟨time, rfl⟩ := hpass
      have hs : (c.act (.pass time)).supervision = c.supervision := rfl
      rw [stride, hs, hv] at hd
      cases hd
    by_cases hm : m = .step .ticker
    · subst hm
      have hoff : c.tickerTurn = (c, false) := by simp [tickerTurn, hv]
      obtain ⟨ready, he⟩ := c.turn_eq_step .ticker
      rw [stride, Console.act, he, turn, hoff, hv] at hd
      cases hd
    · rcases act_opens hm fun time he => hpass ⟨time, he⟩ with hs | ⟨l, interactive, hs⟩
      · rw [stride, hs.supervision, hv] at hd
        cases hd
      · exact .opened start hc hv hs hterminated

theorem Timely.onSchedule {settings : Settings} {jobs : List Job} {source : Source} {sink : Sink}
    (h₀ : new? settings jobs source sink = some c₀) (hs : sink.budget = none)
    (h : Timely c₀ xs c) (hu : Undisturbed c) (hj : Copies start files c)
    (hv : c.supervision.isSome) : ∃ first, OnSchedule start first c := by
  induction h with
  | start =>
    obtain ⟨-, rfl⟩ := new?_eq_some.1 h₀
    cases hv
  | @next xs c x h hx hk ih =>
    have hc : c.Attainable := h.course.attainable (.new h₀)
    have hu' := hu.before (c.stride_grows x)
    have hj' := hj.before hx
    obtain ⟨past, rest, hp⟩ := h.storyShown h₀ hs hu' hj'
    cases hcv : c.supervision with
    | none => exact ⟨c.now, .begins hp hc hcv hx hv⟩
    | some v =>
      obtain ⟨first, hkept⟩ := ih hu' hj' (by rw [hcv]; rfl)
      refine ⟨first, ?_⟩
      cases x with
      | work id =>
        simp only [permits, Bool.and_eq_true, decide_eq_true_eq] at hx
        exact hkept.work hcv hx.2 hx.1.1
      | move m =>
        cases ht : c.terminated with
        | true => exact hkept.act_terminated hc hcv ht hx hk
        | false =>
          obtain ⟨p, hw⟩ := h.awaits h₀ ht
          exact hkept.act hp hc hj' hcv ht hw hx hk

/-! The whole copy. -/

def tickMessages (start files : UInt32) (checks : List (Nat × Option Request)) :
    List (Nat × Message) :=
  checks.zipIdx.flatMap fun x => (lines start files x.2 x.1.2).map (x.1.1, ·)

/-- If no tick comes behind the one that ends the copy, nothing is left out of its story. -/
theorem story_eq_flatMap {checks : List (Nat × Option Request)} (h : ∀ i time request,
    checks[i]? = some (time, request) → closes start (k + i) request = true →
      checks.length = i + 1) : story start files k checks =
    (checks.zipIdx k).flatMap fun x => (lines start files x.2 x.1.2).map (x.1.1, ·) := by
  induction checks generalizing k with
  | nil => rfl
  | cons x checks ih =>
    obtain ⟨time, request⟩ := x
    rw [story, List.zipIdx_cons, List.flatMap_cons]
    congr 1
    cases hc : closes start k request with
    | true =>
      have hlen := h 0 time request rfl hc
      obtain rfl : checks = [] := List.eq_nil_of_length_eq_zero (by simpa using hlen)
      rfl
    | false =>
      refine ih fun i t r hi hcl => ?_
      have hlen := h (i + 1) t r hi (by rw [← hcl, Nat.add_right_comm, Nat.add_assoc])
      simpa using hlen

theorem TickTimes.story_eq (h : TickTimes start first c) (files : UInt32) :
    story start files 0 c.checks = tickMessages start files c.checks := by
  refine story_eq_flatMap fun i time request hi hc => ?_
  refine h.last i request ?_ (by rwa [Nat.zero_add] at hc)
  rw [List.getElem?_map, hi]
  rfl

theorem StoryShown.ends (h : StoryShown start files c past rest)
    (he : ∃ x ∈ past, x.2.code?.isSome) :
    ∃ i time request older, c.checks[i]? = some (time, request) ∧
      closes start i request = true ∧
        c.shownJournal = older ++ [⟨time, .ending .printer (.exit (codeAt request))⟩] ∧
          ∀ e ∈ older, e.event.ending? = none := by
  obtain ⟨x, hx, hcode⟩ := he
  obtain ⟨before, behind, rfl⟩ := List.append_of_mem hx
  have hw := h.whole
  rw [List.append_assoc, List.cons_append] at hw
  obtain ⟨hg, hnil⟩ := eq_nil_of_story hw hcode
  obtain ⟨rfl, rfl⟩ := List.append_eq_nil_iff.1 hnil
  obtain ⟨i, time, request, front, text, hi, hc, hs, hn⟩ := story_of_not_goesOn files hg
  rw [Nat.zero_add] at hc
  have hfront : before ++ [x] = front ++ [(time, .exit text (codeAt request))] := by
    rw [← hs, hw]
    rfl
  have hshown := h.shown
  rw [hfront, shownEntries_concat, entriesOf] at hshown
  refine ⟨i, time, request, _, hi, hc, hshown.trans (List.append_assoc ..).symm, fun e he => ?_⟩
  rcases List.mem_append.1 he with he | he
  · by_contra hne
    obtain ⟨y, hy, code, hcode, -⟩ :=
      ending_of_mem_shownEntries he (Option.isSome_iff_ne_none.2 hne)
    rw [hn y hy] at hcode
    cases hcode
  · rcases List.mem_cons.1 he with rfl | he
    · rfl
    · rw [List.mem_singleton.1 he]
      rfl

theorem StoryShown.once (h : StoryShown start files c past rest) {older newer : List Entry}
    {e : Entry} (he : c.shownJournal = older ++ e :: newer) (hend : e.event.ending?.isSome) :
    newer = [] ∧ ∀ e ∈ older, e.event.ending? = none := by
  have hmem : e ∈ shownEntries "" past := by
    rw [← h.shown, he]
    simp
  obtain ⟨x, hx, code, hcode, -⟩ := ending_of_mem_shownEntries hmem hend
  obtain ⟨i, time, request, front, -, -, hjournal, hfront⟩ := h.ends ⟨x, hx, by rw [hcode]; rfl⟩
  rcases append_cons_eq_concat (he.symm.trans hjournal) with ⟨rfl, -, hnil⟩ | ⟨ys, -, rfl⟩
  · exact ⟨hnil, hfront⟩
  · rw [hfront e (by simp)] at hend
    cases hend

/-- A copy of `files` files from `start` percent on, whose ticks saw what `seen` tells, and whose
`n`-th tick is the first at which it is done. -/
structure Completes (start files : UInt32) (n first period : Nat)
    (seen : List (Option Request)) (c : Console) : Prop where
  started : (first, .start) ∈ beats c.journal
  ticks : c.checks = paced first period seen
  /-- No tick follows the one that sees a request, nor the `n`-th. -/
  last : ∀ k request, seen[k]? = some request → request.isSome ∨ k = n → seen.length = k + 1
  shown : c.shownJournal <+: shownEntries "" (tickMessages start files c.checks)
  once : ∀ older e newer, c.shownJournal = older ++ e :: newer → e.event.ending?.isSome →
    newer = [] ∧ ∀ e ∈ older, e.event.ending? = none
  settled : c.ready = [] → c.shownJournal = shownEntries "" (tickMessages start files c.checks)
  /-- As long as no request is seen and the `n`-th tick has not come, there is a next one. -/
  going : c.ready = [] → (∀ k request, seen[k]? = some request → request = none ∧ k ≠ n) →
    c.terminated = false ∧ c.now < first + seen.length * period
  punctual : c.ready = [] → first + n * period ≤ c.now → c.terminated = true
  ended : c.ready = [] → ∀ k request, seen[k]? = some request → request.isSome ∨ k = n →
    c.terminated = true ∧ ∃ older, c.shownJournal =
      older ++ [⟨first + k * period, .ending .printer (.exit (codeAt request))⟩]

section LastTick

variable {n : Nat} (hn : IsLeast {n | 100 ≤ start.toNat + 7 * n} n)

include hn

theorem closes_iff : closes start k request = true ↔ request.isSome = true ∨ n ≤ k := by
  rw [closes, Bool.or_eq_true, decide_eq_true_eq]
  have hdone : 100 ≤ start.toNat + 7 * n := hn.1
  refine or_congr_right ⟨fun h => hn.2 h, fun h => ?_⟩
  simp only [percentAt]
  omega

theorem closes_of_last (h : request.isSome ∨ k = n) : closes start k request = true :=
  (closes_iff hn).2 (h.imp_right fun he => he.ge)

theorem not_closes_of_open
    (hopen : ∀ k request, seen[k]? = some request → request = none ∧ k ≠ n)
    (hk : seen[k]? = some request) : closes start k request = false := by
  by_contra hc
  rcases (closes_iff hn).1 (Bool.eq_true_of_not_eq_false hc) with hsome | hle
  · rw [(hopen k request hk).1] at hsome
    cases hsome
  · -- The `n`-th tick has come before this one, or is this one.
    have hlt := (List.getElem?_eq_some_iff.1 hk).1
    exact (hopen n _ (List.getElem?_eq_getElem (by omega))).2 rfl

theorem length_le_of_goesOn (hg : goesOn start 0 seen = true) : seen.length ≤ n := by
  by_contra hlt
  have hnth := goesOn_iff.1 hg n _ (List.getElem?_eq_getElem (by omega))
  rw [Nat.zero_add, (closes_iff hn).2 (.inr le_rfl)] at hnth
  cases hnth

end LastTick

theorem StoryShown.exited (h : StoryShown start files c past rest) (hc : c.Attainable)
    (hv : c.supervision.isSome) (ht : c.terminated = true) : ∃ x ∈ past, x.2.code?.isSome := by
  have hstopped := hc.staged.terminated_iff.1 ht
  cases h.phase with
  | showing hr => rw [hstopped] at hr; cases hr
  | exited _ _ he => exact he
  | unused _ _ hn => rw [hn] at hv; cases hv

theorem OnSchedule.asleep (h : OnSchedule start first c) (hp : StoryShown start files c past rest)
    (hc : c.Attainable) (hj : Copies start files c) (hv : c.supervision = some v)
    (hr : c.ready = []) (ht : c.terminated = false) (hw : c.Awaits p) :
    goesOn start 0 (c.checks.map Prod.snd) = true ∧
      c.now < first + c.checks.length * c.intervalMilliseconds := by
  obtain ⟨ms, hs, -⟩ := (hc.copying hv (hj v hv)).stands ht
  have hnone : .ticker ∉ c.ready := by simp [hr]
  have hresting := (hp.resting hc hr ht).2.2
  cases hs with
  | calling _ _ _ hk _ ho => exact absurd ho (hresting _ _ _ (by rw [hv]; rfl) hk)
  | between _ _ hk hg =>
    refine ⟨hg, ?_⟩
    rcases hk with hk | ⟨deadline, hk⟩
    · exact absurd (hw.mem_ready (by rw [hv]; rfl) (.inl hk)) hnone
    · rw [← (h.onTime ht).of_sleeping hk]
      cases hw with
      | still hn => rw [hv] at hn; cases hn
      | roused _ _ hmem => exact absurd hmem hnone
      | calling _ hn => rw [hk] at hn; cases hn
      | asleep _ hn hlt =>
        rw [hk] at hn
        cases hn
        exact hlt

theorem completes_of_undisturbed {settings : Settings} {jobs : List Job} {source : Source}
    {sink : Sink} {n : Nat} (h₀ : new? settings jobs source sink = some c₀)
    (hs : sink.budget = none) (h : Timely c₀ xs c) (hu : Undisturbed c)
    (hv : c.supervision = some v) (hj : c.job v.job = FileCopy.job start files)
    (hn : IsLeast {n | 100 ≤ start.toNat + 7 * n} n) :
    ∃ first seen, Completes start files n first c₀.intervalMilliseconds seen c := by
  have hc : c.Attainable := h.course.attainable (.new h₀)
  have hcopies : Copies start files c := fun w hw => by
    rw [hv] at hw
    cases hw
    exact hj
  have hsupervised : c.supervision.isSome := by rw [hv]; rfl
  have hperiod := intervalMilliseconds_congr h.course.paces.settings
  obtain ⟨past, rest, hp⟩ := h.storyShown h₀ hs hu hcopies
  obtain ⟨first, hk⟩ := h.onSchedule h₀ hs hu hcopies hsupervised
  have hstory := hk.times.story_eq files
  have hlen : (c.checks.map Prod.snd).length = c.checks.length := List.length_map _
  have hends (ht : c.terminated = true) : ∃ i time request older,
      (c.checks.map Prod.snd)[i]? = some request ∧ closes start i request = true ∧
        c.checks[i]? = some (time, request) ∧
          c.shownJournal = older ++ [⟨time, .ending .printer (.exit (codeAt request))⟩] := by
    obtain ⟨i, time, request, older, hi, hclosed, hjournal, -⟩ :=
      hp.ends (hp.exited hc hsupervised ht)
    exact ⟨i, time, request, older, by rw [List.getElem?_map, hi]; rfl, hclosed, hi, hjournal⟩
  have hasleep (hr : c.ready = []) (ht : c.terminated = false) :
      goesOn start 0 (c.checks.map Prod.snd) = true ∧
        c.now < first + c.checks.length * c₀.intervalMilliseconds := by
    obtain ⟨p, hw⟩ := h.awaits h₀ ht
    exact hperiod ▸ hk.asleep hp hc hcopies hv hr ht hw
  refine ⟨first, c.checks.map Prod.snd, ?_⟩
  constructor
  case started => exact hk.times.started
  case ticks => exact hperiod ▸ hk.times.paced
  case last =>
    intro k request hseen hend
    rw [hlen]
    exact hk.times.last k request hseen (closes_of_last hn hend)
  case shown =>
    rw [hp.shown, ← hstory, hp.whole, shownEntries_append]
    exact List.prefix_append ..
  case once => exact fun older e newer he hend => hp.once he hend
  case settled =>
    intro hr
    obtain rfl := hp.rest_eq_nil hc hu hcopies hr
    rw [hp.shown, ← hstory, hp.whole, List.append_nil]
  case going =>
    intro hr hopen
    have ht : c.terminated = false := by
      by_contra ht
      obtain ⟨i, time, request, -, hseen, hclosed, -⟩ := hends (Bool.eq_true_of_not_eq_false ht)
      rw [not_closes_of_open hn hopen hseen] at hclosed
      cases hclosed
    rw [hlen]
    exact ⟨ht, (hasleep hr ht).2⟩
  case punctual =>
    intro hr hnow
    by_contra ht
    obtain ⟨hopen, hlt⟩ := hasleep hr (Bool.eq_false_of_not_eq_true ht)
    have hle := length_le_of_goesOn hn hopen
    rw [hlen] at hle
    have hmul := Nat.mul_le_mul_right c₀.intervalMilliseconds hle
    omega
  case ended =>
    intro hr k request hseen hend
    have hclosed := closes_of_last hn hend
    have ht : c.terminated = true := by
      by_contra ht
      have hopen := goesOn_iff.1 (hasleep hr (Bool.eq_false_of_not_eq_true ht)).1 k request hseen
      rw [Nat.zero_add, hclosed] at hopen
      cases hopen
    obtain ⟨i, time, request', older, hseen', hclosed', hi, hjournal⟩ := hends ht
    -- Both ticks are the last one.
    have hlast := hk.times.last k request hseen hclosed
    have hlast' := hk.times.last i request' hseen' hclosed'
    obtain rfl : i = k := by omega
    cases hseen.symm.trans hseen'
    rw [hk.times.paced, getElem?_paced, hseen] at hi
    cases hi
    exact ⟨ht, older, hperiod ▸ hjournal⟩

def areTimely (c : Console) : List Stride → Bool
  | [] => true
  | x :: xs => c.permits x && c.isTimely x && (c.stride x).areTimely xs

theorem Timely.append {ys : List Stride} (h : Timely c₀ xs c) (hd : Timely c ys d) :
    Timely c₀ (xs ++ ys) d := by
  induction hd with
  | start => rwa [List.append_nil]
  | next x _ hx hk ih => rw [← List.append_assoc]; exact .next x ih hx hk

theorem Timely.of_areTimely {c : Console} :
    ∀ {xs : List Stride}, c.areTimely xs → Timely c xs (c.follow xs)
  | [], _ => .start
  | x :: xs, h => by
    simp only [areTimely, Bool.and_eq_true] at h
    exact Timely.append (.next x .start h.1.1 h.1.2) (Timely.of_areTimely h.2)

def finishing : List Stride :=
  ([.step .printer, .start 0 true, .step .signalWatch, .step .signalWatch, .step .ticker,
    .step .ticker, .step .ticker, .step .ticker, .step .printer, .step .printer, .pass 2000,
    .step .ticker, .step .ticker, .step .ticker, .step .ticker, .step .printer, .step .printer,
    .step .ticker, .step .signalWatch, .step .keywordWatch] : List Move).map .move

theorem completes_of_finishing : ∃ c₀ c v, new? {} [FileCopy.job 93 2] {} {} = some c₀ ∧
    Timely c₀ finishing c ∧ Undisturbed c ∧ c.supervision = some v ∧
      c.job v.job = FileCopy.job 93 2 ∧ c.ready = [] ∧
        c.output = Utf8.encode "\rCopying 93% of 2 files\nAll done: 2 files copied\n".toList ∧
          ∃ first seen, Completes 93 2 1 first 2000 seen c := by
  obtain ⟨c₀, h₀⟩ : ∃ c₀, new? {} [FileCopy.job 93 2] {} {} = some c₀ := ⟨_, rfl⟩
  have htimely : Timely c₀ finishing (c₀.follow finishing) := .of_areTimely (by
    cases h₀
    decide +kernel)
  have hposted : (c₀.follow finishing).posted.map Prod.fst = [.ticker, .ticker] := by
    cases h₀
    decide +kernel
  have hundisturbed : Undisturbed (c₀.follow finishing) := by
    constructor
    case sole =>
      intro x hx
      have hx := List.mem_map_of_mem (f := Prod.fst) hx
      rw [hposted] at hx
      simpa using hx
    case heard =>
      have hreads : (c₀.follow finishing).reads = [] := by
        cases h₀
        decide +kernel
      simp [hreads]
    case roomy =>
      have hkept : ((c₀.follow finishing).events.all fun
          | .sinkChanged _ => false
          | _ => true) = true := by
        cases h₀
        decide +kernel
      exact fun sink hs => nomatch List.all_eq_true.1 hkept _ hs
  have hleast : IsLeast {n | 100 ≤ (93 : UInt32).toNat + 7 * n} 1 :=
    ⟨by decide, fun m (hm : 100 ≤ 93 + 7 * m) => by omega⟩
  have hv : (c₀.follow finishing).supervision = some ⟨0, ⟨2, 0⟩⟩ := by
    cases h₀
    rfl
  refine ⟨c₀, _, _, h₀, htimely, hundisturbed, hv, ?_, ?_, ?_, ?_⟩
  · cases h₀
    rfl
  · cases h₀
    decide +kernel
  · cases h₀
    decide +kernel
  · have hperiod : c₀.intervalMilliseconds = 2000 := by
      cases h₀
      rfl
    have hjob : (c₀.follow finishing).job 0 = FileCopy.job 93 2 := by
      cases h₀
      rfl
    exact hperiod ▸ completes_of_undisturbed h₀ rfl htimely hundisturbed hv hjob hleast

end Console

end JobConsole
