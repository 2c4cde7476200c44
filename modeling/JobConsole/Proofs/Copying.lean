import JobConsole.Proofs.Ticks

namespace JobConsole

namespace FileCopy

variable {start files : UInt32} {requests : List (Option Request)} {request : Option Request}

/-- The counter does not wrap before the copy ends. -/
theorem toNat_percentAfter (h : goesOn start 0 requests = true) :
    (percentAfter start requests.length).toNat = percentAt start requests.length := by
  have hpercent := percentAt_of_goesOn h
  have hstart : start.toNat < 4294967296 := start.toNat_lt
  rcases hpercent with rfl | hlt
  · simp [percentAfter, percentAt]
  · simp only [percentAt] at hlt
    simp only [percentAfter, percentAt, UInt32.toNat_add, UInt32.toNat_mul, UInt32.toNat_ofNat',
      UInt32.reduceToNat]
    omega

theorem spells_call (h : goesOn start 0 requests = true) :
    Spells ((job start files).call (Tally.next ⟨requests.length, 0⟩ request) request)
      (lines start files requests.length request) := by
  have hpercent := toNat_percentAfter h
  have htext : toString (percentAfter start requests.length) =
      toString (percentAt start requests.length) :=
    congrArg Nat.repr hpercent
  cases request with
  | some r =>
    simp only [Job.call, job, Tally.next, cancel, lines, htext]
    exact .cons (fun _ => rfl) (.cons (fun _ => rfl) .nil)
  | none =>
    simp only [Job.call, job, Tally.next, Nat.add_sub_cancel, report, lines, shown, hpercent]
    by_cases hdone : 100 ≤ percentAt start requests.length
    · rw [if_pos (by omega), if_pos hdone]
      exact .cons (fun _ => rfl) .nil
    · have hmin : min (percentAt start requests.length) 100 = percentAt start requests.length := by
        omega
      rw [hmin, if_neg hdone, if_neg hdone]
      by_cases hcheck : 0 < percentAt start requests.length ∧
          percentAt start requests.length % 21 = 0
      · simp only [hcheck, decide_true, Bool.and_self, if_true, and_self]
        exact .cons (fun _ => rfl) (.cons (fun _ => rfl) .nil)
      · have hb : (decide (0 < percentAt start requests.length) &&
            decide (percentAt start requests.length % 21 = 0)) = false := by
          simpa using hcheck
        rw [hb, if_neg hcheck]
        exact .cons (fun _ => rfl) .nil

theorem parks_call (h : goesOn start 0 requests = true)
    (hc : closes start requests.length request = true) :
    ((job start files).call (Tally.next ⟨requests.length, 0⟩ request) request).any
      Statement.parks = true := by
  cases request with
  | some r => rfl
  | none =>
    have hdone : 100 ≤ percentAt start requests.length := by simpa [closes] using hc
    simp only [Job.call, job, Tally.next, Nat.add_sub_cancel, report, shown, toNat_percentAfter h]
    rw [if_pos (by omega)]
    rfl

end FileCopy

namespace Console

open FileCopy

variable {start files : UInt32} {c d : Console} {id : TaskId} {ms : List Message} {more : Bool}
  {v : Supervision}

/-- Where a copy stands, and what it owes of the call it is in. No tick before the current one has
ended it. -/
inductive Stands (start : UInt32) (c : Console) : List Message → Prop
  | between {v : Supervision} (hv : c.supervision = some v) (ht : v.tally = ⟨c.checks.length, 0⟩)
      (hk : c.ticker = .checking ∨ ∃ deadline, c.ticker = .sleeping deadline)
      (hg : goesOn start 0 (c.checks.map Prod.snd) = true) : Stands start c []
  | calling {v : Supervision} {older : List (Nat × Option Request)} {time : Nat}
      {request : Option Request} {a : Activity} {ms : List Message} (hv : c.supervision = some v)
      (hc : c.checks = older ++ [(time, request)])
      (ht : v.tally = Tally.next ⟨older.length, 0⟩ request)
      (hk : c.ticker = .calling request a) (hg : goesOn start 0 (older.map Prod.snd) = true)
      (ho : a.Owes ms)
      (hp : closes start older.length request = true → a.program.any Statement.parks = true) :
      Stands start c ms

structure Copying (start files : UInt32) (c : Console) : Prop where
  said : c.said .ticker <+: (story start files 0 c.checks).map Prod.snd
  stands : c.terminated = false → ∃ ms, Stands start c ms ∧ (c.mailbox.closed = false →
    c.said .ticker ++ ms = (story start files 0 c.checks).map Prod.snd)

theorem Stands.isSome (h : Stands start c ms) : c.supervision.isSome = true := by
  cases h with
  | between hv | calling hv => rw [hv]; rfl

theorem Stands.wait_ne_reply (h : Stands start c ms) {a : Activity} (n : Nat)
    (ha : c.ticker.activity? = some a) : a.wait ≠ .reply n := by
  cases h with
  | between _ _ hk =>
    rcases hk with hk | ⟨deadline, hk⟩ <;> rw [hk] at ha <;> cases ha
  | calling _ _ _ hk _ ho =>
    rw [hk] at ha
    cases ha
    exact ho.wait_ne_reply n

theorem Stands.congr (h : Stands start c ms) (hv : d.supervision = c.supervision)
    (hk : d.ticker = c.ticker) (hc : d.checks = c.checks) : Stands start d ms := by
  cases h with
  | between hs ht hk' hg =>
    exact .between (hv.trans hs) (by rw [hc]; exact ht) (by rwa [hk]) (by rwa [hc])
  | calling hs hc' ht hk' hg ho hp =>
    exact .calling (hv.trans hs) (hc.trans hc') ht (hk.trans hk') hg ho hp

theorem tells_of_sends {ms' : List Message} (h : Sends c d .ticker ms ms')
    (hd : d.mailbox.closed = c.mailbox.closed) (hc : d.checks = c.checks)
    (he : c.mailbox.closed = false →
      c.said .ticker ++ ms = (story start files 0 c.checks).map Prod.snd)
    (ho : d.mailbox.closed = false) :
    d.said .ticker ++ ms' = (story start files 0 d.checks).map Prod.snd := by
  rw [hd] at ho
  rw [hc, ← he ho]
  cases h with
  | nothing hp => rw [said_congr hp]
  | accepted hms _ hp =>
    rw [said_append hp, if_pos rfl, hms, List.append_assoc, List.singleton_append]
  | refused _ hn => rw [ho] at hn; cases hn

theorem Stands.of_checking (h : Stands start c ms) (hv : c.supervision = some v)
    (hk : c.ticker = .checking) : ms = [] ∧ v.tally = ⟨c.checks.length, 0⟩ ∧
      goesOn start 0 (c.checks.map Prod.snd) = true := by
  cases h with
  | between hu ht _ hg =>
    obtain rfl := Option.some.inj (hv.symm.trans hu)
    exact ⟨rfl, ht, hg⟩
  | calling _ _ _ hn => rw [hk] at hn; cases hn

theorem Stands.of_calling {request : Option Request} {a : Activity} (h : Stands start c ms)
    (hv : c.supervision = some v) (hk : c.ticker = .calling request a) :
    ∃ older time, c.checks = older ++ [(time, request)] ∧
      v.tally = Tally.next ⟨older.length, 0⟩ request ∧
        goesOn start 0 (older.map Prod.snd) = true ∧ a.Owes ms ∧
          (closes start older.length request = true → a.program.any Statement.parks = true) := by
  cases h with
  | between _ _ hn => rw [hk] at hn; rcases hn with hn | ⟨_, hn⟩ <;> cases hn
  | calling hu hc ht hk' hg ho hp =>
    rw [hk] at hk'
    cases hk'
    obtain rfl := Option.some.inj (hv.symm.trans hu)
    exact ⟨_, _, hc, ht, hg, ho, hp⟩

theorem Stands.not_crashed {request : Option Request} {a : Activity} (hs : Stands start c ms)
    (hv : c.supervision = some v) (hk : c.ticker = .calling request a) (ht : c.terminated = false)
    (hd : Pursuit c .ticker a
      (Event.call v.job request (v.tally.number request) ∘ .finished) d .crashed) : False := by
  obtain ⟨older, time, -, -, -, ho, -⟩ := hs.of_calling hv hk
  rcases hd.owes ho ht (by rw [hv]; rfl) fun _ => rfl with ⟨hp, -⟩ | ⟨_, _, _, -, -, hp, -⟩
  · cases hp
  · rcases hp with hp | hp <;> cases hp

section Turn

variable (hs : Stands start c ms) (hv : c.supervision = some v)
  (he : c.mailbox.closed = false →
    c.said .ticker ++ ms = (story start files 0 c.checks).map Prod.snd)

include hs hv he

theorem Stands.beginCall (hj : c.job v.job = FileCopy.job start files)
    (hk : c.ticker = .checking) :
    ∃ ms', Stands start (c.beginCall v) ms' ∧ ((c.beginCall v).mailbox.closed = false →
      (c.beginCall v).said .ticker ++ ms' =
        (story start files 0 (c.beginCall v).checks).map Prod.snd) := by
  obtain ⟨-, hv', hk'⟩ := c.beginCall_spec v
  have hchecks := c.checks_beginCall v
  obtain ⟨rfl, htally, hg⟩ := hs.of_checking hv hk
  have hlen : (c.checks.map Prod.snd).length = c.checks.length := List.length_map _
  rw [hj, htally, ← hlen] at hk'
  refine ⟨_, .calling hv' hchecks (by rw [htally]) hk' hg (.fresh (spells_call hg))
    fun hc => ?_, fun ho => ?_⟩
  · rw [← hlen] at hc
    exact parks_call hg hc
  · have hclosed : (c.beginCall v).mailbox.closed = c.mailbox.closed :=
      (beside_beginCall c v).closed
    have hsaid := said_congr (mute_beginCall c v).posted .ticker
    have heq := he (hclosed.symm.trans ho)
    rw [List.append_nil] at heq
    rw [hsaid, heq, hchecks, story_concat, if_pos hg, List.map_append, List.map_map, hlen,
      Nat.zero_add]
    congr 1
    exact (List.map_id _).symm

variable {request : Option Request} {a : Activity} (hk : c.ticker = .calling request a)

include hk

theorem Stands.pursuit {pace : Pace} (ht : c.terminated = false) (hd : Pursuit c .ticker a
      (Event.call v.job request (v.tally.number request) ∘ .finished) d pace)
    (hp : pace = .resting ∨ pace = .moving) :
    ∃ ms', Stands start d ms' ∧ (d.mailbox.closed = false →
      d.said .ticker ++ ms' = (story start files 0 d.checks).map Prod.snd) := by
  have hsteady := (hd.opens fun _ => rfl).steady (by rw [hv]; rfl)
  obtain ⟨older, time, hc, htally, hg, ho, hpark⟩ := hs.of_calling hv hk
  rcases hd.owes ho ht (by rw [hv]; rfl) fun _ => rfl with
    ⟨rfl, -⟩ | ⟨e, b, ms', rfl, hke, -, hb, hm, hpb⟩
  · rcases hp with hp | hp <;> cases hp
  · refine ⟨ms', .calling (hsteady.supervision.trans hv) (hsteady.checks_eq.trans hc) htally
      ?_ hg hb fun hcl => hpb (hpark hcl),
      tells_of_sends hm hd.beside.closed hsteady.checks_eq he⟩
    change e.ticker.setActivity b = _
    rw [hke, hk]
    rfl

theorem Stands.endCall (hd : Pursuit c .ticker a
      (Event.call v.job request (v.tally.number request) ∘ .finished) d .ended) :
    let e := (d.record (.call v.job request (v.tally.number request) .ended)).pause
    ∃ ms', Stands start e ms' ∧ (e.mailbox.closed = false →
      e.said .ticker ++ ms' = (story start files 0 e.checks).map Prod.snd) := by
  obtain rfl := hd.stop_eq (.inl rfl)
  obtain ⟨older, time, hc, htally, hg, ho, hpark⟩ := hs.of_calling hv hk
  cases hd with
  | ended hprogram =>
    -- Nothing is left of the call, so it was none that ends the copy.
    have hopen : closes start older.length request = false := by
      cases hcl : closes start older.length request with
      | false => rfl
      | true =>
        have hany := hpark hcl
        rw [hprogram] at hany
        cases hany
    obtain rfl := ho.eq_nil hprogram
    have hchecks :
        (d.record (.call v.job request (v.tally.number request) .ended)).pause.checks = d.checks :=
      d.checks_ended v request
    have hmute :
        Mute d (d.record (.call v.job request (v.tally.number request) .ended)).pause :=
      (mute_record d rfl).trans (mute_pause _)
    have hsaid := said_congr hmute.posted .ticker
    refine ⟨[], .between hv ?_ (.inr ⟨_, rfl⟩) ?_, fun ho => ?_⟩
    · rw [hchecks, hc, List.length_append, htally, (not_closes hopen).1]
      rfl
    · rw [hchecks, hc, List.map_append, List.map_singleton, goesOn_concat, hg, List.length_map,
        Nat.zero_add, hopen]
      rfl
    · rw [hsaid, hchecks]
      exact he ho

end Turn

theorem TickerTurn.stands (h : TickerTurn c d more) (ht : c.terminated = false)
    (hs : Stands start c ms) (hv : c.supervision = some v)
    (hj : c.job v.job = FileCopy.job start files)
    (he : c.mailbox.closed = false →
      c.said .ticker ++ ms = (story start files 0 c.checks).map Prod.snd) :
    ∃ ms', Stands start d ms' ∧ (d.mailbox.closed = false →
      d.said .ticker ++ ms' = (story start files 0 d.checks).map Prod.snd) := by
  have hsame {w : Supervision} (hw : c.supervision = some w) : w = v :=
    Option.some.inj (hw.symm.trans hv)
  cases h with
  | off h =>
    rcases h with h | h
    · rw [hv] at h; cases h
    · cases hs with
      | between _ _ hk => rw [h] at hk; rcases hk with hk | ⟨_, hk⟩ <;> cases hk
      | calling _ _ _ hk => rw [h] at hk; cases hk
  | stop _ _ hn => rw [ht] at hn; cases hn
  | call hw hk =>
    obtain rfl := hsame hw
    exact hs.beginCall hv he hj hk
  | on hw hk _ hd hp =>
    obtain rfl := hsame hw
    exact hs.pursuit hv he hk ht hd hp
  | ended hw hk _ hd =>
    obtain rfl := hsame hw
    exact hs.endCall hv he hk hd
  | crashed hw hk _ hd =>
    obtain rfl := hsame hw
    exact (hs.not_crashed hv hk ht hd).elim
  | due hk =>
    cases hs with
    | between hu htally _ hg => exact ⟨[], .between hu htally (.inl rfl) hg, he⟩
    | calling _ _ _ hn => rw [hk] at hn; cases hn
  | asleep => exact ⟨ms, hs, he⟩

/-! The jobs stay what they are. -/

theorem Supervised.jobs_eq {k : Nat} {interactive first : Bool}
    (h : Supervised c k interactive d first) : d.jobs = c.jobs := by
  cases h <;> rfl

theorem Deed.jobs_eq {s : Statement} {w : Wait} {stage : Stage} (h : Deed c id s w d stage) :
    d.jobs = c.jobs := by
  cases h with
  | park =>
    obtain ⟨parked, he⟩ := c.park_eq id
    rw [he]
  | @supervise k interactive => exact (c.supervise_cases k interactive).jobs_eq
  | _ => rfl

theorem Pursuit.jobs_eq {a : Activity} {note : Outcome → Event} {pace : Pace}
    (h : Pursuit c id a note d pace) : d.jobs = c.jobs := by
  have hset (e : Console) (b : Activity) : (e.setActivity id b).jobs = e.jobs := by
    obtain ⟨producers, ticker, he⟩ := e.setActivity_eq id b
    rw [he]
  cases h with
  | ended => rfl
  | crashed _ he => exact (deed_of_perform he).jobs_eq
  | rested _ he | moved _ he | followed _ he | finished _ he =>
    exact (hset _ _).trans (deed_of_perform he).jobs_eq

theorem CallTurn.jobs_eq {request : Option Request} {a : Activity}
    (h : CallTurn c v request a d more) : d.jobs = c.jobs := by
  cases h with
  | on hd => exact hd.jobs_eq
  | ended hd => exact hd.jobs_eq
  | crashed hd => cases request <;> exact hd.jobs_eq

theorem TickerTurn.jobs_eq (h : TickerTurn c d more) : d.jobs = c.jobs := by
  cases h with
  | @call w =>
    obtain ⟨request, supervision, ticker, journal, he⟩ := c.beginCall_eq w
    rw [he]
  | on _ _ _ hd hp => exact (CallTurn.on hd hp).jobs_eq
  | ended _ _ _ hd => exact (CallTurn.ended hd).jobs_eq
  | crashed _ _ _ hd => exact (CallTurn.crashed hd).jobs_eq
  | _ => rfl

theorem turn_jobs (c : Console) (id : TaskId) : (c.turn id).1.jobs = c.jobs := by
  cases id with
  | printer =>
    obtain ⟨_, _, _, _, _, _, _, _, _, _, he⟩ := (printerTurn_cases c).frame
    rw [turn, he]
  | signalWatch =>
    obtain ⟨_, _, _, he⟩ := (signalWatchTurn_cases c).frame
    rw [turn, he]
  | keywordWatch =>
    obtain ⟨_, _, _, _, _, he⟩ := (keywordWatchTurn_cases c).frame
    rw [turn, he]
  | ticker => exact (tickerTurn_cases c).jobs_eq
  | producer n =>
    have ht := producerTurn_cases c n
    rw [turn]
    generalize (c.producerTurn n).1 = d, (c.producerTurn n).2 = more at ht ⊢
    cases ht with
    | off => rfl
    | on _ hd => exact hd.jobs_eq
    | quit _ hd => exact hd.jobs_eq

theorem jobs_act (c : Console) (m : Move) : (c.act m).jobs = c.jobs := by
  cases m with
  | step id =>
    obtain ⟨ready, he⟩ := c.turn_eq_step id
    rw [act, he]
    exact c.turn_jobs id
  | kill n =>
    rw [act, kill]
    split <;> rfl
  | raise s =>
    rw [act, raise]
    split <;> rfl
  | start k interactive => exact (c.supervise_cases k interactive).jobs_eq
  | _ => rfl

theorem jobs_work (c : Console) (id : TaskId) : (c.work id).jobs = c.jobs := by
  rcases c.work_cases id with ⟨v, request, a, -, hv, hk, he⟩ | ⟨-, he⟩ <;> rw [he]
  · exact (callTurn_cases c v request a).jobs_eq
  · exact turn_jobs { c with terminated := false } id

theorem job_congr {k l : Nat} (hj : d.jobs = c.jobs) (hk : k = l) : d.job k = c.job l := by
  rw [Console.job, hj, hk, Console.job]

/-! All strides. -/

theorem closed_act (h : Staged c) (hc : c.mailbox.closed = true) (m : Move) :
    (c.act m).mailbox.closed = true := by
  have hgone : c.printer = .stopped ∨ c.printer = .crashed := by
    cases h with
    | running _ _ ho => rw [hc] at ho; cases ho
    | stopped hp => exact .inl hp
    | crashed hp => exact .inr hp
  have hp := act_gone hgone m
  rw [← hp] at hgone
  cases h.act m with
  | running hs hn => exact absurd hgone (not_or.2 ⟨hs, hn⟩)
  | stopped _ hb => exact hb.closed
  | crashed _ hb => exact hb.closed

theorem Copying.later (h : c.said .ticker <+: (story start files 0 c.checks).map Prod.snd)
    (hd : d.said .ticker = c.said .ticker) (hc : c.checks <+: d.checks) (ht : d.terminated = true) :
    Copying start files d := by
  obtain ⟨more, hc⟩ := hc
  refine ⟨?_, fun hn => by rw [ht] at hn; cases hn⟩
  rw [hd, ← hc]
  exact h.trans (prefix_story.map Prod.snd)

theorem Copying.opened {k : Nat} {interactive : Bool} (hs : c.supervision = none)
    (hc : c.checks = []) (hn : c.said .ticker = []) (h : Steady (c.supervise k interactive).1 d)
    (hd : d.said .ticker = c.said .ticker) : Copying start files d := by
  have hchecks : d.checks = [] := by rw [h.checks_eq, checks_supervise, hc]
  have hopen : (c.supervise k interactive).1.supervision = some { job := k } ∧
      (c.supervise k interactive).1.ticker = .checking := by
    have hv := c.supervise_cases k interactive
    generalize (c.supervise k interactive).1 = e, (c.supervise k interactive).2 = first at hv ⊢
    cases hv with
    | already hv => rw [hs] at hv; cases hv
    | started => exact ⟨rfl, rfl⟩
  have hticker := h.ticker_eq (by rw [hopen.2]; rfl)
  refine ⟨by rw [hd, hn]; exact List.nil_prefix, fun _ => ⟨[], ?_, fun _ => ?_⟩⟩
  · refine .between (h.supervision.trans hopen.1) ?_ (.inl (hticker.trans hopen.2)) ?_
    · rw [hchecks]
      rfl
    · rw [hchecks]
      rfl
  · rw [hd, hn, hchecks]
    rfl

theorem Copying.aside (h : Copying start files c) (ht : c.terminated = false)
    (hv : d.supervision = c.supervision)
    (hk : (∀ a n, c.ticker.activity? = some a → a.wait ≠ .reply n) → d.ticker = c.ticker)
    (hc : d.checks = c.checks) (hs : d.said .ticker = c.said .ticker)
    (hclosed : c.mailbox.closed = true → d.mailbox.closed = true) : Copying start files d := by
  obtain ⟨ms, hstands, he⟩ := h.stands ht
  refine ⟨by rw [hs, hc]; exact h.said, fun _ => ⟨ms, ?_, fun ho => ?_⟩⟩
  · exact hstands.congr hv (hk fun a n => hstands.wait_ne_reply n) hc
  · rw [hs, hc]
    refine he ?_
    cases hn : c.mailbox.closed with
    | false => rfl
    | true => rw [hclosed hn] at ho; cases ho

/-- The ticker has said nothing before there is a supervision, and a copy under supervision keeps
to its story. -/
def Faithful (start files : UInt32) (c : Console) : Prop :=
  (c.supervision = none → c.said .ticker = []) ∧
    ∀ v, c.supervision = some v → c.job v.job = FileCopy.job start files → Copying start files c

theorem Hires.supervision {x : Option Attempt} (h : Hires c d x) (hj : d.jobs = c.jobs)
    (hv : d.supervision = some v) :
    c.supervision = none ∨ ∃ u, c.supervision = some u ∧ c.job u.job = d.job v.job := by
  cases hu : c.supervision with
  | none => exact .inl rfl
  | some u =>
    have hcharge := h.charge
    rw [Console.charge, Console.charge, hv, hu] at hcharge
    exact .inr ⟨u, rfl, (job_congr hj (Option.some.inj hcharge)).symm⟩

theorem Hires.unsupervised {x : Option Attempt} (h : Hires c d x) (hd : d.supervision = none) :
    c.supervision = none := by
  have hcharge := h.charge
  rw [Console.charge, hd] at hcharge
  exact Option.map_eq_none_iff.1 (Option.or_eq_none_iff.1 hcharge.symm).1

theorem TickerTurn.copying (h : TickerTurn c d more) (hc : Copying start files c)
    (ht : c.terminated = false) (hv : c.supervision = some v)
    (hj : c.job v.job = FileCopy.job start files) : Copying start files d := by
  obtain ⟨ms, hstands, he⟩ := hc.stands ht
  obtain ⟨ms', hd, he'⟩ := h.stands ht hstands hv hj he
  refine ⟨?_, fun _ => ⟨ms', hd, he'⟩⟩
  cases ho : d.mailbox.closed with
  | false => exact ⟨ms', he' ho⟩
  | true =>
    obtain ⟨more, hchecks⟩ := h.paces.prefix_checks
    have hclosed := h.beside.closed.symm.trans ho
    rw [said_congr (h.speaks.posted_of_closed hclosed), ← hchecks]
    exact hc.said.trans (prefix_story.map Prod.snd)

theorem Faithful.act_ticker (h : Faithful start files c) (ht : c.terminated = false) :
    Faithful start files (c.act (.step .ticker)) := by
  have hturn := tickerTurn_cases c
  have hhires := c.act_hires (.step .ticker)
  have hjobs := c.jobs_act (.step .ticker)
  obtain ⟨ready, he⟩ := c.turn_eq_step .ticker
  rw [act, he] at hhires hjobs ⊢
  rw [turn] at hhires hjobs ⊢
  generalize c.tickerTurn.1 = d, c.tickerTurn.2 = more at hturn hhires hjobs ⊢
  have hidle (hn : c.supervision = none) :
      d.supervision = none ∧ d.said .ticker = c.said .ticker := by
    cases hturn with
    | off | due | asleep => exact ⟨hn, rfl⟩
    | stop hs | call hs | on hs | ended hs | crashed hs => rw [hn] at hs; cases hs
  refine ⟨fun hd => ?_, fun w hw hj => ?_⟩
  · have hn := hhires.unsupervised hd
    exact (hidle hn).2.trans (h.1 hn)
  · rcases hhires.supervision hjobs hw with hn | ⟨u, hu, hju⟩
    · rw [(hidle hn).1] at hw
      cases hw
    · have hd := hturn.copying (h.2 u hu (hju.trans hj)) ht hu (hju.trans hj)
      exact hd.aside (hturn.beside.terminated.trans ht) rfl (fun _ => rfl) rfl rfl fun ho => ho

theorem Faithful.act_terminated (h : Faithful start files c) (hc : c.Attainable)
    (ht : c.terminated = true) {m : Move} (ha : c.allows m) : Faithful start files (c.act m) := by
  have hsaid := said_congr (posted_act_of_terminated hc.staged ht m) .ticker
  have hchecks := (paces_act ha).prefix_checks
  have hd := Console.act_terminated hc.staged ht m
  have hhires := c.act_hires m
  refine ⟨fun hn => hsaid.trans (h.1 (hhires.unsupervised hn)), fun w hw hj => ?_⟩
  rcases hhires.supervision (c.jobs_act m) hw with hn | ⟨u, hu, hju⟩
  · have hnil := h.1 hn
    exact .later (by rw [hnil]; exact List.nil_prefix) hsaid hchecks hd
  · exact .later (h.2 u hu (hju.trans hj)).said hsaid hchecks hd

theorem Faithful.work (h : Faithful start files c) (hc : c.Attainable) (ht : c.terminated = true)
    (hi : id ∈ watchers) : Faithful start files (c.work id) := by
  have hsaid := said_congr (posted_work_of_terminated hc.staged ht hi) .ticker
  have hchecks := (c.paces_work id).prefix_checks
  have hd := (beside_work c hi).terminated.trans ht
  have hhires := c.work_hires hi
  refine ⟨fun hn => hsaid.trans (h.1 (hhires.unsupervised hn)), fun w hw hj => ?_⟩
  rcases hhires.supervision (c.jobs_work id) hw with hn | ⟨u, hu, hju⟩
  · have hnil := h.1 hn
    exact .later (by rw [hnil]; exact List.nil_prefix) hsaid hchecks hd
  · exact .later (h.2 u hu (hju.trans hj)).said hsaid hchecks hd

theorem Faithful.act_others (h : Faithful start files c) (hc : c.Attainable)
    (ht : c.terminated = false) {m : Move} (hm : m ≠ .step .ticker) :
    Faithful start files (c.act m) := by
  have hsaid : (c.act m).said .ticker = c.said .ticker := said_act hm
  have hclosed := fun ho => closed_act hc.staged ho m
  have hhires := c.act_hires m
  have hjobs := c.jobs_act m
  by_cases hp : ∃ time, m = .pass time
  · obtain ⟨time, rfl⟩ := hp
    exact ⟨h.1, fun v hv hj => (h.2 v hv hj).aside ht rfl (fun _ => rfl) rfl rfl fun ho => ho⟩
  · have hopens : Opens c (c.act m) := act_opens hm fun time he => hp ⟨time, he⟩
    refine ⟨fun hn => hsaid.trans (h.1 (hhires.unsupervised hn)), fun w hw hj => ?_⟩
    rcases hhires.supervision hjobs hw with hn | ⟨u, hu, hju⟩
    · rcases hopens with hs | ⟨k, interactive, hs⟩
      · rw [hs.supervision, hn] at hw
        cases hw
      · exact .opened hn (checks_of_unsupervised hc.spaced hn) (h.1 hn) hs hsaid
    · have hs : c.supervision.isSome := by rw [hu]; rfl
      have hsteady := hopens.steady hs
      exact (h.2 u hu (hju.trans hj)).aside ht hsteady.supervision (Console.act_ticker hm hs)
        hsteady.checks_eq hsaid hclosed

theorem Attainable.faithful (h : c.Attainable) (start files : UInt32) :
    Faithful start files c := by
  refine h.invariant (fun h₀ => ?_) (fun c m hc ha hf => ?_)
    fun c id hc hi _ ht hf => hf.work hc ht hi
  · obtain ⟨-, rfl⟩ := new?_eq_some.1 h₀
    exact ⟨fun _ => rfl, nofun⟩
  · cases ht : c.terminated with
    | true => exact hf.act_terminated hc ht ha
    | false =>
      by_cases hm : m = .step .ticker
      · rw [hm]
        exact hf.act_ticker ht
      · exact hf.act_others hc ht hm

/-- A copy under supervision keeps to its story. -/
theorem Attainable.copying (h : c.Attainable) (hv : c.supervision = some v)
    (hj : c.job v.job = FileCopy.job start files) : Copying start files c :=
  (h.faithful start files).2 v hv hj

end Console

end JobConsole
