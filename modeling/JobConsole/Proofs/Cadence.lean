import JobConsole.Proofs.Requests
import JobConsole.Proofs.Tempo

/-!
Cadence: on a virtual clock the calls to the job keep time. The first one begins with the
supervision, and every other one a period after the end of the call before, however it ended. So a
request to cancel is taken at a time that is known when it enters.
-/

namespace JobConsole

def Beat.begins : Beat → Bool
  | began _ => true
  | _ => false

def begins (bs : List (Nat × Beat)) : List Nat :=
  (bs.filter (·.2.begins)).map Prod.fst

/-- Whether a call has nothing left to do, or is about to crash. -/
def Activity.isOver (a : Activity) : Bool :=
  match a.program, a.wait with
  | [], _ | .crash _ :: _, .fresh => true
  | _, _ => false

/-- The earliest time at which a call can begin. -/
def Tempo.floor (period : Nat) : Tempo → Nat
  | still => 0
  | due time => time
  | calling since => since + period

variable {period : Nat} {p q : Tempo} {bs : List (Nat × Beat)}

theorem Cadence.apart (h : Cadence period p bs q) :
    (∀ t ∈ begins bs, p.floor period ≤ t) ∧
      (begins bs).Pairwise fun s t => s + period ≤ t := by
  induction h with
  | nil => exact ⟨nofun, .nil⟩
  | start _ ih => exact ⟨fun t _ => Nat.zero_le t, ih.2⟩
  | @began time request bs p _ ih =>
    have hb : begins ((time, .began request) :: bs) = time :: begins bs := rfl
    rw [hb]
    refine ⟨fun t ht => ?_, List.pairwise_cons.2 ih⟩
    rcases List.mem_cons.1 ht with rfl | ht
    · exact Nat.le_refl _
    · exact Nat.le_trans (Nat.le_add_right _ _) (ih.1 t ht)
  | ended hs _ ih => exact ⟨fun t ht => Nat.le_trans (Nat.add_le_add_right hs _) (ih.1 t ht), ih.2⟩

/-! What becomes of a request. -/

theorem Event.beat?_of_began? {e : Event} {r : Option Request} (h : e.began? = some r) :
    e.beat? = some (.began r) := by
  cases e with
  | call k request n note => cases note <;> cases h; rfl
  | _ => cases h

theorem Event.eq_of_beat? {e : Event} {r : Option Request} (h : e.beat? = some (.began r)) :
    ∃ k n, e = .call k r n .began := by
  cases e with
  | call k request n note => cases note <;> cases h; exact ⟨k, n, rfl⟩
  | logged d => cases d <;> cases h
  | _ => cases h

theorem foldl_pass_of_ended {es : List Entry} {r : Request}
    (h : ∀ x ∈ es.filterMap Entry.beat?, x.2 = .ended) :
    (es.map Entry.event).foldl pass (some r) = some r := by
  induction es with
  | nil => rfl
  | cons e es ih =>
    have hb : e.event.began? = none := by
      cases hq : e.event.began? with
      | none => rfl
      | some q =>
        have he : e.beat? = some (e.time, .began q) := by
          rw [Entry.beat?, Event.beat?_of_began? hq, Option.map_some]
        cases h _ (List.mem_filterMap.2 ⟨e, List.mem_cons_self, he⟩)
    have hp : pass (some r) e.event = some r := by simp [pass, hb]
    rw [List.map_cons, List.foldl_cons, hp]
    refine ih fun x hx => h x ?_
    obtain ⟨y, hy, he⟩ := List.mem_filterMap.1 hx
    exact List.mem_filterMap.2 ⟨y, List.mem_cons_of_mem e hy, he⟩

theorem Taking.began_eq {new : List Entry} {r : Request} {pre post : List (Nat × Beat)}
    {time : Nat} {request : Option Request} (ht : Taking (some r) (new.reverse.map Entry.event))
    (hb : beats new = pre ++ (time, .began request) :: post) (hpre : ∀ x ∈ pre, x.2 = .ended) :
    request = some r := by
  obtain ⟨xs, ys, hxs, rfl, hys⟩ := List.filterMap_eq_append_iff.1 hb
  obtain ⟨zs, e, ws, rfl, hzs, he, -⟩ := List.filterMap_eq_cons_iff.1 hys
  obtain ⟨b, hb, hx⟩ := Option.map_eq_some_iff.1 he
  cases hx
  obtain ⟨k, n, hk⟩ := e.event.eq_of_beat? hb
  have hended : ∀ x ∈ (xs ++ zs).filterMap Entry.beat?, x.2 = .ended := by
    rw [List.filterMap_append, List.filterMap_eq_nil_iff.2 hzs, List.append_nil]
    exact hpre
  rw [ht ((xs ++ zs).map Entry.event) k request n (ws.map Entry.event) (by simp [hxs, hk])]
  exact foldl_pass_of_ended hended

def Move.isTimeless : Move → Bool
  | step _ | pass _ | start .. => false
  | _ => true

namespace Console

/-- On a virtual clock time passes only while no task can run, and never beyond a timer. -/
def keepsTime (c : Console) : Move → Bool
  | .pass time => c.ready.isEmpty && c.timers.all (time ≤ ·.deadline)
  | _ => true

inductive Clocked (c₀ : Console) : List Move → Console → Prop
  | start : Clocked c₀ [] c₀
  | next {moves : List Move} {c : Console} (m : Move) (h : Clocked c₀ moves c) (ha : c.allows m)
      (hk : c.keepsTime m) : Clocked c₀ (moves ++ [m]) (c.act m)

def punctual (c : Console) : List Move → Bool
  | [] => true
  | m :: moves => c.allows m && c.keepsTime m && (c.act m).punctual moves

variable {c₀ c d : Console} {moves : List Move}

theorem Clocked.run (h : Clocked c₀ moves c) : Run c₀ moves c := by
  induction h with
  | start => exact .start
  | next m _ ha _ ih => exact .next m ih ha

theorem Clocked.append {ns : List Move} (h : Clocked c₀ moves c) (hd : Clocked c ns d) :
    Clocked c₀ (moves ++ ns) d := by
  induction hd with
  | start => rwa [List.append_nil]
  | next m _ ha hk ih => rw [← List.append_assoc]; exact .next m ih ha hk

theorem Clocked.of_punctual {c : Console} :
    ∀ {moves : List Move}, c.punctual moves → Clocked c moves (c.play moves)
  | [], _ => .start
  | m :: moves, h => by
    simp only [punctual, Bool.and_eq_true] at h
    exact Clocked.append (.next m .start h.1.1 h.1.2) (Clocked.of_punctual h.2)

theorem goes_ring {time : Nat} (ha : c.now ≤ time) (hk : c.keepsTime (.pass time)) :
    Goes c (c.ring time) := by
  simp only [keepsTime, Bool.and_eq_true, List.isEmpty_iff, List.all_eq_true,
    decide_eq_true_eq] at hk
  obtain ⟨hr, ht⟩ := hk
  refine ⟨rfl, [], rfl, fun p hp => ⟨p, .nil p, ?_⟩⟩
  cases hp with
  | still hs => exact .still hs
  | @asleep deadline hs hk hn hm =>
    have hle : time ≤ deadline := ht _ hm
    rcases Nat.lt_or_eq_of_le hle with hlt | rfl
    · exact .asleep hs hk hlt (List.mem_filter.2 ⟨hm, by simpa using hlt⟩)
    · refine .roused (c := c.ring time) hs (.inr hk) (mem_foldl_enlist.2 (.inr ?_))
      exact List.mem_map.2 ⟨_, List.mem_filter.2 ⟨hm, by simp⟩, rfl⟩
  | roused _ _ hi => rw [hr] at hi; cases hi
  | calling hs hk hn => exact .calling hs hk (Nat.le_trans hn ha)

/-! What comes from outside. -/

theorem steady_kill (c : Console) (n : Nat) : Steady c (c.kill n) := by
  have hw : Steady c (c.withdraw (.producer n)) := by
    refine ⟨rfl, rfl, rfl, fun _ => rfl, fun h => ?_, fun t h hk => ?_, [], rfl, rfl⟩
    · exact mem_foldl_enlist.2 (.inl ((List.mem_erase_of_ne (by simp)).2 h))
    · exact List.mem_filter.2 ⟨h, by simp [hk]⟩
  unfold kill
  split
  · exact .refl c
  · exact hw.trans (steady_endProducer _ n)

theorem steady_raise (c : Console) (s : Signal) : Steady c (c.raise s) := by
  have hv (v : SignalWatch) : Steady c { c with signalWatch := v } :=
    .aside rfl rfl rfl rfl rfl rfl fun h => h
  unfold raise
  split
  · exact (hv _).trans (steady_wakeAll _ [.signalWatch])
  · exact .refl c

theorem steady_wakeReader (c : Console) (source : Source) :
    Steady c (wakeReader { c with reader.source := source }) :=
  .trans (d := { c with reader.source := source }) (.aside rfl rfl rfl rfl rfl rfl fun h => h)
    (steady_wakeAll _ _)

theorem steady_act {m : Move} (h : m.isTimeless = true) : Steady c (c.act m) := by
  cases m with
  | step | pass | start => cases h
  | spawn p =>
    have hp : Steady c { c with producers := c.producers ++ [some { program := p }] } :=
      .aside rfl rfl rfl rfl rfl rfl fun h => h
    exact hp.trans (steady_wakeAll _ [.producer c.producers.length])
  | kill n => exact c.steady_kill n
  | feed piece => exact c.steady_wakeReader _
  | close => exact c.steady_wakeReader _
  | raise s => exact c.steady_raise s
  | setSink sink =>
    have hs : Steady c { c with display.sink := sink } := .aside rfl rfl rfl rfl rfl rfl fun h => h
    exact hs.record (x := .sinkChanged sink) rfl
  | deafen cause => exact .aside rfl rfl rfl rfl rfl rfl fun h => h
  | release =>
    have hs : Steady c { c with hosted := false } := .aside rfl rfl rfl rfl rfl rfl fun h => h
    exact hs.trans (steady_letGo _)

theorem act_goes {m : Move} (ht : c.terminated = false) (ha : c.allows m) (hk : c.keepsTime m) :
    Goes c (c.act m) := by
  cases m with
  | step id => exact step_goes ht (by simpa [allows] using ha)
  | pass time => exact goes_ring (by simpa [allows] using ha) hk
  | start k interactive =>
    exact (c.supervise_cases k interactive).goes.trans ((Steady.refl _).record rfl).goes
  | _ => exact Steady.goes (steady_act rfl)

/-! Runs. -/

theorem Clocked.goes (h : Clocked c moves d) (hc : c.Reachable) (ht : d.terminated = false) :
    Goes c d := by
  induction h with
  | start => exact (Steady.refl c).goes
  | @next moves d m h ha hk ih =>
    have hd : d.terminated = false := by
      cases hd : d.terminated with
      | false => rfl
      | true => rw [act_terminated (hc.run h.run).attainable.staged hd m] at ht; cases ht
    exact (ih hd).trans (act_goes hd ha hk)

theorem Run.passes (h : Run c moves d) : Passes c d := by
  induction h with
  | start => exact .same rfl rfl
  | next m _ _ ih => exact ih.trans (passes_act _ m)

/-- What a later console makes of a request that was in place: it is there until the call is due,
and it is taken by this call. -/
inductive Obeys (d : Console) (r : Request) (time : Nat) : List (Nat × Beat) → Prop
  | waits (hr : d.request = some r) (hn : d.now < time ∨ d.now = time ∧ .ticker ∈ d.ready) :
      Obeys d r time []
  | taken (more : List (Nat × Beat)) : Obeys d r time ((time, .began (some r)) :: more)

theorem obeys_of_cadence {new : List Entry} {r : Request} {time : Nat} (pre : List (Nat × Beat))
    (h : Cadence period (.due time) bs q) (hq : d.Awaits q) (hb : beats new = pre ++ bs)
    (hpre : ∀ x ∈ pre, x.2 = .ended) (ht : Taking (some r) (new.reverse.map Entry.event))
    (hr : d.request = (new.reverse.map Entry.event).foldl pass (some r)) : Obeys d r time bs := by
  cases h with
  | nil =>
    rw [List.append_nil] at hb
    refine .waits (hr.trans (foldl_pass_of_ended (by rwa [← beats, hb]))) ?_
    cases hq with
    | asleep _ _ hn => exact .inl hn
    | roused _ _ hi => exact .inr ⟨rfl, hi⟩
  | began =>
    rw [ht.began_eq hb hpre]
    exact .taken _

theorem Awaits.eq_due {time : Nat} (h : c.Awaits p) (hs : c.supervision.isSome)
    (hk : c.ticker = .sleeping time) : p = .due time := by
  cases h with
  | still hn => rw [hn] at hs; cases hs
  | asleep _ hn => rw [hk] at hn; cases hn; rfl
  | roused _ hn =>
    rw [hk] at hn
    rcases hn with hn | hn <;> cases hn
    rfl
  | calling _ hn => rw [hk] at hn; cases hn

theorem Awaits.mem_ready (h : c.Awaits p) (hs : c.supervision.isSome)
    (hk : c.ticker = .checking ∨ c.ticker = .sleeping c.now) : .ticker ∈ c.ready := by
  cases h with
  | still hn => rw [hn] at hs; cases hs
  | asleep _ hn hlt =>
    rw [hn] at hk
    rcases hk with hk | hk <;> cases hk
    omega
  | roused _ _ hr => exact hr
  | calling _ hn => rw [hn] at hk; rcases hk with hk | hk <;> cases hk

theorem Awaits.eq_calling {request : Option Request} {a : Activity} (h : c.Awaits p)
    (hs : c.supervision.isSome) (hk : c.ticker = .calling request a) :
    ∃ since, p = .calling since := by
  cases h with
  | still hn => rw [hn] at hs; cases hs
  | asleep _ hn => rw [hk] at hn; cases hn
  | roused _ hn => rw [hk] at hn; rcases hn with hn | hn <;> cases hn
  | calling => exact ⟨_, rfl⟩

/-! The ticker gets on by small steps of its own. -/

theorem step_due {time : Nat} (hs : c.supervision.isSome) (ht : c.terminated = false)
    (hk : c.ticker = .sleeping time) (hn : time ≤ c.now) :
    c.step .ticker = { c with ticker := .checking } := by
  obtain ⟨s, hs⟩ := Option.isSome_iff_exists.1 hs
  simp [step, turn, tickerTurn, hs, ht, hk, hn]

theorem begins_of_checking (hs : c.supervision.isSome) (ht : c.terminated = false)
    (hk : c.ticker = .checking) (hr : .ticker ∈ c.ready) : ∃ d, Clocked c [.step .ticker] d ∧
      beats d.journal = beats c.journal ++ [(c.now, .began c.request)] := by
  obtain ⟨s, hs⟩ := Option.isSome_iff_exists.1 hs
  obtain ⟨new, hj, hb⟩ := c.journal_beginCall s
  refine ⟨_, .next (.step .ticker) .start (decide_eq_true hr) rfl, ?_⟩
  rw [act, step_checking hs hk ht, hj, beats_append, hb]

theorem begins_of_due (hs : c.supervision.isSome) (ht : c.terminated = false)
    (hk : c.ticker = .checking ∨ c.ticker = .sleeping c.now) (hr : .ticker ∈ c.ready) :
    ∃ k d, k ≤ 2 ∧ Clocked c (List.replicate k (.step .ticker)) d ∧
      beats d.journal = beats c.journal ++ [(c.now, .began c.request)] := by
  rcases hk with hk | hk
  · obtain ⟨d, hd, hb⟩ := begins_of_checking hs ht hk hr
    exact ⟨1, d, by omega, hd, hb⟩
  · have hc : Clocked c [.step .ticker] (c.step .ticker) :=
      .next (.step .ticker) .start (decide_eq_true hr) rfl
    rw [step_due hs ht hk (Nat.le_refl _)] at hc
    obtain ⟨d, hd, hb⟩ := begins_of_checking (c := { c with ticker := .checking }) hs ht rfl hr
    exact ⟨2, d, Nat.le_refl _, hc.append hd, hb⟩

theorem pursue_over {id : TaskId} {a : Activity} {note : Outcome → Event} (h : a.isOver) :
    c.pursue id a note = (c, .ended) ∨ c.pursue id a note = (c, .crashed) := by
  obtain ⟨program, index, wait⟩ := a
  cases program with
  | nil => exact .inl rfl
  | cons s rest =>
    cases s with
    | crash text => cases wait <;> first | exact .inr rfl | cases h
    | _ => cases h

theorem continueCall_over {request : Option Request} {a : Activity} (s : Supervision)
    (h : a.isOver) : ∃ x d, x.beat? = some .ended ∧ Steady (c.record x) d ∧
      c.continueCall s request a = (d.pause, true) := by
  unfold continueCall
  rcases pursue_over h with he | he <;> dsimp only <;> rw [he]
  · exact ⟨_, _, rfl, .refl _, rfl⟩
  · exact ⟨.call s.job request (s.tally.number request) .crashed, _, rfl,
      steady_recover _ s request, rfl⟩

theorem step_over {request : Option Request} {a : Activity} (hs : c.supervision.isSome)
    (ht : c.terminated = false) (hk : c.ticker = .calling request a) (h : a.isOver) :
    (c.step .ticker).ticker = .sleeping (c.now + c.intervalMilliseconds) ∧
      beats (c.step .ticker).journal = beats c.journal ++ [(c.now, .ended)] := by
  obtain ⟨s, hs⟩ := Option.isSome_iff_exists.1 hs
  obtain ⟨x, d, hx, hd, he⟩ := @continueCall_over c request a s h
  have hstep : c.step .ticker = d.pause := by
    simp [step, turn, tickerTurn, hs, ht, hk, he]
  obtain ⟨new, hj, hb⟩ := hd.journal
  have hj : d.pause.journal = new ++ [⟨c.now, x⟩] ++ c.journal := by
    rw [List.append_assoc]
    exact hj
  rw [hstep, hj, beats_append, beats_append, hb, List.append_nil]
  constructor
  · have hnow : d.now = c.now := hd.now
    have hi : d.intervalMilliseconds = c.intervalMilliseconds :=
      intervalMilliseconds_congr hd.settings
    rw [← hnow, ← hi]
    rfl
  · simp [beats, Entry.beat?, hx]

structure Cadent (period : Nat) (c : Console) : Prop where
  positive : 1 ≤ period
  /-- All that happened fits the cadence, and what is needed for the next beat is at hand. -/
  tempo : ∃ p, Cadence period .still (beats c.journal) p ∧ c.Awaits p
  apart : (begins (beats c.journal)).Pairwise fun s t => s + period ≤ t
  prompt : c.supervision.isSome → c.ticker = .checking ∨ c.ticker = .sleeping c.now →
    ∃ k d, k ≤ 2 ∧ Clocked c (List.replicate k (.step .ticker)) d ∧
      beats d.journal = beats c.journal ++ [(c.now, .began c.request)]
  sleeps : ∀ request a, c.ticker = .calling request a → a.isOver →
    (c.step .ticker).ticker = .sleeping (c.now + period) ∧
      beats (c.step .ticker).journal = beats c.journal ++ [(c.now, .ended)]
  /-- A request that is in place while the ticker sleeps is taken when this sleep ends. -/
  asleep : ∀ time r, c.ticker = .sleeping time → c.request = some r →
    ∀ moves d, Clocked c moves d → d.terminated = false →
      ∃ new, d.journal = new ++ c.journal ∧ Obeys d r time (beats new)
  /-- One that is in place during a call is taken a period after this call is over. -/
  busy : ∀ request a r, c.ticker = .calling request a → c.request = some r →
    ∀ moves d, Clocked c moves d → d.terminated = false →
      ∃ new, d.journal = new ++ c.journal ∧
        (beats new = [] ∧ d.request = some r ∨
          ∃ time more, beats new = (time, .ended) :: more ∧ Obeys d r (time + period) more)

theorem Clocked.news {r : Request} (h : Clocked c moves d) (hc : c.Reachable)
    (ht : d.terminated = false) (hr : c.request = some r) (hp : c.Awaits p) :
    ∃ new q, d.journal = new ++ c.journal ∧
      Cadence c.intervalMilliseconds p (beats new) q ∧ d.Awaits q ∧
        Taking (some r) (new.reverse.map Entry.event) ∧
          d.request = (new.reverse.map Entry.event).foldl pass (some r) := by
  obtain ⟨-, new, hj, hg⟩ := h.goes hc ht
  obtain ⟨q, hq, hd⟩ := hg p hp
  obtain ⟨news, he, hreq, htake⟩ := h.run.passes
  have hn : news = new.reverse.map Entry.event := by
    rw [events, events, hj, List.map_append, List.reverse_append] at he
    rw [← List.append_cancel_left he, List.map_reverse]
  rw [hr, hn] at hreq htake
  exact ⟨new, q, hj, hq, hd, htake, hreq⟩

theorem Clocked.asleep {r : Request} {time : Nat} (h : Clocked c moves d) (hc : c.Reachable)
    (ht : d.terminated = false) (hr : c.request = some r) (hp : c.Awaits (.due time)) :
    ∃ new, d.journal = new ++ c.journal ∧ Obeys d r time (beats new) := by
  obtain ⟨new, q, hj, hq, hd, htake, hreq⟩ := h.news hc ht hr hp
  exact ⟨new, hj, obeys_of_cadence [] hq hd rfl (by simp) htake hreq⟩

theorem Clocked.busy {r : Request} {since : Nat} (h : Clocked c moves d) (hc : c.Reachable)
    (ht : d.terminated = false) (hr : c.request = some r) (hp : c.Awaits (.calling since)) :
    ∃ new, d.journal = new ++ c.journal ∧ (beats new = [] ∧ d.request = some r ∨
      ∃ time more, beats new = (time, .ended) :: more ∧
        Obeys d r (time + c.intervalMilliseconds) more) := by
  obtain ⟨new, q, hj, hq, hd, htake, hreq⟩ := h.news hc ht hr hp
  refine ⟨new, hj, ?_⟩
  generalize hb : beats new = bs at hq
  cases hq with
  | nil =>
    refine .inl ⟨rfl, hreq.trans (foldl_pass_of_ended ?_)⟩
    rw [← beats, hb]
    simp
  | @ended _ time more _ _ hq =>
    refine .inr ⟨time, more, rfl, ?_⟩
    exact obeys_of_cadence [(time, .ended)] hq hd hb (by simp) htake hreq

theorem cadent_of_clocked {settings : Settings} {jobs : List Job} {source : Source} {sink : Sink}
    {n : Nat} (h₀ : new? settings jobs source sink = some c₀)
    (hn : settings.interval = .ofMilliseconds n) (h : Clocked c₀ moves c)
    (ht : c.terminated = false) : Cadent n c := by
  have hreach₀ : c₀.Reachable := ⟨settings, jobs, source, sink, c₀, [], h₀, .start⟩
  have hreach : c.Reachable := hreach₀.run h.run
  obtain ⟨-, hc₀⟩ := new?_eq_some.1 h₀
  obtain ⟨hs, new, hj, hg⟩ := h.goes hreach₀ ht
  obtain ⟨p, hp, hawait⟩ := hg .still (.still (by rw [hc₀]))
  have hi₀ : c₀.intervalMilliseconds = n := by
    rw [hc₀, intervalMilliseconds, hn, Duration.ceilMilliseconds_ofMilliseconds]
  have hi : c.intervalMilliseconds = n := (intervalMilliseconds_congr hs).trans hi₀
  have hnew : beats c.journal = beats new := by rw [hj, hc₀, List.append_nil]
  rw [hi₀, ← hnew] at hp
  have hstaffed (hk : c.ticker.isAlive = true) : c.supervision.isSome :=
    hreach.attainable.staffed hk
  refine ⟨?_, ⟨p, hp, hawait⟩, hp.apart.2, fun hv hk => ?_, fun request a hk ho => ?_,
    fun time r hk hr ms d hd hdt => ?_, fun request a r hk hr ms d hd hdt => ?_⟩
  · rw [← hi]
    exact c.settings.one_le_ceilMilliseconds_interval
  · exact begins_of_due hv ht hk (hawait.mem_ready hv hk)
  · rw [← hi]
    exact step_over (hstaffed (by rw [hk]; rfl)) ht hk ho
  · obtain rfl := hawait.eq_due (hstaffed (by rw [hk]; rfl)) hk
    exact hd.asleep hreach hdt hr hawait
  · obtain ⟨since, rfl⟩ := hawait.eq_calling (hstaffed (by rw [hk]; rfl)) hk
    rw [← hi]
    exact hd.busy hreach hdt hr hawait

/-- A request enters during the first call. The call that takes it crashes, so that it is taken once
more, and another one enters while the ticker sleeps. -/
def drumming : List Move :=
  [.start 0 true, .step .printer, .step .signalWatch, .step .signalWatch, .step .ticker,
    .step .ticker, .raise .interrupt, .step .signalWatch, .step .signalWatch, .pass 5,
    .step .ticker, .step .ticker, .step .ticker, .pass 15,
    .step .ticker, .step .ticker, .step .ticker, .step .ticker, .pass 25,
    .step .ticker, .step .ticker, .step .ticker, .step .ticker, .pass 30,
    .raise .terminate, .step .signalWatch, .step .signalWatch]

theorem cadent_of_drumming : ∃ c₀, new? { reportInterval := .ofMilliseconds 10 }
      [.scripted "job" [[.sleep 5], []] [[.crash "oops"], []]] {} {} = some c₀ ∧
    Clocked c₀ drumming (c₀.play drumming) ∧ (c₀.play drumming).terminated = false ∧
    beats (c₀.play drumming).journal =
      [(0, .start), (0, .began none), (5, .ended), (15, .began (some .signal)), (15, .ended),
        (25, .began (some .signal)), (25, .ended)] ∧
    (c₀.play drumming).ticker = .sleeping 35 ∧ (c₀.play drumming).request = some .signal ∧
    Cadent 10 (c₀.play drumming) := by
  refine ⟨_, rfl, .of_punctual (by decide), by decide, by decide, by decide, by decide, ?_⟩
  have h₀ : new? { reportInterval := .ofMilliseconds 10 }
      [.scripted "job" [[.sleep 5], []] [[.crash "oops"], []]] {} {} = some _ := rfl
  exact cadent_of_clocked h₀ rfl (.of_punctual (by decide)) (by decide)

end Console

end JobConsole
