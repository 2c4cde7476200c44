import JobConsole.Proofs.News

namespace JobConsole

namespace Event

/-- The request that an event puts in place, if there is none yet. A call to cancel that crashes
has not served its request. -/
def offered? : Event → Option Request
  | logged .signalReceived => some .signal
  | logged .keywordReceived => some .keyword
  | call _ request _ .crashed => request
  | _ => none

def began? : Event → Option (Option Request)
  | call _ request _ .began => some request
  | _ => none

def isIdle (e : Event) : Bool :=
  e.offered?.isNone && e.began?.isNone

end Event

def pass (held : Option Request) (e : Event) : Option Request :=
  if e.began?.isSome then none else held.or e.offered?

def held (es : List Event) : Option Request :=
  es.foldl pass none

theorem pass_of_isIdle {h : Option Request} {e : Event} (he : e.isIdle) : pass h e = h := by
  simp only [Event.isIdle, Bool.and_eq_true, Option.isNone_iff_eq_none] at he
  simp [pass, he]

theorem foldl_pass_of_isIdle {es : List Event} (h : Option Request) (he : ∀ e ∈ es, e.isIdle) :
    es.foldl pass h = h := by
  induction es with
  | nil => rfl
  | cons e es ih =>
    rw [List.foldl_cons, pass_of_isIdle (he e List.mem_cons_self)]
    exact ih fun x hx => he x (List.mem_cons_of_mem e hx)

def entered (h : Option Request) : List Event → List Request
  | [] => []
  | e :: es => (if h = none then e.offered?.toList else []) ++ entered (pass h e) es

/-- The requests that calls have taken. -/
def served (es : List Event) : List Request :=
  es.filterMap fun e => e.began?.join

/-- What a call takes with it is what was in place when it began. -/
def Taking (h : Option Request) (es : List Event) : Prop :=
  ∀ pre k r n post, es = pre ++ .call k r n .began :: post → r = pre.foldl pass h

theorem Taking.nil (h : Option Request) : Taking h [] :=
  fun pre _ _ _ _ he => absurd he (by simp)

theorem Taking.single {h : Option Request} {e : Event} (he : ∀ r, e.began? = some r → r = h) :
    Taking h [e] := by
  intro pre k r n post hs
  have hp : pre = [] := by
    cases pre with
    | nil => rfl
    | cons x pre => simp at hs
  subst hp
  simp only [List.nil_append, List.cons.injEq] at hs
  rw [hs.1] at he
  exact he r rfl

theorem Taking.append {h : Option Request} {xs ys : List Event} (hx : Taking h xs)
    (hy : Taking (xs.foldl pass h) ys) : Taking h (xs ++ ys) := by
  intro pre k r n post he
  rcases List.append_eq_append_iff.1 he with ⟨zs, hpre, hys⟩ | ⟨zs, hxs, hpost⟩
  · rw [hpre, List.foldl_append]
    exact hy zs k r n post hys
  · cases zs with
    | nil =>
      rw [List.nil_append] at hpost
      rw [List.append_nil] at hxs
      subst hxs
      exact hy [] k r n post hpost.symm
    | cons z zs =>
      simp only [List.cons_append, List.cons.injEq] at hpost
      obtain ⟨rfl, -⟩ := hpost
      exact hx pre k r n zs hxs

theorem Taking.tail {h : Option Request} {e : Event} {es : List Event} (ht : Taking h (e :: es)) :
    Taking (pass h e) es :=
  fun pre k r n post he => ht (e :: pre) k r n post (by rw [he, List.cons_append])

theorem Taking.of_isIdle {es : List Event} (h : Option Request) (he : ∀ e ∈ es, e.isIdle) :
    Taking h es := by
  induction es with
  | nil => exact .nil h
  | cons e es ih =>
    have hidle := he e List.mem_cons_self
    have hx : Taking h [e] := by
      refine .single fun r hr => ?_
      simp [Event.isIdle, hr] at hidle
    have hxs : Taking h (e :: es) ↔ Taking h ([e] ++ es) := Iff.rfl
    refine hxs.2 (hx.append ?_)
    rw [List.foldl_cons, List.foldl_nil, pass_of_isIdle hidle]
    exact ih fun x hx => he x (List.mem_cons_of_mem e hx)

theorem entered_eq_served {es : List Event} : ∀ {h : Option Request}, Taking h es →
    h.toList ++ entered h es = served es ++ (es.foldl pass h).toList := by
  induction es with
  | nil => intro h _; simp [entered, served]
  | cons e es ih =>
    intro h ht
    have hs := ih ht.tail
    have hserved : served (e :: es) = e.began?.join.toList ++ served es := by
      unfold served
      rw [List.filterMap_cons]
      cases e.began?.join <;> rfl
    rw [List.foldl_cons, hserved, List.append_assoc, ← hs, entered]
    cases hb : e.began? with
    | some r =>
      cases e with
      | call k r' n note =>
        cases note with
        | began =>
          have hr : r' = h := ht [] k r' n es rfl
          subst hr
          cases hb
          simp [Event.offered?, pass, Event.began?]
        | _ => cases hb
      | _ => cases hb
    | none => cases h <;> simp [pass, hb]

namespace Console

def Passes (c d : Console) : Prop :=
  ∃ news, d.events = c.events ++ news ∧ d.request = news.foldl pass c.request ∧
    Taking c.request news

variable {c d e : Console} {id : TaskId}

theorem Passes.trans (h : Passes c d) (g : Passes d e) : Passes c e := by
  obtain ⟨xs, hx, hr, ht⟩ := h
  obtain ⟨ys, hy, hr', ht'⟩ := g
  rw [hr] at hr' ht'
  exact ⟨xs ++ ys, by rw [hy, hx, List.append_assoc], by rw [hr', List.foldl_append], ht.append ht'⟩

theorem Passes.idle (ha : Adds Event.isIdle c d) (hr : d.request = c.request) : Passes c d := by
  obtain ⟨news, he, hn⟩ := ha
  exact ⟨news, he, by rw [hr, foldl_pass_of_isIdle _ hn], .of_isIdle _ hn⟩

theorem Passes.same (hj : d.journal = c.journal) (hr : d.request = c.request) : Passes c d :=
  .idle (.same hj) hr

theorem passes_offer {d : Diagnostic} {r : Request} (c : Console)
    (hd : (Event.logged d).offered? = some r) : Passes c ((c.log d).offer r) := by
  refine ⟨[.logged d], events_log c d, ?_, .single nofun⟩
  simp [pass, hd, Event.began?, offer, log, record]

theorem passes_beginCall (c : Console) (s : Supervision) : Passes c (c.beginCall s) := by
  have hidle : ∀ e ∈ c.request.toList.map fun r => Event.logged (.cancelling (c.job s.job).name r),
      e.isIdle := by
    intro e he
    obtain ⟨r, -, rfl⟩ := List.mem_map.1 he
    rfl
  refine ⟨_, c.events_beginCall s, ?_, ?_⟩
  · rw [(c.beginCall_spec s).1, startNews, List.foldl_append]
    rfl
  · refine .append (.of_isIdle _ hidle) (.single fun r hr => ?_)
    rw [foldl_pass_of_isIdle _ hidle]
    exact (Option.some.inj hr).symm

theorem Deed.request_eq {s : Statement} {w : Wait} {stage : Stage} (h : Deed c id s w d stage) :
    d.request = c.request := by
  cases h with
  | park =>
    unfold Console.park
    split <;> rfl
  | @supervise k interactive =>
    have hs := c.supervise_cases k interactive
    generalize (c.supervise k interactive).1 = d at hs ⊢
    generalize (c.supervise k interactive).2 = first at hs
    cases hs <;> rfl
  | _ => rfl

theorem Pursuit.request_eq {a : Activity} {note : Outcome → Event} {pace : Pace}
    (h : Pursuit c id a note d pace) : d.request = c.request := by
  have hset (d : Console) (b : Activity) : (d.setActivity id b).request = d.request := by
    obtain ⟨producers, ticker, he⟩ := d.setActivity_eq id b
    rw [he]
  cases h with
  | ended => rfl
  | rested hp he => exact (hset _ _).trans (deed_of_perform he).request_eq
  | moved hp he => exact (hset _ _).trans (deed_of_perform he).request_eq
  | crashed hp he => exact (deed_of_perform he).request_eq
  | followed hp he => exact (hset _ _).trans (deed_of_perform he).request_eq
  | finished hp he => exact (hset _ _).trans (deed_of_perform he).request_eq

theorem isIdle_of_isDeeds {e : Event} (h : e.isDeeds id) : e.isIdle := by
  cases e with
  | logged d => cases d <;> first | rfl | cases h
  | _ => first | rfl | cases h

theorem passes_pursuit {a : Activity} {note : Outcome → Event} {pace : Pace}
    (h : Pursuit c id a note d pace) (hn : ∀ o, (note o).isIdle) : Passes c d :=
  .idle (h.adds (fun _ => isIdle_of_isDeeds) hn) h.request_eq

theorem ProducerTurn.passes {n : Nat} {more : Bool} (h : ProducerTurn c n d more) :
    Passes c d := by
  cases h with
  | off => exact .same rfl rfl
  | on ha hd => exact passes_pursuit hd fun _ => rfl
  | @quit a d pace ha hd =>
    have hp : Passes c d := passes_pursuit hd fun _ => rfl
    exact hp.trans (.same rfl rfl)

theorem passes_crash (c : Console) (s : Supervision) (r : Option Request) :
    Passes c ((c.record (.call s.job r (s.tally.number r) .crashed)).recover s r).pause := by
  let crash : Event := .call s.job r (s.tally.number r) .crashed
  let report : Event := .logged (.callCrashed (c.job s.job).name r.isSome)
  have he : (((c.record crash).recover s r).pause).events = c.events ++ [crash, report] := by
    have hl : ((c.record crash).log (.callCrashed (c.job s.job).name r.isSome)).events =
        c.events ++ [crash, report] := by
      rw [events_log, events_record, List.append_assoc]
      rfl
    cases r <;> exact hl
  have ht : Taking c.request [crash] := .single nofun
  refine ⟨[crash, report], he, ?_, ht.append (.single nofun)⟩
  cases r with
  | none => exact (foldl_pass_of_isIdle _ (by simp [crash, report, Event.isIdle, Event.offered?,
      Event.began?])).symm
  | some r => simp [recover, pause, setTimer, offer, log, record, pass, crash, report, Event.began?,
      Event.offered?]

theorem TickerTurn.passes {more : Bool} (h : TickerTurn c d more) : Passes c d := by
  cases h with
  | off => exact .same rfl rfl
  | @stop s =>
    have hw : Adds Event.isIdle c { c.withdraw .ticker with ticker := .absent } := .same rfl
    exact .idle ((hw.record (x := .logged (.stopped (c.job s.job).name)) rfl).trans (.same rfl)) rfl
  | call => exact passes_beginCall c _
  | on hs hk ht hd => exact passes_pursuit hd fun _ => rfl
  | @ended s r a d hs hk ht hd =>
    have hp : Passes c d := passes_pursuit hd fun _ => rfl
    have he : Adds Event.isIdle d (d.record (.call s.job r (s.tally.number r) .ended)) :=
      .record (.same rfl) rfl
    exact hp.trans (.idle (he.trans (.same rfl)) rfl)
  | @crashed s r a d hs hk ht hd =>
    have hp : Passes c d := passes_pursuit hd fun _ => rfl
    exact hp.trans (passes_crash d s r)
  | due => exact .same rfl rfl
  | asleep => exact .same rfl rfl

theorem SignalWatchTurn.passes {more : Bool} (h : SignalWatchTurn c d more) : Passes c d := by
  cases h with
  | @disable cause =>
    exact .idle (.record (x := .logged (.signalsDisabled (.signalRegistration cause))) (.same rfl) rfl)
      rfl
  | @hear s rest =>
    have ho : Passes c ((c.log .signalReceived).offer .signal) := passes_offer c rfl
    exact ho.trans (.same rfl rfl)
  | _ => exact .same rfl rfl

theorem KeywordWatchTurn.passes {more : Bool} (h : KeywordWatchTurn c d more) : Passes c d := by
  have hr (result : Except Failure String) : Passes c
      ((c.resumeRead .keywordWatch).record (.read .keywordWatch result)) :=
    .idle (.record (.same rfl) rfl) rfl
  have he (c : Console) : Passes c c.endKeywordWatch := .same rfl rfl
  cases h with
  | off => exact .same rfl rfl
  | stop => exact he c
  | pending => exact .same rfl rfl
  | keyword => exact ((hr _).trans (passes_offer (d := .keywordReceived) _ rfl)).trans (he _)
  | other => exact hr _
  | @failed failure =>
    have hf : Adds Event.isIdle ((c.resumeRead .keywordWatch).record (.read .keywordWatch (.error failure)))
        ((((c.resumeRead .keywordWatch).record (.read .keywordWatch (.error failure))).log
          (.watchFailed failure)).record (.ending .keywordWatch (.abort failure))) :=
      .record (.record (x := .logged (.watchFailed failure)) (.same rfl) rfl) rfl
    exact ((hr _).trans (.idle hf rfl)).trans (he _)

theorem isIdle_of_isPrinters {e : Event} (h : e.isPrinters) : e.isIdle := by
  cases e with
  | logged d => cases d <;> first | rfl | cases h
  | _ => first | rfl | cases h

theorem PrinterTurn.request_eq {more : Bool} (h : PrinterTurn c d more) :
    d.request = c.request := by
  have hshown (c : Console) (kind : Kind) (r : Display.Drawn) :
      (c.shown kind r).request = c.request := by
    unfold shown
    split <;> rfl
  have hstop : c.stopPrinter.request = c.request := by
    obtain ⟨producers, ticker, ready, he⟩ := c.stopPrinter_eq
    rw [he]
  cases h with
  | deserted => exact hstop
  | @choked t =>
    obtain ⟨producers, ticker, ready, he⟩ := (c.take t).crashPrinter_eq t.message
    rw [he]
    rfl
  | told => exact hshown _ _ _
  | @asked t r => exact hshown (c.take t) t.message.kind r
  | @exited t r => exact hshown (c.take t) t.message.kind r
  | @heard slot line =>
    rcases ((c.resumeRead .printer).record (.read .printer (.ok line))).answer_eq slot line with
      ⟨producers, ticker, ready, he⟩ | he <;> rw [he] <;> rfl
  | @failed slot failure =>
    obtain ⟨producers, ticker, ready, he⟩ :=
      ((((c.resumeRead .printer).record (.read .printer (.error failure))).log
        (.answerFailed failure)).record (.ending .printer (.abort failure))).hangUp_eq slot
    rw [he]
    rfl
  | left => exact hstop
  | _ => rfl

theorem passes_step (c : Console) (id : TaskId) : Passes c (c.step id) := by
  obtain ⟨ready, he⟩ := c.turn_eq_step id
  have ht : Passes c (c.turn id).1 := by
    cases id with
    | printer =>
      have hd := printerTurn_cases c
      exact .idle (hd.adds.mono fun _ => isIdle_of_isPrinters) hd.request_eq
    | signalWatch => exact (signalWatchTurn_cases c).passes
    | keywordWatch => exact (keywordWatchTurn_cases c).passes
    | ticker => exact (tickerTurn_cases c).passes
    | producer n => exact (producerTurn_cases c n).passes
  rw [he]
  exact ht.trans (.same rfl rfl)

theorem passes_act (c : Console) (m : Move) : Passes c (c.act m) := by
  cases m with
  | step id => exact passes_step c id
  | kill n =>
    change Passes c (c.kill n)
    unfold Console.kill
    split <;> exact .same rfl rfl
  | raise s =>
    change Passes c (c.raise s)
    unfold Console.raise
    split <;> exact .same rfl rfl
  | setSink s => exact .idle (.record (x := .sinkChanged s) (.same rfl) rfl) rfl
  | start k interactive =>
    have hd := c.supervise_cases k interactive
    have hs : Passes c (c.supervise k interactive).1 := by
      refine .idle (hd.adds.mono fun e he => ?_) ?_
      · exact @isIdle_of_isDeeds .printer _ (Event.isDeeds_of_isStarts _ he)
      · generalize (c.supervise k interactive).1 = d at hd ⊢
        generalize (c.supervise k interactive).2 = first at hd
        cases hd <;> rfl
    exact hs.trans (.idle (.record (.same rfl) rfl) rfl)
  | pass time => exact .same rfl rfl
  | spawn p => exact .same rfl rfl
  | feed piece => exact .same rfl rfl
  | close => exact .same rfl rfl
  | deafen cause => exact .same rfl rfl
  | release => exact .same rfl rfl

theorem Reachable.held (h : c.Reachable) :
    c.request = JobConsole.held c.events ∧ Taking none c.events := by
  refine h.invariant (P := fun c => c.request = JobConsole.held c.events ∧ Taking none c.events)
    (fun h₀ => ?_) fun c m _ _ ⟨hr, ht⟩ => ?_
  · obtain ⟨-, rfl⟩ := new?_eq_some.1 h₀
    exact ⟨rfl, .nil none⟩
  · obtain ⟨news, he, hreq, htake⟩ := passes_act c m
    rw [hr] at hreq htake
    rw [he]
    exact ⟨by rw [hreq, JobConsole.held, JobConsole.held, List.foldl_append], ht.append htake⟩

theorem step_checking {s : Supervision} (hs : c.supervision = some s) (hk : c.ticker = .checking)
    (ht : c.terminated = false) : c.step .ticker = c.beginCall s := by
  simp [step, turn, tickerTurn, hs, hk, ht]

end Console

theorem isSome_held_of_offered {mid : List Event} {h : Option Request} (hh : h.isSome)
    (hm : ∀ e ∈ mid, e.began? = none) : (mid.foldl pass h).isSome := by
  induction mid generalizing h with
  | nil => exact hh
  | cons e mid ih =>
    refine ih ?_ fun x hx => hm x (List.mem_cons_of_mem e hx)
    have he := hm e List.mem_cons_self
    cases h with
    | none => cases hh
    | some r => simp [pass, he]

theorem began?_of_offered? {e : Event} {r : Request} (h : e.offered? = some r) :
    e.began? = none := by
  cases e with
  | call k request n note => cases note <;> first | rfl | cases h
  | _ => rfl

theorem held_concat (es : List Event) {e : Event} {r : Request} (h : e.offered? = some r) :
    held (es ++ [e]) = (held es).or (some r) := by
  simp [held, pass, h, began?_of_offered? h]

theorem Taking.first {pre mid post : List Event} {x : Event} {k n : Nat} {r : Option Request}
    (ht : Taking none (pre ++ x :: mid ++ .call k r n .began :: post)) (hx : x.offered?.isSome)
    (hm : ∀ e ∈ mid, e.began? = none) : r.isSome := by
  obtain ⟨q, hq⟩ := Option.isSome_iff_exists.1 hx
  rw [ht _ k r n post rfl, List.foldl_append, List.foldl_cons]
  refine isSome_held_of_offered ?_ hm
  simp [pass, hq, began?_of_offered? hq]

structure Unlost (c : Console) : Prop where
  held : c.request = held c.events
  kind : ∀ pre k r n post, c.events = pre ++ .call k r n .began :: post → r = JobConsole.held pre
  tick : ∀ s, c.supervision = some s → c.ticker = .checking → c.terminated = false →
    (c.step .ticker).ticker = .calling c.request
        { program := (c.job s.job).call (s.tally.next c.request) c.request } ∧
      (c.step .ticker).request = none ∧ (c.step .ticker).events = c.events ++ c.startNews s
  first : ∀ pre x mid k r n post, c.events = pre ++ x :: mid ++ .call k r n .began :: post →
    x.offered?.isSome → (∀ e ∈ mid, e.began? = none) → r.isSome
  /-- Each request that entered is taken by one call, or it is in place. -/
  once : entered none c.events = served c.events ++ c.request.toList
  /-- A request is dropped only if there is another one in place. -/
  dropped : ∀ pre x r post, c.events = pre ++ x :: post → x.offered? = some r →
    JobConsole.held (pre ++ [x]) = (JobConsole.held pre).or (some r)
  retried : ∀ pre k r n mid k' r' n' post,
    c.events = pre ++ .call k (some r) n .crashed :: mid ++ .call k' r' n' .began :: post →
      (∀ e ∈ mid, e.began? = none) → r'.isSome
  move : ∀ m, c.Passes (c.act m)

theorem unlost_of_reachable {c : Console} (h : c.Reachable) : Unlost c := by
  obtain ⟨hheld, ht⟩ := h.held
  refine ⟨hheld, fun pre k r n post he => ht pre k r n post he, fun s hs hk hterm => ?_,
    fun pre x mid k r n post he hx hm => ?_, ?_, fun pre x r post _ hx => held_concat pre hx,
    fun pre k r n mid k' r' n' post he hm => ?_, c.passes_act⟩
  · rw [Console.step_checking hs hk hterm]
    obtain ⟨hr, -, hticker⟩ := c.beginCall_spec s
    exact ⟨hticker, hr, c.events_beginCall s⟩
  · rw [he] at ht
    exact ht.first hx hm
  · have ho := entered_eq_served ht
    rw [hheld]
    exact ho
  · rw [he] at ht
    exact ht.first rfl hm

/-- A signal is heard while a call to cancel is on its way to a crash, so that the request of this
call is dropped. The next call cancels too. -/
def crashing : List Move :=
  [.start 0 true, .step .signalWatch, .raise .interrupt, .step .signalWatch, .step .ticker,
    .raise .terminate, .step .signalWatch, .step .ticker, .pass 2000, .step .ticker, .step .ticker]

theorem unlost_of_crashing : ∃ c₀,
    Console.new? {} [.scripted "job" [] [[.crash "oops"], []]] {} {} = some c₀ ∧
      served (c₀.play crashing).events = [.signal, .signal] ∧ Unlost (c₀.play crashing) :=
  ⟨_, rfl, by decide,
    unlost_of_reachable ⟨{}, [.scripted "job" [] [[.crash "oops"], []]], {}, {}, _, crashing, rfl,
      .of_legal (by decide)⟩⟩

end JobConsole
