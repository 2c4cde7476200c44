import JobConsole.Proofs.Course

/-!
Pruning: a console and the same console with some attempts to put a job under supervision taken out
of all programs. Nothing that a console does looks at what is taken out.
-/

namespace JobConsole

/-- Where an attempt is written down: the host's by their number, a producer's by the position in
its program, and those of a call by the call and the position in its program. -/
inductive Spot
  | host (number : Nat)
  | producer (number index : Nat)
  | call (job : Nat) (tally : Tally) (cancels : Bool) (index : Nat)

abbrev Pruning := Spot → Bool

def Statement.starts : Statement → Bool
  | start .. => true
  | _ => false

/-- A program, its first statement in position `i`, without the attempts in marked positions. -/
def without (f : Nat → Bool) : Nat → Program → Program
  | _, [] => []
  | i, s :: rest =>
    if s.starts && f i then without f (i + 1) rest else s :: without f (i + 1) rest

namespace Pruning

def job (q : Pruning) (k : Nat) (j : Job) : Job :=
  { j with
    report t := without (fun i => q (.call k t false i)) 0 (j.report t)
    cancel t := without (fun i => q (.call k t true i)) 0 (j.cancel t) }

def calls (q : Pruning) (s : Option Supervision) (request : Option Request) (i : Nat) : Bool :=
  s.any fun s => q (.call s.job s.tally request.isSome i)

end Pruning

structure Trims (f : Nat → Bool) (a b : Activity) : Prop where
  program : b.program = without f a.index a.program
  wait : b.wait = a.wait

inductive TrimsCall (q : Pruning) (s : Option Supervision) : Ticker → Ticker → Prop
  | idle {t : Ticker} (h : t.activity? = none) : TrimsCall q s t t
  | calling {request : Option Request} {a b : Activity} (h : Trims (q.calls s request) a b) :
      TrimsCall q s (.calling request a) (.calling request b)

def Event.bare : Event → Event
  | finished n _ o => .finished n 0 o
  | e => e

/-- The second journal lacks attempts that came too late, with all that was noted of them. -/
inductive Thins : List Entry → List Entry → Prop
  | nil : Thins [] []
  | keep {time : Nat} {e f : Event} {es fs : List Entry} (h : Thins es fs) (he : f.bare = e.bare) :
      Thins (⟨time, e⟩ :: es) (⟨time, f⟩ :: fs)
  | drop {time : Nat} {name : String} {e : Event} {es fs : List Entry} (h : Thins es fs)
      (he : e.started? = some false) :
      Thins (⟨time, e⟩ :: ⟨time, .logged (.alreadyStarted name)⟩ :: es) fs

def Console.exchange (c : Console) (jobs : List Job) (ticker : Ticker)
    (producers : List (Option Activity)) (journal : List Entry) : Console :=
  { c with jobs, ticker, producers, journal }

/-- The second console is the first one with attempts taken out. -/
structure Pruned (q : Pruning) (c d : Console) : Prop where
  rest : d = c.exchange d.jobs d.ticker d.producers d.journal
  jobs : d.jobs = c.jobs.mapIdx q.job
  ticker : TrimsCall q c.supervision c.ticker d.ticker
  producers : ∀ n : Nat, Option.Rel (Option.Rel (Trims fun i => q (.producer n i)))
    c.producers[n]? d.producers[n]?
  journal : Thins c.journal d.journal

variable {q : Pruning} {f : Nat → Bool} {a b : Activity} {s : Statement} {rest : Program}
  {v : Option Supervision} {t u : Ticker}

theorem starts_followUp {next : Statement} {o : Outcome} (h : s.followUp o = some next) :
    next.starts = false := by
  unfold Statement.followUp at h
  split at h
  · cases h
    rfl
  · split at h <;> cases h
    rfl
  · cases h

theorem without_drop {i : Nat} (h : (s.starts && f i) = true) :
    without f i (s :: rest) = without f (i + 1) rest :=
  if_pos h

theorem without_keep {i : Nat} (h : (s.starts && f i) = false) :
    without f i (s :: rest) = s :: without f (i + 1) rest :=
  if_neg (by simp [h])

namespace Pruning

theorem call_job (q : Pruning) (k : Nat) (j : Job) (t : Tally) (request : Option Request) :
    (q.job k j).call t request =
      without (fun i => q (.call k t request.isSome i)) 0 (j.call t request) := by
  cases request <;> rfl

end Pruning

namespace Console

open Option (Rel)

variable {c d : Console} {id : TaskId}

def cuts (c : Console) (q : Pruning) : TaskId → Nat → Bool
  | .producer n, i => q (.producer n i)
  | .ticker, i =>
    match c.ticker with
    | .calling request _ => q.calls c.supervision request i
    | _ => false
  | _, _ => false

def station (c : Console) (signals keyword : Bool) : Console :=
  let c := if signals then wake { c with signalWatch := .registering } .signalWatch else c
  if keyword then wake { c with keywordWatch := true } .keywordWatch else c

theorem supervise_first {v : Settings} (hs : c.supervision = none) (hv : c.settings = v) (k : Nat)
    (interactive : Bool) :
    c.supervise k interactive =
      (((station { c with supervision := some { job := k }, ticker := .checking }
        v.watchSignals !interactive).log
          (.started (c.job k).name v.interval interactive)).wake .ticker, true) := by
  subst hv
  unfold supervise station
  rw [hs]
  cases hw : c.settings.watchSignals <;> cases interactive <;>
    simp only [hw, if_true, if_false, Bool.false_eq_true, Bool.not_true, Bool.not_false] <;> rfl

end Console

open Console

theorem TrimsCall.isAlive_eq (h : TrimsCall q v t u) : u.isAlive = t.isAlive := by
  cases h <;> rfl

theorem isSome_of_rel {α : Type} {r : α → α → Prop} {x y : Option α} (h : Option.Rel r x y) :
    y.isSome = x.isSome := by
  cases h <;> rfl

namespace Pruned

variable {c d : Console} {id : TaskId}

theorem aside (h : Pruned q c d) (g : Console → Console)
    (hg : ∀ (c : Console) jobs ticker producers journal,
      g (c.exchange jobs ticker producers journal) = (g c).exchange jobs ticker producers journal ∧
        (g c).supervision = c.supervision) : Pruned q (g c) (g d) := by
  obtain ⟨hc, hs⟩ : g c = (g c).exchange c.jobs c.ticker c.producers c.journal ∧
      (g c).supervision = c.supervision := hg c ..
  have hd : g d = (g c).exchange d.jobs d.ticker d.producers d.journal := by
    rw [← (hg c ..).1, ← h.rest]
  rw [hd]
  refine ⟨rfl, ?_, ?_, ?_, ?_⟩
  · rw [hc]
    exact h.jobs
  · rw [hs, hc]
    exact h.ticker
  · rw [hc]
    exact h.producers
  · rw [hc]
    exact h.journal

theorem mailbox_eq (h : Pruned q c d) : d.mailbox = c.mailbox := by
  rw [h.rest]
  rfl

theorem now_eq (h : Pruned q c d) : d.now = c.now := by
  rw [h.rest]
  rfl

theorem terminated_eq (h : Pruned q c d) : d.terminated = c.terminated := by
  rw [h.rest]
  rfl

theorem supervision_eq (h : Pruned q c d) : d.supervision = c.supervision := by
  rw [h.rest]
  rfl

theorem record (h : Pruned q c d) {e e' : Event} (he : e'.bare = e.bare) :
    Pruned q (c.record e) (d.record e') := by
  refine ⟨?_, h.jobs, h.ticker, h.producers, ?_⟩
  · rw [h.rest]
    rfl
  · rw [Console.record, Console.record, h.now_eq]
    exact h.journal.keep he

theorem log (h : Pruned q c d) (x : Diagnostic) : Pruned q (c.log x) (d.log x) :=
  h.record rfl

theorem job_name (h : Pruned q c d) (k : Nat) : (d.job k).name = (c.job k).name := by
  rw [Console.job, Console.job, h.jobs, List.getElem?_mapIdx]
  cases c.jobs[k]? <;> rfl

theorem call_eq (h : Pruned q c d) (k : Nat) (t : Tally) (request : Option Request) :
    (d.job k).call t request =
      without (fun i => q (.call k t request.isSome i)) 0 ((c.job k).call t request) := by
  rw [Console.job, Console.job, h.jobs, List.getElem?_mapIdx]
  cases c.jobs[k]? with
  | none => cases request <;> rfl
  | some j => exact q.call_job k j t request

theorem isSome_producers (h : Pruned q c d) :
    d.producers.map Option.isSome = c.producers.map Option.isSome := by
  refine List.ext_getElem? fun n => ?_
  rw [List.getElem?_map, List.getElem?_map]
  generalize c.producers[n]? = x, d.producers[n]? = y, h.producers n = hn
  cases hn with
  | none => rfl
  | some hab => exact congrArg some (isSome_of_rel hab)

theorem length_producers (h : Pruned q c d) : d.producers.length = c.producers.length := by
  have hl := congrArg List.length h.isSome_producers
  rwa [List.length_map, List.length_map] at hl

theorem isHeld_eq (h : Pruned q c d) : d.isHeld = c.isHeld := by
  have hh : d.hosted = c.hosted := by rw [h.rest]; rfl
  have hk : d.keywordWatch = c.keywordWatch := by rw [h.rest]; rfl
  have hp : d.producers.any Option.isSome = c.producers.any Option.isSome := by
    have hm := congrArg (List.any · id) h.isSome_producers
    simpa [List.any_map] using hm
  rw [isHeld, isHeld, hh, hk, hp, h.ticker.isAlive_eq]

theorem activity? (h : Pruned q c d) (id : TaskId) :
    Option.Rel (Trims (c.cuts q id)) (c.activity? id) (d.activity? id) := by
  cases id with
  | producer n =>
    simp only [Console.activity?]
    generalize c.producers[n]? = x, d.producers[n]? = y, h.producers n = hn
    cases hn with
    | none => exact .none
    | some hab => exact hab
  | ticker =>
    have ht := h.ticker
    simp only [Console.activity?]
    unfold cuts
    generalize c.ticker = t, d.ticker = u at ht
    cases ht with
    | idle ht =>
      rw [ht]
      exact .none
    | calling hab => exact .some hab
  | _ => exact .none

theorem setActivity (h : Pruned q c d) {a b : Activity} (hab : Trims (c.cuts q id) a b) :
    Pruned q (c.setActivity id a) (d.setActivity id b) := by
  cases id with
  | producer n =>
    refine ⟨?_, h.jobs, h.ticker, fun m => ?_, h.journal⟩
    · rw [h.rest]
      rfl
    · have hm := h.producers m
      simp only [Console.setActivity, List.getElem?_set, h.length_producers]
      split
      · split
        · rename_i hmn _
          subst hmn
          exact .some (.some hab)
        · exact .none
      · exact hm
  | ticker =>
    refine ⟨?_, h.jobs, ?_, h.producers, h.journal⟩
    · rw [h.rest]
      rfl
    · have ht := h.ticker
      simp only [Console.setActivity]
      unfold cuts at hab
      generalize c.ticker = t, d.ticker = u at ht hab
      cases ht with
      | idle ht => cases t <;> first | exact .idle rfl | cases ht
      | calling => exact .calling hab
  | _ => exact h

theorem setWait (h : Pruned q c d) (id : TaskId) (w : Wait) :
    Pruned q (c.setWait id w) (d.setWait id w) := by
  unfold Console.setWait
  generalize hc : c.activity? id = x, hd : d.activity? id = y, h.activity? id = hxy
  cases hxy with
  | none => exact h
  | some hab => exact h.setActivity ⟨hab.program, rfl⟩

theorem wake (h : Pruned q c d) (id : TaskId) : Pruned q (c.wake id) (d.wake id) :=
  h.aside (·.wake id) fun _ _ _ _ _ => ⟨rfl, rfl⟩

theorem wakeAll (h : Pruned q c d) (ids : List TaskId) : Pruned q (c.wakeAll ids) (d.wakeAll ids) :=
  h.aside (·.wakeAll ids) fun _ _ _ _ _ => ⟨rfl, rfl⟩

theorem wakeReceiver (h : Pruned q c d) : Pruned q c.wakeReceiver d.wakeReceiver :=
  h.aside Console.wakeReceiver fun _ _ _ _ _ => ⟨rfl, rfl⟩

theorem letGo (h : Pruned q c d) : Pruned q c.letGo d.letGo := by
  unfold Console.letGo
  rw [h.isHeld_eq]
  split
  · exact h
  · exact h.wakeReceiver

theorem expects_eq (h : Pruned q c d) (slot : ReplySlot) : d.expects slot = c.expects slot := by
  unfold expects
  generalize c.activity? slot.asker = x, d.activity? slot.asker = y, h.activity? slot.asker = hxy
  cases hxy with
  | none => rfl
  | some hab => simp only [hab.wait]

theorem answer (h : Pruned q c d) (slot : ReplySlot) (line : String) :
    Pruned q (c.answer slot line) (d.answer slot line) := by
  unfold Console.answer
  rw [h.expects_eq]
  split
  · exact (h.setWait _ _).wake _
  · exact h.log _

theorem hangUp (h : Pruned q c d) (slot : ReplySlot) :
    Pruned q (c.hangUp slot) (d.hangUp slot) := by
  unfold Console.hangUp
  rw [h.expects_eq]
  split
  · exact (h.setWait _ _).wake _
  · exact h

theorem hangUpOn (h : Pruned q c d) (m : Message) : Pruned q (c.hangUpOn m) (d.hangUpOn m) := by
  cases m with
  | prompt text slot => exact h.hangUp slot
  | _ => exact h

theorem discardAll (ms : List Message) : ∀ {c d : Console}, Pruned q c d →
    Pruned q (ms.foldl (fun c m => (c.record (.discarded m)).hangUpOn m) c)
      (ms.foldl (fun c m => (c.record (.discarded m)).hangUpOn m) d) := by
  induction ms with
  | nil => exact fun h => h
  | cons m ms ih => exact fun h => ih ((h.record rfl).hangUpOn m)

theorem discard (h : Pruned q c d) : Pruned q c.discard d.discard := by
  unfold Console.discard
  rw [h.mailbox_eq]
  exact discardAll _ (h.aside (fun e => { e with mailbox := c.mailbox.drain })
    fun _ _ _ _ _ => ⟨rfl, rfl⟩)

end Pruned

/-! Small steps of statements. -/

structure Alike {α : Type} (q : Pruning) (p r : Console × α) : Prop where
  pruned : Pruned q p.1 r.1
  same : r.2 = p.2

theorem Alike.both {α : Type} {p r : Console × α} (h : Alike q p r) :
    ∃ c d x, p = (c, x) ∧ r = (d, x) ∧ Pruned q c d := by
  obtain ⟨c, x⟩ := p
  obtain ⟨d, y⟩ := r
  obtain ⟨hp, hs⟩ := h
  cases hs
  exact ⟨c, d, x, rfl, rfl, hp⟩

namespace Pruned

variable {c d : Console} {id : TaskId} {m : Message}

theorem refuse (h : Pruned q c d) (id : TaskId) (m : Message) :
    Alike q (c.refuse id m) (d.refuse id m) :=
  ⟨(h.record rfl).log _, rfl⟩

theorem accept (h : Pruned q c d) (id : TaskId) (m : Message) :
    Alike q (c.accept id m) (d.accept id m) :=
  ⟨(h.record rfl).wakeReceiver, rfl⟩

theorem send (h : Pruned q c d) (id : TaskId) (m : Message) :
    Alike q (c.send id m) (d.send id m) := by
  unfold Console.send
  rw [h.mailbox_eq]
  split
  · exact h.refuse id m
  · split
    · exact accept (h.aside (fun e => { e with mailbox := c.mailbox.push m })
        fun _ _ _ _ _ => ⟨rfl, rfl⟩) id m
    · exact ⟨h.aside (fun e => { e with mailbox := c.mailbox.join id })
        fun _ _ _ _ _ => ⟨rfl, rfl⟩, rfl⟩

theorem resend (h : Pruned q c d) (id : TaskId) (m : Message) :
    Alike q (c.resend id m) (d.resend id m) := by
  unfold Console.resend
  rw [h.mailbox_eq]
  split
  · exact h.refuse id m
  · split
    · exact accept (h.aside (fun e => { e with mailbox := c.mailbox.redeem id m })
        fun _ _ _ _ _ => ⟨rfl, rfl⟩) id m
    · exact ⟨h, rfl⟩

theorem question (h : Pruned q c d) (id : TaskId) (text : String) :
    Alike q (c.question id text) (d.question id text) := by
  have hs : d.slots = c.slots := by rw [h.rest]; rfl
  unfold Console.question
  rw [hs]
  exact send (h.aside (fun e => { e with slots := c.slots + 1 }) fun _ _ _ _ _ => ⟨rfl, rfl⟩)
    id _

theorem park (h : Pruned q c d) (id : TaskId) : Pruned q (c.park id) (d.park id) := by
  have hp : d.parked = c.parked := by rw [h.rest]; rfl
  unfold Console.park
  rw [hp]
  split
  · exact h
  · exact h.aside (fun e => { e with parked := c.parked ++ [id] }) fun _ _ _ _ _ => ⟨rfl, rfl⟩

theorem awaitTermination (h : Pruned q c d) (id : TaskId) (w : Wait) (o : Outcome) :
    Alike q (c.awaitTermination id w o) (d.awaitTermination id w o) := by
  unfold Console.awaitTermination
  rw [h.terminated_eq]
  split
  · exact ⟨h, rfl⟩
  · exact ⟨h.park id, rfl⟩

theorem setTimer (h : Pruned q c d) (t : Timer) : Pruned q (c.setTimer t) (d.setTimer t) :=
  h.aside (·.setTimer t) fun _ _ _ _ _ => ⟨rfl, rfl⟩

theorem sleep (h : Pruned q c d) (id : TaskId) (n : Nat) :
    Alike q (c.sleep id n) (d.sleep id n) := by
  unfold Console.sleep
  rw [h.now_eq]
  split
  · exact ⟨h, rfl⟩
  · exact ⟨h.setTimer _, rfl⟩

theorem station (h : Pruned q c d) (signals keyword : Bool) :
    Pruned q (c.station signals keyword) (d.station signals keyword) := by
  refine h.aside (·.station signals keyword) fun _ _ _ _ _ => ?_
  cases signals <;> cases keyword <;> exact ⟨rfl, rfl⟩

theorem assign (h : Pruned q c d) (ht : TrimsCall q v t u) :
    Pruned q { c with supervision := v, ticker := t } { d with supervision := v, ticker := u } := by
  refine ⟨?_, h.jobs, ht, h.producers, h.journal⟩
  rw [h.rest]
  rfl

theorem supervise (h : Pruned q c d) (k : Nat) (interactive : Bool) :
    Alike q (c.supervise k interactive) (d.supervise k interactive) := by
  cases hc : c.supervision with
  | some s =>
    rw [supervise_lost hc, supervise_lost (h.supervision_eq.trans hc), h.job_name]
    exact ⟨h.log _, rfl⟩
  | none =>
    have hv : d.settings = c.settings := by rw [h.rest]; rfl
    rw [supervise_first hc rfl, supervise_first (h.supervision_eq.trans hc) hv, h.job_name]
    exact ⟨(((h.assign (.idle rfl)).station _ _).log _).wake .ticker, rfl⟩

theorem begin (h : Pruned q c d) (id : TaskId) (s : Statement) :
    Alike q (c.begin id s) (d.begin id s) := by
  cases s with
  | progress text => exact h.send id _
  | info text => exact h.send id _
  | prompt text => exact h.question id text
  | exit text code => exact h.send id _
  | park => exact ⟨h, rfl⟩
  | start k interactive =>
    have hs := h.supervise k interactive
    exact ⟨hs.pruned, congrArg (fun first => Stage.finished (.started first)) hs.same⟩
  | state =>
    refine ⟨h, ?_⟩
    simp only [Console.begin, isReporting, h.supervision_eq, h.terminated_eq]
  | sleep n => exact h.sleep id n
  | hang => exact ⟨h, rfl⟩
  | crash text => exact ⟨h, rfl⟩
  | ask text => exact h.question id text
  | confirm question refusal code => exact h.question id question

theorem perform (h : Pruned q c d) (id : TaskId) (s : Statement) (w : Wait) :
    Alike q (c.perform id s w) (d.perform id s w) := by
  cases w with
  | fresh => exact h.begin id s
  | room m => exact h.resend id m
  | hungUp => exact h.awaitTermination id _ _
  | termination => exact h.awaitTermination id _ _
  | alarm deadline =>
    simp only [Console.perform, h.now_eq]
    split <;> exact ⟨h, rfl⟩
  | _ => exact ⟨h, rfl⟩

end Pruned

end JobConsole
