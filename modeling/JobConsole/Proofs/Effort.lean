import JobConsole.Proofs.Portions
import JobConsole.Proofs.Roster
import JobConsole.Proofs.Speech

/-!
Effort: every small step lowers the workload. What a step takes away weighs more than the tasks that
it wakes, the message that it sends and all that a statement, a call or a prompt can turn into.
-/

namespace JobConsole

variable {α : Type} {f : α → Nat} {xs : List α} {x y : α}

@[simp]
theorem total_nil (f : α → Nat) : total f [] = 0 :=
  rfl

@[simp]
theorem total_cons (f : α → Nat) (x : α) (xs : List α) :
    total f (x :: xs) = f x + total f xs :=
  rfl

theorem le_total (h : x ∈ xs) : f x ≤ total f xs := by
  induction xs with
  | nil => cases h
  | cons z xs ih =>
    rw [total_cons]
    rcases List.mem_cons.1 h with rfl | h
    · exact Nat.le_add_right ..
    · exact (ih h).trans (Nat.le_add_left ..)

theorem total_set {n : Nat} (h : xs[n]? = some x) (y : α) :
    total f (xs.set n y) + f x = total f xs + f y := by
  induction xs generalizing n with
  | nil => cases h
  | cons z xs ih =>
    cases n with
    | zero =>
      cases h
      rw [List.set_cons_zero, total_cons, total_cons]
      omega
    | succ n =>
      have := ih h
      rw [List.set_cons_succ, total_cons, total_cons]
      omega

theorem Activity.load_fresh (program : Program) (index : Nat) :
    Activity.load { program, index } = Program.load program := by
  cases program with
  | nil => rfl
  | cons s rest => rfl

theorem Activity.load_cons (s : Statement) (rest : Program) (index : Nat) (w : Wait) :
    Activity.load { program := s :: rest, index, wait := w } =
      s.reserve + w.load + Program.load rest :=
  rfl

theorem Activity.load_wait_le (a : Activity) {w : Wait} (h : w.load ≤ a.wait.load) :
    Activity.load { a with wait := w } ≤ a.load := by
  obtain ⟨program, index, wait⟩ := a
  cases program with
  | nil => exact Nat.le_refl 0
  | cons s rest =>
    rw [Activity.load_cons, Activity.load_cons]
    have hw : w.load ≤ wait.load := h
    omega

theorem load_followUp {s next : Statement} {o : Outcome} (h : s.followUp o = some next) :
    next.load < s.reserve := by
  unfold Statement.followUp at h
  split at h
  · cases h
    exact Nat.lt_succ_self 30
  · split at h
    · cases h
    · cases h
      exact Nat.lt_succ_self 30
  · cases h

/-! Input. -/

def inputLoad (pieces : List Piece) (taken : List UInt8) : Nat :=
  total Piece.load pieces + 3 * taken.length

/-- Reading on adds nothing to what is to be read, and with a line at least one byte goes. -/
structure Lightens (pieces : List Piece) (taken : List UInt8) (g : Gathered) : Prop where
  le : inputLoad g.pieces g.taken ≤ inputLoad pieces taken
  line : ∀ line, g.result = some (.ok line) →
    inputLoad g.pieces g.taken + 3 ≤ inputLoad pieces taken

theorem lightens_of_line {pieces pieces' : List Piece} {taken line : List UInt8}
    {result : Option (Except Failure String)}
    (h : total Piece.load pieces' + 3 * line.length ≤ total Piece.load pieces) (hl : line ≠ []) :
    Lightens pieces taken ⟨pieces', [], result⟩ := by
  have hpos := List.length_pos_iff.2 hl
  have hle : inputLoad pieces' [] + 3 ≤ inputLoad pieces taken := by
    simp only [inputLoad, List.length_nil]
    omega
  exact ⟨(Nat.le_add_right ..).trans hle, fun _ _ => hle⟩

theorem gather_lightens (closed : Bool) (taken : List UInt8) (pieces : List Piece) :
    Lightens pieces taken (gather closed taken pieces) := by
  have hcut {data line rest : List UInt8} (h : Line.cut? data = some (line, rest)) :
      data.length = line.length + rest.length ∧ line ≠ [] := by
    obtain ⟨body, -, rfl, rfl⟩ := Line.cut?_eq_some h
    exact ⟨List.length_append, by simp⟩
  fun_induction gather closed taken pieces with
  | case1 taken =>
    refine ⟨by simp [inputLoad], fun line h => ?_⟩
    cases taken with
    | nil => cases h
    | cons b taken =>
      simp only [inputLoad, List.length_cons, List.length_nil]
      omega
  | case2 taken => exact ⟨Nat.le_refl _, fun _ h => by cases h⟩
  | case3 taken cause pieces =>
    refine ⟨?_, fun _ h => by cases h⟩
    simp only [inputLoad, total_cons, List.length_nil]
    omega
  | case4 taken data pieces hcut ih =>
    have he : inputLoad pieces (taken ++ data) = inputLoad (.bytes data :: pieces) taken := by
      simp only [inputLoad, total_cons, Piece.load, List.length_append]
      omega
    exact ⟨he ▸ ih.le, he ▸ ih.line⟩
  | case5 taken data pieces line h =>
    obtain ⟨hlen, hne⟩ := hcut h
    refine lightens_of_line ?_ hne
    simp only [total_cons, Piece.load]
    omega
  | case6 taken data pieces line rest hrest h =>
    obtain ⟨hlen, hne⟩ := hcut h
    refine lightens_of_line ?_ hne
    simp only [total_cons, Piece.load]
    omega

namespace LineReader

variable {ι : Type}

def load (r : LineReader ι) : Nat :=
  inputLoad r.source.pieces r.taken

theorem load_release (r : LineReader ι) : r.release.1.load ≤ r.load := by
  simp only [load, release, inputLoad, List.length_nil]
  omega

theorem load_collect (r : LineReader ι) (i : ι) : (r.collect i).reader.load ≤ r.load ∧
    ∀ line, (r.collect i).result = some (.ok line) → (r.collect i).reader.load + 3 ≤ r.load := by
  obtain ⟨hle, hline⟩ := gather_lightens r.source.closed r.taken r.source.pieces
  unfold collect
  dsimp only
  split
  · exact ⟨hle, nofun⟩
  · rename_i result hr
    have hrelease := load_release { r with
      source.pieces := (gather r.source.closed r.taken r.source.pieces).pieces
      owner := some i
      taken := (gather r.source.closed r.taken r.source.pieces).taken }
    refine ⟨hrelease.trans hle, fun line h => ?_⟩
    exact (Nat.add_le_add_right hrelease 3).trans (hline line (hr.trans h))

variable [DecidableEq ι]

theorem load_abandon (r : LineReader ι) (i : ι) : (r.abandon i).1.load ≤ r.load := by
  unfold abandon
  split
  · exact r.load_release
  · exact Nat.le_refl _

theorem load_resume (r : LineReader ι) (i : ι) : (r.resume i).reader.load ≤ r.load ∧
    ∀ line, (r.resume i).result = some (.ok line) → (r.resume i).reader.load + 3 ≤ r.load := by
  unfold resume
  split
  · exact r.load_collect i
  · split
    · exact r.load_collect i
    · split <;> exact ⟨Nat.le_refl _, nofun⟩

end LineReader

namespace Console

variable {c d : Console} {id : TaskId} {a b : Activity} {s : Statement} {rest : Program} {w : Wait}
  {stage : Stage} {note : Outcome → Event} {pace : Pace} {more : Bool} {m : Message}

def toil (c : Console) : Nat :=
  c.printerLoad + 12 * c.mailbox.items.length + c.tickerLoad + c.signalWatchLoad +
    (if c.keywordWatch then 4 else 0) + c.startLoad + c.reader.load + total producerLoad c.producers

theorem workload_eq (c : Console) : c.workload = c.ready.length + c.toil := by
  unfold workload toil
  have hi : c.inputLoad = c.reader.load := rfl
  omega

/-! Tasks that are woken. -/

theorem length_enlist_le (ready : List TaskId) (id : TaskId) :
    (enlist ready id).length ≤ ready.length + 1 := by
  unfold enlist
  split
  · exact Nat.le_succ _
  · exact (List.length_append ..).le

theorem workload_wake_le (c : Console) (id : TaskId) : (c.wake id).workload ≤ c.workload + 1 := by
  have hr : (c.wake id).ready.length ≤ c.ready.length + 1 := length_enlist_le ..
  have ht : (c.wake id).toil = c.toil := rfl
  rw [workload_eq, workload_eq, ht]
  omega

theorem workload_wakeOne_le (c : Console) (woken : Option TaskId) :
    (c.wakeAll woken.toList).workload ≤ c.workload + 1 := by
  cases woken with
  | none => exact Nat.le_succ _
  | some id => exact c.workload_wake_le id

theorem workload_wakeReceiver_le (c : Console) : c.wakeReceiver.workload ≤ c.workload + 1 := by
  have hw := c.workload_wake_le .printer
  unfold wakeReceiver
  split
  · exact hw
  · exact Nat.le_succ _

theorem workload_letGo_le (c : Console) : c.letGo.workload ≤ c.workload + 1 := by
  have hw := c.workload_wakeReceiver_le
  unfold letGo
  split
  · exact Nat.le_succ _
  · exact hw

/-! Activities. -/

theorem toil_setTicker (c : Console) (t : Ticker) :
    toil { c with ticker := t } + c.tickerLoad = c.toil + tickerLoad { c with ticker := t } := by
  have hp : printerLoad { c with ticker := t } = c.printerLoad := rfl
  have hw : signalWatchLoad { c with ticker := t } = c.signalWatchLoad := rfl
  have hs : startLoad { c with ticker := t } = c.startLoad := rfl
  simp only [toil, hp, hw, hs]
  omega

theorem toil_setProducers (c : Console) (producers : List (Option Activity))
    (hl : producers.length = c.producers.length) :
    toil { c with producers } + total producerLoad c.producers =
      c.toil + total producerLoad producers := by
  have hp : printerLoad { c with producers } = c.printerLoad := by
    unfold printerLoad taskCount
    rw [hl]
  have ht : tickerLoad { c with producers } = c.tickerLoad := rfl
  have hw : signalWatchLoad { c with producers } = c.signalWatchLoad := rfl
  have hs : startLoad { c with producers } = c.startLoad := rfl
  simp only [toil, hp, ht, hw, hs]
  omega

theorem toil_setPrinter (c : Console) (p : Printer) :
    toil { c with printer := p } + c.printerLoad = c.toil + printerLoad { c with printer := p } := by
  have ht : tickerLoad { c with printer := p } = c.tickerLoad := rfl
  have hw : signalWatchLoad { c with printer := p } = c.signalWatchLoad := rfl
  have hs : startLoad { c with printer := p } = c.startLoad := rfl
  simp only [toil, ht, hw, hs]
  omega

theorem toil_setMailbox (c : Console) (mailbox : Mailbox TaskId) :
    toil { c with mailbox } + 12 * c.mailbox.items.length =
      c.toil + 12 * mailbox.items.length := by
  have hp : printerLoad { c with mailbox } = c.printerLoad := rfl
  have ht : tickerLoad { c with mailbox } = c.tickerLoad := rfl
  have hw : signalWatchLoad { c with mailbox } = c.signalWatchLoad := rfl
  have hs : startLoad { c with mailbox } = c.startLoad := rfl
  simp only [toil, hp, ht, hw, hs]
  omega

theorem toil_setReader (c : Console) (reader : LineReader TaskId) :
    toil { c with reader } + c.reader.load = c.toil + reader.load := by
  have hp : printerLoad { c with reader } = c.printerLoad := rfl
  have ht : tickerLoad { c with reader } = c.tickerLoad := rfl
  have hw : signalWatchLoad { c with reader } = c.signalWatchLoad := rfl
  have hs : startLoad { c with reader } = c.startLoad := rfl
  simp only [toil, hp, ht, hw, hs]
  omega

theorem toil_setSignalWatch (c : Console) (signalWatch : SignalWatch) :
    toil { c with signalWatch } + c.signalWatchLoad =
      c.toil + signalWatchLoad { c with signalWatch } := by
  have hp : printerLoad { c with signalWatch } = c.printerLoad := rfl
  have ht : tickerLoad { c with signalWatch } = c.tickerLoad := rfl
  have hs : startLoad { c with signalWatch } = c.startLoad := rfl
  simp only [toil, hp, ht, hs]
  omega

theorem toil_setKeywordWatch (c : Console) (keywordWatch : Bool) :
    toil { c with keywordWatch } + (if c.keywordWatch then 4 else 0) =
      c.toil + if keywordWatch then 4 else 0 := by
  have hp : printerLoad { c with keywordWatch } = c.printerLoad := rfl
  have ht : tickerLoad { c with keywordWatch } = c.tickerLoad := rfl
  have hw : signalWatchLoad { c with keywordWatch } = c.signalWatchLoad := rfl
  have hs : startLoad { c with keywordWatch } = c.startLoad := rfl
  simp only [toil, hp, ht, hw, hs]
  omega

theorem toil_setActivity (ha : c.activity? id = some a) (b : Activity) :
    (c.setActivity id b).toil + a.load = c.toil + b.load := by
  cases id with
  | producer n =>
    rw [activity?, Option.join_eq_some_iff] at ha
    have ht := total_set (f := producerLoad) ha (some b)
    have hs := c.toil_setProducers (c.producers.set n (some b)) (List.length_set ..)
    simp only [producerLoad] at ht
    simp only [setActivity]
    omega
  | ticker =>
    have hs := c.toil_setTicker (c.ticker.setActivity b)
    simp only [setActivity]
    cases hk : c.ticker with
    | calling request a' =>
      rw [activity?, hk] at ha
      cases ha
      simp only [hk, Ticker.setActivity, tickerLoad] at hs ⊢
      omega
    | _ =>
      rw [activity?, hk] at ha
      cases ha
  | _ => cases ha

theorem toil_setActivity_le (ha : c.activity? id = some a) {w : Wait}
    (hw : w.load ≤ a.wait.load) : (c.setActivity id { a with wait := w }).toil ≤ c.toil := by
  have ht := toil_setActivity ha { a with wait := w }
  have hl := a.load_wait_le hw
  omega

theorem workload_setActivity (ha : c.activity? id = some a) (b : Activity) :
    (c.setActivity id b).workload + a.load = c.workload + b.load := by
  have ht := toil_setActivity ha b
  rw [workload_eq, workload_eq, ready_setActivity]
  omega

/-! Replies. -/

theorem workload_told_le (ha : c.activity? id = some a) {w : Wait} (hw : w.load ≤ a.wait.load) :
    ((c.setActivity id { a with wait := w }).wake id).workload ≤ c.workload + 1 := by
  have ht := toil_setActivity_le ha hw
  have hwake := workload_wake_le (c.setActivity id { a with wait := w }) id
  rw [workload_eq (c.setActivity id { a with wait := w }), ready_setActivity] at hwake
  have hc := c.workload_eq
  omega

theorem workload_hangUp_le (c : Console) (slot : ReplySlot) :
    (c.hangUp slot).workload ≤ c.workload + 1 := by
  rcases c.hangUp_cases slot with ⟨-, he⟩ | ⟨a, ha, hw, he⟩ <;> rw [he]
  · exact Nat.le_succ _
  · exact workload_told_le ha (by simp [hw, Wait.load])

theorem workload_answer_le (c : Console) (slot : ReplySlot) (line : String) :
    (c.answer slot line).workload ≤ c.workload + 1 := by
  rcases c.answer_cases slot line with ⟨-, he⟩ | ⟨a, ha, hw, he⟩ <;> rw [he]
  · exact Nat.le_succ _
  · exact workload_told_le ha (by simp [hw, Wait.load])

theorem toil_hangUpOn_le (c : Console) (m : Message) : (c.hangUpOn m).toil ≤ c.toil := by
  cases m with
  | prompt text slot =>
    rw [hangUpOn]
    rcases c.hangUp_cases slot with ⟨-, he⟩ | ⟨a, ha, hw, he⟩ <;> rw [he]
    have ht : (c.setActivity slot.asker { a with wait := .hungUp }).toil ≤ c.toil :=
      toil_setActivity_le ha (by simp [hw, Wait.load])
    exact ht
  | _ => exact Nat.le_refl _

theorem toil_discardAll_le (ms : List Message) : ∀ c : Console,
    (ms.foldl (fun c m => (c.record (.discarded m)).hangUpOn m) c).toil ≤ c.toil := by
  induction ms with
  | nil => exact fun c => Nat.le_refl _
  | cons m ms ih => exact fun c => (ih _).trans ((c.record (.discarded m)).toil_hangUpOn_le m)

theorem toil_discard_le (c : Console) : c.discard.toil ≤ c.toil := by
  have hd := toil_discardAll_le c.mailbox.items { c with mailbox := c.mailbox.drain }
  have hm := c.toil_setMailbox c.mailbox.drain
  unfold discard
  simp only [Mailbox.drain, List.length_nil] at hd hm ⊢
  omega

/-! Small steps of statements. -/

def Stage.cost : Stage → Nat
  | .blocked w => w.load
  | .moving w => w.load + 1
  | .finished _ | .crashed => 1

theorem Still.cost_le (h : Still c id s w stage) : stage.cost ≤ w.load := by
  cases h <;> simp [Stage.cost, Wait.load]

theorem cost_afterSend_le (accepted : Bool) (m : Message) : (afterSend accepted m).cost ≤ 11 := by
  cases m <;> cases accepted <;> simp [afterSend, Stage.cost, Wait.load]

theorem sending?_load (h : c.sending? id s w = some m) : 28 ≤ w.load := by
  cases w with
  | fresh | room => simp [Wait.load]
  | _ => cases h

theorem workload_station_le (c : Console) (signals keyword : Bool) :
    (c.station signals keyword).workload ≤ c.workload + 9 := by
  have hsignals (c : Console) :
      (wake { c with signalWatch := .registering } .signalWatch).workload ≤ c.workload + 4 := by
    have hw := workload_wake_le { c with signalWatch := .registering } .signalWatch
    have ht := c.toil_setSignalWatch .registering
    have hl : signalWatchLoad { c with signalWatch := .registering } = 3 := rfl
    simp only [workload_eq { c with signalWatch := .registering }] at hw
    rw [c.workload_eq]
    omega
  have hkeyword (c : Console) :
      (wake { c with keywordWatch := true } .keywordWatch).workload ≤ c.workload + 5 := by
    have hw := workload_wake_le { c with keywordWatch := true } .keywordWatch
    have ht := c.toil_setKeywordWatch true
    simp only [workload_eq { c with keywordWatch := true }] at hw
    rw [c.workload_eq]
    simp only [if_true] at ht
    omega
  cases signals <;> cases keyword
  · exact Nat.le_add_right ..
  · exact (hkeyword c).trans (by omega)
  · exact (hsignals c).trans (by omega)
  · exact (hkeyword _).trans (Nat.add_le_add_right (hsignals c) 5)

theorem workload_opened_le (h : c.supervision = none) (k : Nat) :
    workload { c with supervision := some { job := k }, ticker := .checking } + 20 ≤
      c.workload := by
  have hjob : (c.job k).load {} ≤ total (Job.load · {}) c.jobs := by
    unfold job
    cases hk : c.jobs[k]? with
    | none => exact Nat.zero_le _
    | some j => exact le_total (f := (Job.load · {})) (List.mem_of_getElem? hk)
  have hp : printerLoad { c with supervision := some { job := k }, ticker := .checking } =
      c.printerLoad := rfl
  have hw : signalWatchLoad { c with supervision := some { job := k }, ticker := .checking } =
      c.signalWatchLoad := rfl
  have ht : tickerLoad { c with supervision := some { job := k }, ticker := .checking } =
      20 + (c.job k).load {} := rfl
  have hs : startLoad { c with supervision := some { job := k }, ticker := .checking } = 0 := rfl
  have hstart : c.startLoad = 40 + total (Job.load · {}) c.jobs := by rw [startLoad, h]
  simp only [workload_eq, toil, hp, hw, ht, hs, hstart]
  omega

theorem workload_supervise_le (c : Console) (k : Nat) (interactive : Bool) :
    (c.supervise k interactive).1.workload ≤ c.workload := by
  cases hs : c.supervision with
  | some v =>
    rw [supervise_lost hs]
    exact Nat.le_refl _
  | none =>
    rw [supervise_first hs rfl]
    dsimp only
    have ho := workload_opened_le hs k
    have hst := workload_station_le { c with supervision := some { job := k }, ticker := .checking }
      c.settings.watchSignals !interactive
    have hw := workload_wake_le ((station
      { c with supervision := some { job := k }, ticker := .checking }
      c.settings.watchSignals !interactive).log
        (.started (c.job k).name c.settings.interval interactive)) .ticker
    have hl (d : Console) (x : Diagnostic) : (d.log x).workload = d.workload := rfl
    rw [hl] at hw
    omega

theorem Deed.workload_le (h : Deed c id s w d stage) :
    d.workload + stage.cost ≤ c.workload + w.load := by
  cases h with
  | still h => exact Nat.add_le_add_left h.cost_le _
  | @accept m slots mailbox hm _ hb =>
    have hl := sending?_load hm
    have hc := cost_afterSend_le true m
    have hitems : mailbox.items.length = c.mailbox.items.length + 1 := by
      cases hb <;> exact List.length_append
    have ht := c.toil_setMailbox mailbox
    have hw := workload_wakeReceiver_le (record { c with slots, mailbox } (.accepted id m))
    have he : (record { c with slots, mailbox } (.accepted id m)).workload =
        c.ready.length + toil { c with mailbox } := workload_eq _
    rw [c.workload_eq]
    omega
  | @refuse m slots hm =>
    have hl := sending?_load hm
    have hc := cost_afterSend_le false m
    have he : ((record { c with slots } (.refused id m)).log (.dropped m.kind)).workload =
        c.workload := rfl
    omega
  | @join m slots hw =>
    rw [hw]
    exact Nat.add_le_add_left (by simp [Stage.cost, Wait.load]) c.workload
  | park hw =>
    obtain ⟨parked, he⟩ := c.park_eq id
    rw [he]
    exact Nat.le_refl _
  | supervise hw =>
    rw [hw]
    exact Nat.add_le_add (c.workload_supervise_le _ _) (by simp [Stage.cost, Wait.load])
  | @sleep n hw =>
    rw [hw]
    exact Nat.add_le_add_left (by simp [Stage.cost, Wait.load]) c.workload

/-- A small step of an activity costs something, unless it comes to rest. -/
theorem Pursuit.workload_le (h : Pursuit c id a note d pace) (ha : c.standing id = .busy a)
    (hp : pace = .resting ∨ pace = .moving) :
    d.workload ≤ c.workload ∧ (pace = .moving → d.workload < c.workload) := by
  have hweigh {s : Statement} {rest : Program} {e : Console} {stage : Stage}
      (hprog : a.program = s :: rest) (he : c.perform id s a.wait = (e, stage)) (b : Activity) :
      (e.setActivity id b).workload + s.reserve + Program.load rest + stage.cost ≤
        c.workload + b.load := by
    have hd := deed_of_perform he
    have hcost := hd.workload_le
    have hset := workload_setActivity (activity?_of_standing (hd.standing_self ha)) b
    have hload : a.load = s.reserve + a.wait.load + Program.load rest := by
      simp only [Activity.load, hprog]
    omega
  cases h with
  | @rested s rest e w hprog he =>
    have hw := hweigh hprog he { a with wait := w }
    have hload : Activity.load { a with wait := w } = s.reserve + w.load + Program.load rest := by
      simp only [Activity.load, hprog]
    simp only [Stage.cost] at hw
    exact ⟨by omega, nofun⟩
  | @moved s rest e w hprog he =>
    have hw := hweigh hprog he { a with wait := w }
    have hload : Activity.load { a with wait := w } = s.reserve + w.load + Program.load rest := by
      simp only [Activity.load, hprog]
    simp only [Stage.cost] at hw
    exact ⟨by omega, fun _ => by omega⟩
  | @followed s next rest e o hprog he hf =>
    have hw := hweigh hprog he { a with program := next :: rest, wait := .fresh }
    have hload : Activity.load { a with program := next :: rest, wait := .fresh } =
      next.load + Program.load rest := rfl
    have hnext := load_followUp hf
    simp only [Stage.cost] at hw
    exact ⟨by omega, fun _ => by omega⟩
  | @finished s rest e o hprog he =>
    have hw := hweigh hprog he { program := rest, index := a.index + 1 }
    have hload := Activity.load_fresh rest (a.index + 1)
    have hset : ((e.record (note o)).setActivity id
        { program := rest, index := a.index + 1 }).workload =
          (e.setActivity id { program := rest, index := a.index + 1 }).workload := by
      cases id <;> rfl
    simp only [Stage.cost] at hw
    exact ⟨by omega, fun _ => by omega⟩
  | ended | crashed => rcases hp with hp | hp <;> cases hp

end Console

end JobConsole
