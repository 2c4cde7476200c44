import JobConsole.Proofs.Pruning

namespace JobConsole

variable {q : Pruning} {f : Nat → Bool} {a b : Activity} {s : Statement} {rest : Program}
  {v : Supervision} {request : Option Request}

def Keeps (f : Nat → Bool) (a : Activity) : Prop :=
  ∀ s rest, a.program = s :: rest → (s.starts && f a.index) = false

open Console

namespace Console

variable {c : Console} {id : TaskId}

theorem ticker_perform (hv : c.supervision = some v) (id : TaskId) (s : Statement) (w : Wait) :
    (c.perform id s w).1.supervision = some v ∧ (c.perform id s w).1.ticker = c.ticker := by
  have hd := @perform_deed c id s w
  by_cases hs : ∃ k interactive, s = .start k interactive ∧ w = .fresh
  · obtain ⟨k, interactive, rfl, rfl⟩ := hs
    simp only [perform, begin, supervise_lost hv]
    exact ⟨hv, rfl⟩
  · have hn (k : Nat) (interactive : Bool) (hk : s = .start k interactive) : w ≠ .fresh :=
      fun hw => hs ⟨k, interactive, hk, hw⟩
    obtain ⟨_, _, _, _, _, _, he⟩ := (hd.aloof hn).1
    rw [he]
    exact ⟨hv, rfl⟩

theorem cuts_perform (hv : id = .ticker → c.supervision ≠ none) (s : Statement) (w : Wait) :
    (c.perform id s w).1.cuts q id = c.cuts q id := by
  cases id with
  | ticker =>
    obtain ⟨v, hv⟩ := Option.ne_none_iff_exists'.1 (hv rfl)
    obtain ⟨hs, ht⟩ := ticker_perform hv .ticker s w
    unfold cuts
    rw [hs, ht, hv]
  | _ => rfl

theorem work_calling (hv : c.supervision = some v) (ht : c.ticker = .calling request a) :
    c.work .ticker = (c.continueCall v request a).1 := by
  simp only [work, hv, ht]

theorem work_resting (hn : ∀ v request a, id = .ticker → c.supervision = some v →
    c.ticker ≠ .calling request a) :
    c.work id = { (turn { c with terminated := false } id).1 with terminated := c.terminated } := by
  rcases c.work_cases id with ⟨v, request, a, hi, hv, ht, -⟩ | ⟨-, he⟩
  · exact absurd ht (hn v request a hi hv)
  · exact he

end Console

namespace TrimsCall

variable {o : Option Supervision} {t : Ticker}

theorem of_calling (h : TrimsCall q o (.calling request a) t) :
    ∃ b, t = .calling request b ∧ Trims (q.calls o request) a b := by
  cases h with
  | idle hi => cases hi
  | @calling _ _ b hab => exact ⟨b, rfl, hab⟩

theorem to_calling (h : TrimsCall q o t (.calling request b)) : ∃ a, t = .calling request a := by
  cases h with
  | idle hi => cases hi
  | @calling _ a => exact ⟨a, rfl⟩

end TrimsCall

namespace Pruned

variable {c d : Console} {id : TaskId}

theorem pursue (h : Pruned q c d) (hab : Trims (c.cuts q id) a b) (hk : Keeps (c.cuts q id) a)
    (hv : id = .ticker → c.supervision ≠ none) (note note' : Outcome → Event)
    (hn : ∀ o, (note' o).bare = (note o).bare) :
    Alike q (c.pursue id a note) (d.pursue id b note') := by
  unfold Console.pursue
  cases hp : a.program with
  | nil =>
    have hb : b.program = [] := by rw [hab.program, hp]; rfl
    rw [hb]
    exact ⟨h, rfl⟩
  | cons s rest =>
    have hb : b.program = s :: without (c.cuts q id) (a.index + 1) rest := by
      rw [hab.program, hp, without_keep (hk s rest hp)]
    -- The statement is the same on both sides, and its step leaves alone what is marked behind it.
    have hc := cuts_perform (q := q) hv s a.wait
    obtain ⟨e, e', stage, hl, hr, he⟩ := (h.perform id s a.wait).both
    rw [hl] at hc
    rw [hb, hab.wait]
    dsimp only
    rw [hl, hr]
    have hkeep : without (c.cuts q id) a.index (s :: rest) =
        s :: without (c.cuts q id) (a.index + 1) rest := without_keep (hk s rest hp)
    cases stage with
    | blocked w => exact ⟨he.setActivity ⟨by rw [hc, hkeep], rfl⟩, rfl⟩
    | moving w => exact ⟨he.setActivity ⟨by rw [hc, hkeep], rfl⟩, rfl⟩
    | crashed => exact ⟨he, rfl⟩
    | finished o =>
      dsimp only
      cases hf : s.followUp o with
      | some next =>
        have hnext : (next.starts && c.cuts q id a.index) = false := by simp [starts_followUp hf]
        exact ⟨he.setActivity ⟨by rw [hc, without_keep hnext], rfl⟩, rfl⟩
      | none =>
        have hcut : (e.record (note o)).cuts q id = c.cuts q id := hc
        exact ⟨(he.record (hn o)).setActivity ⟨by rw [hcut], rfl⟩, rfl⟩

/-! Producers. -/

theorem endProducer (h : Pruned q c d) (n : Nat) :
    Pruned q (c.endProducer n) (d.endProducer n) := by
  refine letGo (c := { c with producers := c.producers.set n none })
    (d := { d with producers := d.producers.set n none })
    ⟨?_, h.jobs, h.ticker, fun m => ?_, h.journal⟩
  · rw [h.rest]
    rfl
  · simp only [List.getElem?_set, h.length_producers]
    split
    · split
      · exact .some .none
      · exact .none
    · exact h.producers m

theorem producerTurn (h : Pruned q c d) {n : Nat}
    (hk : ∀ a, c.activity? (.producer n) = some a → Keeps (c.cuts q (.producer n)) a) :
    Alike q (c.producerTurn n) (d.producerTurn n) := by
  unfold Console.producerTurn
  generalize hx : c.activity? (.producer n) = x, d.activity? (.producer n) = y,
    h.activity? (.producer n) = hxy
  cases hxy with
  | none => exact ⟨h, rfl⟩
  | @some a b hab =>
    obtain ⟨e, e', pace, hl, hr, he⟩ := (h.pursue hab (hk a hx) nofun (.finished n a.index)
      (.finished n b.index) fun _ => rfl).both
    dsimp only
    rw [hl, hr]
    cases pace with
    | resting => exact ⟨he, rfl⟩
    | moving => exact ⟨he, rfl⟩
    | ended => exact ⟨he.endProducer n, rfl⟩
    | crashed => exact ⟨he.endProducer n, rfl⟩

/-! The ticker. -/

theorem setTicker {t u : Ticker} (h : Pruned q c d) (ht : TrimsCall q c.supervision t u) :
    Pruned q { c with ticker := t } { d with ticker := u } := by
  refine ⟨?_, h.jobs, ht, h.producers, h.journal⟩
  rw [h.rest]
  rfl

theorem beginCall (h : Pruned q c d) (v : Supervision) :
    Pruned q (c.beginCall v) (d.beginCall v) := by
  have hr : d.request = c.request := by rw [h.rest]; rfl
  have hc := (h.aside (fun e => { e with request := none }) fun _ _ _ _ _ => ⟨rfl, rfl⟩).assign
    (v := some { v with tally := v.tally.next c.request })
    (.calling (q := q) (b := { program := (d.job v.job).call (v.tally.next c.request) c.request })
      (a := { program := (c.job v.job).call (v.tally.next c.request) c.request })
      ⟨h.call_eq v.job (v.tally.next c.request) c.request, rfl⟩)
  unfold Console.beginCall
  rw [hr]
  generalize c.request = request at hc
  cases request with
  | none => exact hc.record rfl
  | some r =>
    dsimp only
    rw [h.job_name]
    exact (hc.log _).record rfl

theorem pause (h : Pruned q c d) : Pruned q c.pause d.pause := by
  have hi : d.intervalMilliseconds = c.intervalMilliseconds := by rw [h.rest]; rfl
  have hs := h.setTicker (.idle (t := .sleeping (c.now + c.intervalMilliseconds)) rfl)
  unfold Console.pause
  rw [hi, h.now_eq]
  rw [h.now_eq] at hs
  exact hs.setTimer _

theorem recover (h : Pruned q c d) (v : Supervision) (request : Option Request) :
    Pruned q (c.recover v request) (d.recover v request) := by
  unfold Console.recover
  rw [h.job_name]
  cases request with
  | none => exact h.log _
  | some r => exact (h.log _).aside (·.offer r) fun _ _ _ _ _ => ⟨rfl, rfl⟩

theorem continueCall (h : Pruned q c d) (hv : c.supervision = some v) (request : Option Request)
    (hab : Trims (c.cuts q .ticker) a b) (hk : Keeps (c.cuts q .ticker) a) :
    Alike q (c.continueCall v request a) (d.continueCall v request b) := by
  obtain ⟨e, e', pace, hl, hr, he⟩ := (h.pursue hab hk (fun _ => by simp [hv])
    (Event.call v.job request (v.tally.number request) ∘ .finished)
    (Event.call v.job request (v.tally.number request) ∘ .finished) fun _ => rfl).both
  unfold Console.continueCall
  dsimp only
  rw [hl, hr]
  cases pace with
  | resting => exact ⟨he, rfl⟩
  | moving => exact ⟨he, rfl⟩
  | ended => exact ⟨(he.record rfl).pause, rfl⟩
  | crashed => exact ⟨((he.record rfl).recover v request).pause, rfl⟩

theorem withdraw (h : Pruned q c d) (id : TaskId) : Pruned q (c.withdraw id) (d.withdraw id) :=
  h.aside (·.withdraw id) fun _ _ _ _ _ => ⟨rfl, rfl⟩

theorem stopTicker (h : Pruned q c d) (v : Supervision) :
    Pruned q (c.stopTicker v) (d.stopTicker v) := by
  unfold Console.stopTicker
  rw [h.job_name]
  exact (((h.withdraw .ticker).setTicker (.idle rfl)).log _).letGo

theorem tickerTurn (h : Pruned q c d)
    (hk : ∀ a, c.current? .ticker = some a → Keeps (c.cuts q .ticker) a) :
    Alike q c.tickerTurn d.tickerTurn := by
  have hdue : Pruned q { c with ticker := .checking } { d with ticker := .checking } :=
    h.setTicker (.idle rfl)
  unfold Console.tickerTurn
  rw [h.supervision_eq, h.terminated_eq, h.now_eq]
  rw [h.supervision_eq, h.terminated_eq, h.now_eq] at hdue
  cases hv : c.supervision with
  | none => exact ⟨h, rfl⟩
  | some v =>
    generalize hct : c.ticker = t, hdt : d.ticker = u, h.ticker = htu
    cases htu with
    | idle hi =>
      cases t with
      | absent => exact ⟨h, rfl⟩
      | calling => cases hi
      | checking =>
        dsimp only
        split
        · exact ⟨h.stopTicker v, rfl⟩
        · exact ⟨h.beginCall v, rfl⟩
      | sleeping deadline =>
        dsimp only
        split
        · exact ⟨h.stopTicker v, rfl⟩
        · split
          · rw [hv] at hdue
            exact ⟨hdue, rfl⟩
          · exact ⟨h, rfl⟩
    | @calling request a b hab =>
      dsimp only
      split
      · exact ⟨h.stopTicker v, rfl⟩
      · rename_i hterm
        have hcut : c.cuts q .ticker = q.calls c.supervision request := by
          unfold cuts
          rw [hct]
        have ha : c.current? .ticker = some a :=
          current?_ticker.2 ⟨by simpa using hterm, v, request, hv, hct⟩
        exact h.continueCall hv request (by rwa [hcut]) (hk a ha)

/-! The watches. -/

theorem resumeRead (h : Pruned q c d) (id : TaskId) :
    Pruned q (c.resumeRead id) (d.resumeRead id) :=
  h.aside (·.resumeRead id) fun _ _ _ _ _ => ⟨rfl, rfl⟩

theorem readLine (h : Pruned q c d) (id : TaskId) : Alike q (c.readLine id) (d.readLine id) := by
  have hr : d.reader = c.reader := by rw [h.rest]; rfl
  rw [readLine_eq, readLine_eq, hr]
  cases (c.reader.resume id).result with
  | none => exact ⟨h.resumeRead id, rfl⟩
  | some result => exact ⟨(h.resumeRead id).record rfl, rfl⟩

theorem endKeywordWatch (h : Pruned q c d) : Pruned q c.endKeywordWatch d.endKeywordWatch :=
  letGo (h.aside
    (fun e => Console.wakeAll { e with
        reader := (e.reader.abandon .keywordWatch).1, keywordWatch := false }
      (e.reader.abandon .keywordWatch).2.toList)
    fun _ _ _ _ _ => ⟨rfl, rfl⟩)

theorem keywordWatchTurn (h : Pruned q c d) : Alike q c.keywordWatchTurn d.keywordWatchTurn := by
  have hk : d.keywordWatch = c.keywordWatch := by rw [h.rest]; rfl
  obtain ⟨e, e', result, hl, hr, he⟩ := (h.readLine .keywordWatch).both
  unfold Console.keywordWatchTurn
  rw [hk, h.terminated_eq]
  split
  · exact ⟨h, rfl⟩
  · split
    · exact ⟨h.endKeywordWatch, rfl⟩
    · rw [hl, hr]
      have hv : e'.settings = e.settings := by rw [he.rest]; rfl
      match result with
      | none => exact ⟨he, rfl⟩
      | some (.ok line) =>
        dsimp only
        rw [hv]
        split
        · have ho := (he.log .keywordReceived).aside (·.offer .keyword) fun _ _ _ _ _ => ⟨rfl, rfl⟩
          exact ⟨ho.endKeywordWatch, rfl⟩
        · exact ⟨he, rfl⟩
      | some (.error failure) => exact ⟨((he.log _).record rfl).endKeywordWatch, rfl⟩

theorem signalWatchTurn (h : Pruned q c d) : Alike q c.signalWatchTurn d.signalWatchTurn := by
  have hw : d.signalWatch = c.signalWatch := by rw [h.rest]; rfl
  have hf : d.signalFault = c.signalFault := by rw [h.rest]; rfl
  have hset (w : SignalWatch) : Pruned q { c with signalWatch := w } { d with signalWatch := w } :=
    h.aside (fun e => { e with signalWatch := w }) fun _ _ _ _ _ => ⟨rfl, rfl⟩
  unfold Console.signalWatchTurn
  rw [hw, hf, h.terminated_eq]
  simp only [hf, h.terminated_eq] at hset
  generalize c.signalWatch = w, c.signalFault = fault at hset
  cases w with
  | absent => exact ⟨h, rfl⟩
  | registering =>
    cases fault with
    | none => exact ⟨hset _, rfl⟩
    | some cause => exact ⟨(hset _).log _, rfl⟩
  | listening pending =>
    dsimp only
    split
    · exact ⟨hset _, rfl⟩
    · cases pending with
      | nil => exact ⟨h, rfl⟩
      | cons s rest =>
        exact ⟨((hset _).log _).aside (·.offer .signal) fun _ _ _ _ _ => ⟨rfl, rfl⟩, rfl⟩

/-! The printer. -/

theorem closeMailbox (h : Pruned q c d) : Pruned q c.closeMailbox d.closeMailbox :=
  h.aside Console.closeMailbox fun _ _ _ _ _ => ⟨rfl, rfl⟩

theorem setPrinter (h : Pruned q c d) (p : Printer) :
    Pruned q { c with printer := p } { d with printer := p } :=
  h.aside (fun e => { e with printer := p }) fun _ _ _ _ _ => ⟨rfl, rfl⟩

theorem stopPrinter (h : Pruned q c d) : Pruned q c.stopPrinter d.stopPrinter := by
  have ht : Pruned q c.closeMailbox.terminate d.closeMailbox.terminate :=
    h.closeMailbox.aside Console.terminate fun _ _ _ _ _ => ⟨rfl, rfl⟩
  exact ((ht.setPrinter .stopped).log _).discard

theorem crashPrinter (h : Pruned q c d) (m : Message) :
    Pruned q (c.crashPrinter m) (d.crashPrinter m) :=
  ((h.hangUpOn m).setPrinter .crashed).closeMailbox.discard

theorem shown (h : Pruned q c d) (kind : Kind) (r : Display.Drawn) :
    Pruned q (c.shown kind r) (d.shown kind r) := by
  have hd := h.aside (fun e => { e with display := r.display }) fun _ _ _ _ _ => ⟨rfl, rfl⟩
  have hw : Pruned q (Console.record { c with display := r.display } (.wrote r.bytes))
      (Console.record { d with display := r.display } (.wrote r.bytes)) :=
    hd.record rfl
  unfold Console.shown
  split
  · exact hw.record rfl
  · exact hw.log _

theorem handle (h : Pruned q c d) (m : Message) : Alike q (c.handle m) (d.handle m) := by
  have hd : d.display = c.display := by rw [h.rest]; rfl
  unfold Console.handle
  rw [draw?_eq, draw?_eq, hd]
  cases c.display.draw m.kind m.text with
  | none => exact ⟨h.crashPrinter m, rfl⟩
  | some r =>
    have hs := h.shown m.kind r
    cases m with
    | prompt text slot => exact ⟨hs.setPrinter _, rfl⟩
    | exit text code => exact ⟨((hs.log _).record rfl).setPrinter _, rfl⟩
    | _ => exact ⟨hs, rfl⟩

theorem receive (h : Pruned q c d) : Alike q c.receive d.receive := by
  unfold Console.receive
  rw [h.mailbox_eq, h.isHeld_eq]
  cases c.mailbox.take? with
  | none =>
    dsimp only
    split
    · exact ⟨h, rfl⟩
    · exact ⟨h.stopPrinter, rfl⟩
  | some t =>
    have ht := h.aside (fun e => { e with mailbox := t.mailbox }) fun _ _ _ _ _ => ⟨rfl, rfl⟩
    exact ((ht.wakeAll t.woken.toList).record rfl).handle t.message

theorem readAnswer (h : Pruned q c d) (slot : ReplySlot) :
    Alike q (c.readAnswer slot) (d.readAnswer slot) := by
  obtain ⟨e, e', result, hl, hr, he⟩ := (h.readLine .printer).both
  unfold Console.readAnswer
  rw [hl, hr]
  match result with
  | none => exact ⟨he, rfl⟩
  | some (.ok line) => exact ⟨(he.answer slot line).setPrinter _, rfl⟩
  | some (.error failure) =>
    exact ⟨(((he.log _).record rfl).hangUp slot).setPrinter _, rfl⟩

theorem printerTurn (h : Pruned q c d) : Alike q c.printerTurn d.printerTurn := by
  have hp : d.printer = c.printer := by rw [h.rest]; rfl
  unfold Console.printerTurn
  rw [hp]
  cases c.printer with
  | receiving => exact h.receive
  | reading slot => exact h.readAnswer slot
  | leaving => exact ⟨h.stopPrinter, rfl⟩
  | stopped => exact ⟨h, rfl⟩
  | crashed => exact ⟨h, rfl⟩

/-! All tasks. -/

theorem turn (h : Pruned q c d) (hk : ∀ a, c.current? id = some a → Keeps (c.cuts q id) a) :
    Alike q (c.turn id) (d.turn id) := by
  cases id with
  | printer => exact h.printerTurn
  | signalWatch => exact h.signalWatchTurn
  | keywordWatch => exact h.keywordWatchTurn
  | ticker => exact h.tickerTurn hk
  | producer n =>
    refine h.producerTurn fun a ha => hk a ?_
    simp [current?, standing_producer.2 ha]

theorem step (h : Pruned q c d) (hk : ∀ a, c.current? id = some a → Keeps (c.cuts q id) a) :
    Pruned q (c.step id) (d.step id) := by
  have ht := h.turn hk
  unfold Console.step
  dsimp only
  rw [ht.same]
  split
  · exact ht.pruned
  · exact ht.pruned.aside (fun e => { e with ready := e.ready.erase id })
      fun _ _ _ _ _ => ⟨rfl, rfl⟩

theorem work (h : Pruned q c d) (hi : id ∈ watchers)
    (hk : ∀ a, c.standing id = .busy a → Keeps (c.cuts q id) a) :
    Pruned q (c.work id) (d.work id) := by
  have hcalls := h.ticker
  rcases c.work_cases id with ⟨v, request, a, rfl, hv, hct, he⟩ | ⟨hn, he⟩ <;> rw [he]
  · have hcut : c.cuts q .ticker = q.calls c.supervision request := by
      unfold cuts
      rw [hct]
    rw [hct] at hcalls
    obtain ⟨b, hdt, hab⟩ := hcalls.of_calling
    rw [work_calling (h.supervision_eq.trans hv) hdt]
    exact (h.continueCall hv request (by rwa [hcut]) (hk a (standing_calling hv hct))).pruned
  · -- Neither ticker is in a call, so neither turn goes on with a statement.
    have hdn (v : Supervision) (request : Option Request) (b : Activity) (hid : id = .ticker)
        (hv : d.supervision = some v) : d.ticker ≠ .calling request b := by
      intro hdt
      rw [hdt] at hcalls
      obtain ⟨a, hct⟩ := hcalls.to_calling
      exact hn v request a hid (h.supervision_eq.symm.trans hv) hct
    have hopen : Pruned q { c with terminated := false } { d with terminated := false } :=
      h.aside (fun e => { e with terminated := false }) fun _ _ _ _ _ => ⟨rfl, rfl⟩
    have hidle (a : Activity) : current? { c with terminated := false } id ≠ some a := by
      intro ha
      cases id with
      | ticker =>
        obtain ⟨-, v, request, hv, hct⟩ := current?_ticker.1 ha
        exact hn v request a rfl hv hct
      | producer n => simp [watchers] at hi
      | _ => cases ha
    have hturn := hopen.turn fun a ha => absurd ha (hidle a)
    rw [work_resting hdn, h.terminated_eq]
    exact hturn.pruned.aside (fun e => { e with terminated := c.terminated })
      fun _ _ _ _ _ => ⟨rfl, rfl⟩

end Pruned

end JobConsole
