import JobConsole.Proofs.Answers
import JobConsole.Proofs.Crew
import JobConsole.Proofs.Serving

namespace JobConsole

inductive Taker
  | prompt (slot : ReplySlot)
  | watch

namespace Taker

def task : Taker → TaskId
  | prompt _ => .printer
  | watch => .keywordWatch

def slot? : Taker → Option ReplySlot
  | prompt slot => some slot
  | watch => none

end Taker

structure Parcel where
  taker : Taker
  items : List Item
  result : Except Failure String

namespace Parcel

def entry (p : Parcel) : TaskId × Except Failure String :=
  (p.taker.task, p.result)

def served? (p : Parcel) : Option (ReplySlot × Except Failure String) :=
  p.taker.slot?.map (·, p.result)

end Parcel

def Settings.endsWatch (s : Settings) : Except Failure String → Bool
  | .ok line => s.isCancelKeyword line
  | .error _ => true

namespace Console

variable {c₀ c d : Console} {moves older : List Move} {m : Move} {slot : ReplySlot}
  {ps before : List Parcel} {p : Parcel}

/-- The printer is about to read a line for a prompt, and has been in line since it asked. -/
inductive InTurn (c₀ : Console) (older : List Move) (slot : ReplySlot) (b : Console) : Prop
  | intro {asked rest : List Move} {a : Console} (hm : older = asked ++ rest)
      (hs : (rest ++ [Move.step .printer]).head? = some (Move.step .printer)) (ha : Run c₀ asked a)
      (hp : a.printer = .reading slot) (hi : a.reader.isReading .printer = false)
      (hn : Upcoming a rest b)

structure Deals (c₀ : Console) (older : List Move) (before : List Parcel) (p : Parcel)
    (b : Console) : Prop where
  run : Run c₀ older b
  before : b.reads = before.map Parcel.entry
  after : (b.step p.taker.task).reads = b.reads ++ [p.entry]
  items : b.reader.unread = p.items ++ (b.step p.taker.task).reader.unread
  portion : Portion b.reader.source.closed b.reader.unread p.result
    (b.step p.taker.task).reader.unread
  prompt : ∀ slot, p.taker = .prompt slot → b.printer = .reading slot ∧ InTurn c₀ older slot b

structure Shared (c₀ : Console) (moves : List Move) (c : Console) (ps : List Parcel) : Prop where
  reads : c.reads = ps.map Parcel.entry
  served : c.served = ps.filterMap Parcel.served?
  input : c₀.reader.unread ++ fed moves = ps.flatMap Parcel.items ++ c.reader.unread
  dealt : ∀ before p after, ps = before ++ p :: after → ∃ older newer b,
    moves = older ++ .step p.taker.task :: newer ∧ Deals c₀ older before p b
  watch : ∀ before p after, ps = before ++ p :: after → p.taker = .watch →
    c₀.settings.endsWatch p.result = true → ∀ q ∈ after, q.taker ≠ .watch

/-! One more move. -/

theorem Shared.unmoved (h : Shared c₀ moves c ps) (hc : c.Attainable) (he : c.events <+: d.events)
    (hr : d.reads = c.reads) (hu : d.reader.unread = c.reader.unread ++ m.items) :
    Shared c₀ (moves ++ [m]) d ps := by
  constructor
  case reads => rw [hr, h.reads]
  case served => rw [hc.served_of_reads he hr, h.served]
  case input => rw [fed_concat, ← List.append_assoc, h.input, hu, List.append_assoc]
  case dealt =>
    intro before p after hp
    obtain ⟨older, newer, b, hm, hb⟩ := h.dealt before p after hp
    exact ⟨older, newer ++ [m], b, by simp [hm], hb⟩
  case watch => exact h.watch

theorem Shared.next (h : Shared c₀ moves c ps) (hd : Deals c₀ moves ps p c)
    (hs : (c.step p.taker.task).served = c.served ++ p.served?.toList)
    (hw : p.taker = .watch → ∀ q ∈ ps, q.taker = .watch →
      c₀.settings.endsWatch q.result = false) :
    Shared c₀ (moves ++ [.step p.taker.task]) (c.step p.taker.task) (ps ++ [p]) := by
  constructor
  case reads => rw [hd.after, h.reads, List.map_append, List.map_singleton]
  case served =>
    rw [hs, h.served, List.filterMap_append]
    cases hp : p.served? <;> simp [hp]
  case input =>
    rw [fed_concat, ← List.append_assoc, h.input, hd.items]
    simp [Move.items]
  case dealt =>
    intro before q after hq
    rcases append_cons_eq_concat hq.symm with ⟨rfl, rfl, rfl⟩ | ⟨after', rfl, hps⟩
    · exact ⟨moves, [], c, rfl, hd⟩
    · obtain ⟨older, newer, b, hm, hb⟩ := h.dealt before q after' hps.symm
      exact ⟨older, newer ++ [.step p.taker.task], b, by simp [hm], hb⟩
  case watch =>
    intro before q after hq ht hf
    rcases append_cons_eq_concat hq.symm with ⟨rfl, rfl, rfl⟩ | ⟨after', rfl, hps⟩
    · exact nofun
    · intro r hr
      rcases List.mem_append.1 hr with hr | hr
      · exact h.watch before q after' hps.symm ht hf r hr
      · rw [List.mem_singleton.1 hr]
        intro hp
        have hq : q ∈ ps := by rw [← hps]; simp
        rw [hw hp q hq ht] at hf
        cases hf

/-! The readers. -/

inductive Lined (c₀ : Console) (moves : List Move) (slot : ReplySlot) (c : Console) : Prop
  | unasked (h : c.reader.isReading .printer = false)
  | asked {asked rest : List Move} {a : Console} (hm : moves = asked ++ .step .printer :: rest)
      (ha : Run c₀ asked a) (hr : Run a (.step .printer :: rest) c) (hp : a.printer = .reading slot)
      (hi : a.reader.isReading .printer = false) (hw : Pending a (.step .printer :: rest) c)

theorem Lined.inTurn (h : Lined c₀ moves slot c) (hr : Run c₀ moves c)
    (hp : c.printer = .reading slot)
    (ho : c.reader.owner = none ∨ c.reader.owner = some .printer) : InTurn c₀ moves slot c := by
  have hn : c.reader.owner ≠ some .keywordWatch := by
    rcases ho with ho | ho <;> rw [ho] <;> exact nofun
  cases h with
  | unasked hi =>
    exact ⟨(List.append_nil moves).symm, rfl, hr, hp, hi, .first hn rfl (List.append_nil _).symm⟩
  | asked hm ha _ hp' hi hw =>
    cases hw with
    | behind hf => exact absurd hf.1 hn
    | next _ hu => exact ⟨hm, rfl, ha, hp', hi, hu⟩

theorem Lined.act (h : Lined c₀ moves slot c) (hc : c.Reachable) (hp : c.printer = .reading slot)
    (hm : m ≠ .step .printer) (ha : c.allows m) : Lined c₀ (moves ++ [m]) slot (c.act m) := by
  cases h with
  | unasked hi =>
    refine .unasked (c.act_keeps (P := fun r => r.isReading .printer = false) m ?_ ?_ ?_ hi)
    · exact fun _ _ h => h
    · rintro r id rfl h
      exact LineReader.isReading_resume (fun hid => hm (by rw [← hid])) h
    · exact fun _ _ h => LineReader.isReading_abandon h
  | @asked before rest a hmoves ha' hr hp' hi hw =>
    have hrun : Run a (.step .printer :: (rest ++ [m])) (c.act m) := .next m hr ha
    refine .asked (by simp [hmoves]) ha' hrun hp' hi ?_
    by_cases hk : m = .step .keywordWatch
    · subst hk
      exact hw.watch hr hc hp
    · obtain ⟨hr, ho, hw', hu⟩ := act_still (c := c) hm hk
      exact hw.still hr ho (fun i hi => hw' ▸ hi) hu

theorem KeywordWatchTurn.ends {more : Bool} {result : Except Failure String}
    (h : KeywordWatchTurn c d more) (hf : c.reader.Fair) (hn : d.reads ≠ c.reads)
    (hs : (c.reader.resume .keywordWatch).result = some result) : c.keywordWatch = true ∧
      (c.settings.endsWatch result = true →
        d.keywordWatch = false ∧ d.reader.isReading .keywordWatch = false) := by
  have hleft := (hf.resume .keywordWatch).left .keywordWatch
  cases h with
  | off => exact absurd rfl hn
  | stop => exact absurd rfl hn
  | pending _ _ hr => rw [hs] at hr; cases hr
  | keyword hk => exact ⟨hk, fun _ => ⟨rfl, hleft⟩⟩
  | @other line hk _ hr hl =>
    rw [hs] at hr
    cases hr
    refine ⟨hk, fun he => ?_⟩
    rw [Settings.endsWatch, hl] at he
    cases he
  | failed hk => exact ⟨hk, fun _ => ⟨rfl, hleft⟩⟩

structure Unwatched (c : Console) : Prop where
  ended : c.keywordWatch = false
  charged : c.charge ≠ none
  left : c.reader.isReading .keywordWatch = false

theorem Unwatched.act (h : Unwatched c) (m : Move) : Unwatched (c.act m) := by
  obtain ⟨hk, hj⟩ := act_watched m h.ended h.charged
  refine ⟨hk, hj, ?_⟩
  by_cases hm : m = .step .keywordWatch
  · subst hm
    have ht : c.turn .keywordWatch = (c, false) := by simp [turn, keywordWatchTurn, h.ended]
    obtain ⟨ready, he⟩ := c.turn_eq_step .keywordWatch
    rw [Console.act, he, ht]
    exact h.left
  · refine c.act_keeps (P := fun r => r.isReading .keywordWatch = false) m ?_ ?_ ?_ h.left
    · exact fun _ _ h => h
    · rintro r id rfl h
      exact LineReader.isReading_resume (fun hid => hm (by rw [← hid])) h
    · exact fun _ _ h => LineReader.isReading_abandon h

/-! A run. -/

/-- What is carried along a run: where the printer stands with its read, and that a keyword watch
which has read its last is gone. -/
structure Sharing (c₀ : Console) (moves : List Move) (c : Console) (ps : List Parcel) : Prop extends
    Shared c₀ moves c ps where
  settings : c.settings = c₀.settings
  lined : ∀ slot, c.printer = .reading slot → Lined c₀ moves slot c
  ended : ∀ p ∈ ps, p.taker = .watch → c₀.settings.endsWatch p.result = true → Unwatched c

theorem Sharing.unmoved (h : Sharing c₀ moves c ps) (hc : c.Reachable)
    (hr : (c.act m).reads = c.reads)
    (hu : (c.act m).reader.unread = c.reader.unread ++ m.items)
    (hl : ∀ slot, (c.act m).printer = .reading slot → Lined c₀ (moves ++ [m]) slot (c.act m)) :
    Sharing c₀ (moves ++ [m]) (c.act m) ps := by
  refine ⟨h.toShared.unmoved hc.attainable (c.act_grows m) hr hu,
    (c.act_sized m).1.trans h.settings, hl, fun p hp ht hf => ?_⟩
  exact (h.ended p hp ht hf).act m

theorem unasked_of_ne (hc : c.Reachable) (hp : c.printer ≠ .crashed)
    (hn : ∀ slot, c.printer ≠ .reading slot) : c.reader.isReading .printer = false := by
  have hr := (hc.attainable.coheres hp).attended.readers .printer
  simp only [LineReader.isReading, Bool.or_eq_false_iff, decide_eq_false_iff_not]
  rw [← not_or]
  intro hi
  obtain ⟨slot, hs⟩ := hr hi
  exact hn slot hs

theorem PrinterTurn.receiving {more : Bool} (h : PrinterTurn c d more)
    (hn : ∀ slot, c.printer ≠ .reading slot) (hp : d.printer = .reading slot) :
    c.printer = .receiving := by
  cases h with
  | gone h => exact absurd hp (hn slot)
  | idle h | deserted h | choked h | told h | asked h | exited h => exact h
  | pending h | heard h | failed h => exact absurd h (hn _)
  | left h =>
    obtain ⟨producers, ticker, ready, he⟩ := c.stopPrinter_eq
    rw [he] at hp
    cases hp

theorem ReadingTurn.done {result : Except Failure String} (h : ReadingTurn c slot d)
    (hs : (c.reader.resume .printer).result = some result) : ∀ slot, d.printer ≠ .reading slot := by
  cases h with
  | pending hr => rw [hs] at hr; cases hr
  | heard | failed => exact nofun

theorem Sharing.idle (h : Sharing c₀ moves c ps) (hc : c.Reachable)
    (hn : ∀ slot, c.printer ≠ .reading slot) :
    Sharing c₀ (moves ++ [.step .printer]) (c.step .printer) ps := by
  have ht := c.printerTurn_cases
  obtain ⟨hr, hs⟩ := ht.apart hn
  obtain ⟨ready, he⟩ := c.turn_eq_step .printer
  have hr' : (c.act (.step .printer)).reader = c.reader := by rw [act, he]; exact hr
  have hs' : (c.act (.step .printer)).reads = c.reads := by rw [act, he]; exact hs
  refine h.unmoved hc hs' (by rw [hr']; exact (List.append_nil _).symm) fun slot hp => ?_
  have hp' : (c.printerTurn.1).printer = .reading slot := by rw [act, he] at hp; exact hp
  refine .unasked ?_
  rw [hr']
  exact unasked_of_ne hc (by simp [ht.receiving hn hp']) hn

theorem Sharing.others (h : Sharing c₀ moves c ps) (hc : c.Reachable) (ha : c.allows m)
    (hp : m ≠ .step .printer) (hr : (c.act m).reads = c.reads)
    (hu : (c.act m).reader.unread = c.reader.unread ++ m.items) :
    Sharing c₀ (moves ++ [m]) (c.act m) ps := by
  refine h.unmoved hc hr hu fun slot hs => ?_
  have hs' : c.printer = .reading slot := (c.act_aside m hp).1.symm.trans hs
  exact (h.lined slot hs').act hc hs' hp ha

theorem Sharing.answered (h : Sharing c₀ moves c ps) (hr : Run c₀ moves c) (hc : c.Reachable)
    (hp : c.printer = .reading slot) {result : Except Failure String}
    (ho : c.reader.owner = none ∨ c.reader.owner = some .printer)
    (hl : Portion c.reader.source.closed c.reader.unread result (c.step .printer).reader.unread)
    (hd : (c.step .printer).reads = c.reads ++ [(.printer, result)])
    (hn : ∀ slot, (c.step .printer).printer ≠ .reading slot) :
    ∃ p, Sharing c₀ (moves ++ [.step .printer]) (c.step .printer) (ps ++ [p]) := by
  obtain ⟨items, hi⟩ := hl.split
  have hdeal : Deals c₀ moves ps ⟨.prompt slot, items, result⟩ c := by
    refine ⟨hr, h.reads, hd, hi, hl, ?_⟩
    rintro slot ⟨⟩
    exact ⟨hp, (h.lined slot hp).inTurn hr hp ho⟩
  have hs : (c.step .printer).served = c.served ++ [(slot, result)] :=
    hc.attainable.served_of_answer hp (c.act_grows (.step .printer)) hd
  refine ⟨_, h.toShared.next hdeal hs nofun, (c.act_sized (.step .printer)).1.trans h.settings,
    fun slot hs => absurd hs (hn slot), fun q hq ht hf => ?_⟩
  rcases List.mem_append.1 hq with hq | hq
  · exact (h.ended q hq ht hf).act (.step .printer)
  · rw [List.mem_singleton.1 hq] at ht
    cases ht

theorem Sharing.watched (h : Sharing c₀ moves c ps) (hr : Run c₀ moves c) (hc : c.Reachable)
    (ha : c.allows (.step .keywordWatch)) {result : Except Failure String}
    (hs : (c.reader.resume .keywordWatch).result = some result)
    (hl : Portion c.reader.source.closed c.reader.unread result
      (c.step .keywordWatch).reader.unread)
    (hd : (c.step .keywordWatch).reads = c.reads ++ [(.keywordWatch, result)]) :
    ∃ p, Sharing c₀ (moves ++ [.step .keywordWatch]) (c.step .keywordWatch) (ps ++ [p]) := by
  obtain ⟨items, hi⟩ := hl.split
  have hdeal : Deals c₀ moves ps ⟨.watch, items, result⟩ c := ⟨hr, h.reads, hd, hi, hl, nofun⟩
  have hserved : (c.step .keywordWatch).served = c.served := by
    refine hc.attainable.served_of_rest (c.act_grows (.step .keywordWatch)) ?_
    rw [answers_eq, answers_eq, hd, List.filterMap_append]
    exact List.append_nil _
  obtain ⟨ready, he⟩ := c.turn_eq_step .keywordWatch
  have hne : c.keywordWatchTurn.1.reads ≠ c.reads := by
    intro hx
    rw [he] at hd
    have hl := congrArg List.length (hx.symm.trans hd)
    simp at hl
  obtain ⟨hk, hend⟩ := c.keywordWatchTurn_cases.ends hc.fair hne hs
  -- The watch is still there to read, so nothing that it has read before can have ended it.
  have hearlier : ∀ q ∈ ps, q.taker = .watch → c₀.settings.endsWatch q.result = false := by
    intro q hq ht
    by_contra hf
    have hk' := (h.ended q hq ht (by simpa using hf)).ended
    rw [hk] at hk'
    cases hk'
  refine ⟨_, h.toShared.next hdeal (hserved.trans (List.append_nil _).symm) fun _ => hearlier,
    (c.act_sized (.step .keywordWatch)).1.trans h.settings, fun slot hs => ?_, fun q hq ht hf => ?_⟩
  · have hs' : c.printer = .reading slot := (c.act_aside (.step .keywordWatch) nofun).1.symm.trans hs
    exact (h.lined slot hs').act hc hs' nofun ha
  · rcases List.mem_append.1 hq with hq | hq
    · rw [hearlier q hq ht] at hf
      cases hf
    · rw [List.mem_singleton.1 hq, ← h.settings] at hf
      have hj : (c.act (.step .keywordWatch)).charge ≠ none := by
        have hh := c.act_hires (.step .keywordWatch)
        obtain ⟨k, hx⟩ := Option.ne_none_iff_exists'.1 (hc.charged .keywordWatch hk)
        simp [hh.charge, hx]
      have hleft := hend hf
      refine ⟨?_, hj, ?_⟩ <;> rw [he]
      · exact hleft.1
      · exact hleft.2

theorem Sharing.printer (h : Sharing c₀ moves c ps) (hr : Run c₀ moves c) (hc : c.Reachable)
    (ha : c.allows (.step .printer)) :
    ∃ ps, Sharing c₀ (moves ++ [.step .printer]) (c.step .printer) ps := by
  by_cases hn : ∀ slot, c.printer ≠ .reading slot
  · exact ⟨ps, h.idle hc hn⟩
  · simp only [ne_eq, not_forall, not_not] at hn
    obtain ⟨slot, hp⟩ := hn
    have hd := hc.prompter hp
    cases hd with
    | read hs ho _ hl hd =>
      obtain ⟨ready, he⟩ := c.turn_eq_step .printer
      have hdone : ∀ slot, (c.step .printer).printer ≠ .reading slot := by
        rw [he]
        exact (c.printerTurn_cases.reading hp).done hs
      obtain ⟨p, hs⟩ := h.answered hr hc hp ho hl hd hdone
      exact ⟨_, hs⟩
    | rested hp' ho hw hi hu hd =>
      refine ⟨ps, h.unmoved hc hd (hu.trans (List.append_nil _).symm) fun slot' hs => ?_⟩
      obtain rfl : slot' = slot := by
        have hx : (c.step .printer).printer = .reading slot := hp'.trans hp
        exact Printer.reading.inj (hs.symm.trans hx)
      -- A turn that reads nothing either asks for the lock or goes on waiting for it.
      cases h.lined slot' hp with
      | unasked hun =>
        exact .asked rfl hr (.next _ .start ha) hp hun (.begin hc hp ho hi hu hd)
      | @asked before rest a hmoves ha' hr' hp'' hun hw' =>
        have hrun : Run a (.step .printer :: (rest ++ [.step .printer])) (c.step .printer) :=
          .next _ hr' ha
        refine .asked (by simp [hmoves]) ha' hrun hp'' hun ?_
        obtain ⟨i, hi⟩ : ∃ i, c.reader.owner = some i := by
          cases hw' with
          | behind hf => exact ⟨_, hf.1⟩
          | next ho => exact ⟨_, ho⟩
        exact hw'.rest hi ho hw hu hd

theorem Sharing.keywordWatch (h : Sharing c₀ moves c ps) (hr : Run c₀ moves c) (hc : c.Reachable)
    (ha : c.allows (.step .keywordWatch)) (ht : c.terminated = false) :
    ∃ ps, Sharing c₀ (moves ++ [.step .keywordWatch]) (c.step .keywordWatch) ps := by
  rcases c.keywordWatchTurn_cases.draws ht hc.fair hc.clean with ⟨hreader, hreads⟩ | hd
  · obtain ⟨ready, he⟩ := c.turn_eq_step .keywordWatch
    refine ⟨ps, h.others hc ha nofun ?_ ?_⟩
    · rw [act, he]
      exact hreads
    · rw [act, he]
      exact (congrArg LineReader.unread hreader).trans (List.append_nil _).symm
  · cases Draws.step hd with
    | rested _ _ _ _ hu hd =>
      exact ⟨ps, h.others hc ha nofun hd (hu.trans (List.append_nil _).symm)⟩
    | read hs _ _ hl hd =>
      obtain ⟨p, hs⟩ := h.watched hr hc ha hs hl hd
      exact ⟨_, hs⟩

theorem Run.sharing {settings : Settings} {jobs : List Job} {source : Source} {sink : Sink}
    (h₀ : new? settings jobs source sink = some c₀) (h : Run c₀ moves c)
    (ht : c.terminated = false) : ∃ ps, Sharing c₀ moves c ps := by
  induction h with
  | start =>
    obtain ⟨-, rfl⟩ := new?_eq_some.1 h₀
    exact ⟨[], ⟨rfl, rfl, List.append_nil _, by simp, by simp⟩, rfl, nofun, nofun⟩
  | @next moves c m hr ha ih =>
    have hc : c.Reachable := ⟨settings, jobs, source, sink, c₀, moves, h₀, hr⟩
    -- Termination is final, so a run that has not terminated had not terminated before either.
    have ht' : c.terminated = false := by
      by_contra hn
      rw [act_terminated hc.attainable.staged (by simpa using hn) m] at ht
      cases ht
    obtain ⟨ps, hs⟩ := ih ht'
    by_cases hp : m = .step .printer
    · subst hp
      exact hs.printer hr hc ha
    · by_cases hk : m = .step .keywordWatch
      · subst hk
        exact hs.keywordWatch hr hc ha ht'
      · obtain ⟨hd, -, -, hu⟩ := act_still (c := c) hp hk
        exact ⟨ps, hs.others hc ha hp hd hu⟩

/-- Every read takes the next line of the input for one prompt or for the keyword watch. Behind the
keyword or a failure the watch takes nothing, nor does it keep the lock. -/
theorem shared_of_run {settings : Settings} {jobs : List Job} {source : Source} {sink : Sink}
    (h₀ : new? settings jobs source sink = some c₀) (h : Run c₀ moves c)
    (ht : c.terminated = false) : ∃ ps, Shared c₀ moves c ps ∧ (c.served.map Prod.fst).Nodup ∧
      ∀ p ∈ ps, p.taker = .watch → c₀.settings.endsWatch p.result = true →
        c.keywordWatch = false ∧ c.reader.isReading .keywordWatch = false := by
  have hc : c.Reachable := ⟨settings, jobs, source, sink, c₀, moves, h₀, h⟩
  have hslots := hc.attainable.numbered.nodup.sublist hc.attainable.served_slots.sublist
  obtain ⟨ps, hs⟩ := h.sharing h₀ ht
  refine ⟨ps, hs.toShared, hslots, fun p hp hw hf => ?_⟩
  exact ⟨(hs.ended p hp hw hf).ended, (hs.ended p hp hw hf).left⟩

def cancelling : List Move :=
  asking ++ [.step .printer, .feed (.bytes [99, 97, 110, 99, 101, 108, 10, 120, 10]),
    .step .keywordWatch, .step .printer, .step (.producer 1)]

theorem shared_of_cancelling : ∃ c₀ c : Console,
    new? { mailboxCapacity := 1 } [] {} {} = some c₀ ∧ Run c₀ cancelling c ∧
      c.terminated = false ∧ c.reads = [(.keywordWatch, .ok "cancel"), (.printer, .ok "x")] ∧
        c₀.settings.endsWatch (.ok "cancel") = true ∧
          ∃ ps, Shared c₀ cancelling c ps ∧ (c.served.map Prod.fst).Nodup ∧
            ∀ p ∈ ps, p.taker = .watch → c₀.settings.endsWatch p.result = true →
              c.keywordWatch = false ∧ c.reader.isReading .keywordWatch = false := by
  have h₀ : ∃ c₀, new? { mailboxCapacity := 1 } [] {} {} = some c₀ ∧ c₀.legal cancelling ∧
      (c₀.play cancelling).terminated = false :=
    ⟨_, rfl, by decide, by decide⟩
  obtain ⟨c₀, h₀, hl, ht⟩ := h₀
  refine ⟨c₀, c₀.play cancelling, h₀, .of_legal hl, ht, ?_, ?_, shared_of_run h₀ (.of_legal hl) ht⟩
  · cases h₀
    rfl
  · cases h₀
    rfl

end Console

end JobConsole
