import JobConsole.Proofs.Askers
import JobConsole.Proofs.Intake
import JobConsole.Proofs.Parking

/-!
Answers: from when the printer asks for the answer to a prompt, the input is read in the order in
which the lock was asked for. The next line is the answer, unless the keyword watch is in the middle
of a read at that time: it has this line, and the line behind it is the answer.
-/

namespace JobConsole.Console

variable {b c d : Console} {slot : ReplySlot} {moves : List Move} {m : Move}

/-- Who asked in the slot has the answer, or is gone. -/
inductive Replied (c : Console) (slot : ReplySlot) (line : String) : Prop
  | gone (h : c.standing slot.asker = .gone)
  | answered {s : Statement} {rest : Program} {k : Nat}
      (h : c.standing slot.asker = .busy ⟨s :: rest, k, .replied line⟩) (hs : s.asks = true)
      (hr : slot.asker ∈ c.ready)
      (hd : ∀ e : Console,
        e.perform slot.asker s (.replied line) = (e, .finished (.answered line)))

structure Answers (c : Console) (slot : ReplySlot) (result : Except Failure String) : Prop where
  reads : (c.step .printer).reads = c.reads ++ [(.printer, result)]
  portion : Portion c.reader.source.closed c.reader.unread result (c.step .printer).reader.unread
  reply : ∀ line, result = .ok line → Replied (c.step .printer) slot line

/-- What has been read of the input since `b`, the next line being the printer's. -/
inductive Upcoming (b : Console) (moves : List Move) (c : Console) : Prop
  | first (hb : b.reader.owner ≠ some .keywordWatch) (hr : c.reads = b.reads)
      (hu : c.reader.unread = b.reader.unread ++ fed moves)
  | second {before after : List Move} {e : Console} {result : Except Failure String}
      {rest : List Item} (hb : b.reader.owner = some .keywordWatch)
      (hm : moves = before ++ .step .keywordWatch :: after) (he : Run b before e)
      (hl : Portion e.reader.source.closed (b.reader.unread ++ fed before) result rest)
      (hr : c.reads = b.reads ++ [(.keywordWatch, result)])
      (hu : c.reader.unread = rest ++ fed after)

def Follows (c : Console) : Prop :=
  c.reader.owner = some .keywordWatch ∧ .printer ∈ c.reader.waiting

/-- The printer, which began to read an answer at `b`, waits for it. -/
inductive Pending (b : Console) (moves : List Move) (d : Console) : Prop
  | behind (hf : Follows d) (hb : b.reader.owner = some .keywordWatch) (hr : d.reads = b.reads)
      (hu : d.reader.unread = b.reader.unread ++ fed moves)
  | next (ho : d.reader.owner = some .printer) (hn : Upcoming b moves d)

inductive Prompted (b : Console) (slot : ReplySlot) (moves : List Move) (d : Console) : Prop
  | pending (hp : d.printer = .reading slot) (h : Pending b moves d)
  | answered {before after : List Move} {c : Console} {result : Except Failure String}
      (hm : moves = before ++ .step .printer :: after) (hc : Run b before c)
      (hd : Run (c.step .printer) after d) (hp : c.printer = .reading slot)
      (hn : Upcoming b before c) (ha : Answers c slot result)

theorem Upcoming.later (h : Upcoming b moves c) (hr : d.reads = c.reads)
    (hu : d.reader.unread = c.reader.unread ++ m.items) : Upcoming b (moves ++ [m]) d := by
  cases h with
  | first hb hr' hu' =>
    exact .first hb (hr.trans hr') (by rw [hu, hu', fed_concat, List.append_assoc])
  | @second before after e result rest hb hm he hl hr' hu' =>
    have hm' : moves ++ [m] = before ++ .step .keywordWatch :: (after ++ [m]) := by simp [hm]
    refine .second hb hm' he hl (hr.trans hr') ?_
    rw [hu, hu', fed_concat, List.append_assoc]

theorem not_terminated_of_reading (h : c.Reachable) (hp : c.printer = .reading slot) :
    c.terminated = false :=
  (h.staged.open (by simp [hp]) (by simp [hp])).2

/-! The printer's turn. -/

theorem replied_answer (hc : Expectant c) (hp : c.printer = .reading slot)
    (hs : ∀ id, (c.standing id).Suited) (line : String) :
    Replied { c.answer slot line with printer := .receiving } slot line := by
  have hl := hc.listens slot (by simp [asked, hp, Printer.slot?])
  have hs := hs slot.asker
  generalize hx : c.standing slot.asker = x at hl hs
  cases hl with
  | gone => exact .gone ((standing_answer c line (.inr hx)).trans hx)
  | waiting s rest k =>
    cases hs with
    | reply ha =>
      rcases c.answer_cases slot line with ⟨hn, -⟩ | ⟨a, hb, -, he⟩
      · exact absurd rfl (expects_eq_false hn (activity?_of_standing hx))
      · have ha' := activity?_of_standing hx
        rw [hb] at ha'
        cases ha'
        have hst := (standing_setActivity hx ⟨s :: rest, k, .replied line⟩ slot.asker).trans
          (if_pos rfl)
        rw [he]
        exact .answered hst ha (mem_enlist.2 (.inr rfl)) fun _ => rfl

theorem step_heard {line : String} (hp : c.printer = .reading slot)
    (hs : (c.reader.resume .printer).result = some (.ok line)) : c.step .printer =
      { ((c.resumeRead .printer).record (.read .printer (.ok line))).answer slot line with
        printer := .receiving } := by
  simp only [step, turn, printerTurn, hp, readAnswer, readLine_eq, hs, if_true]

theorem Reachable.replied (h : c.Reachable) (hp : c.printer = .reading slot) {line : String}
    (hs : (c.reader.resume .printer).result = some (.ok line)) :
    Replied (c.step .printer) slot line := by
  have hx := h.expectant (by simp [hp])
  have he : Expectant ((c.resumeRead .printer).record (.read .printer (.ok line))) :=
    hx.of_asked rfl fun _ => rfl
  rw [step_heard hp hs]
  exact replied_answer he hp (fun id => h.attainable.suited id) line

theorem Reachable.prompter (h : c.Reachable) (hp : c.printer = .reading slot) :
    Draws c .printer (c.step .printer) :=
  Draws.step ((printerTurn_cases c).draws hp h.clean)

theorem Reachable.answers (h : c.Reachable) (hp : c.printer = .reading slot)
    {result : Except Failure String} (hs : (c.reader.resume .printer).result = some result)
    (hl : Portion c.reader.source.closed c.reader.unread result (c.step .printer).reader.unread)
    (hr : (c.step .printer).reads = c.reads ++ [(.printer, result)]) : Answers c slot result := by
  refine ⟨hr, hl, ?_⟩
  rintro line rfl
  exact h.replied hp hs

/-! The turns of the others. -/

theorem act_still (hp : m ≠ .step .printer) (hk : m ≠ .step .keywordWatch) :
    (c.act m).reads = c.reads ∧ (c.act m).reader.owner = c.reader.owner ∧
      (c.act m).reader.waiting = c.reader.waiting ∧
        (c.act m).reader.unread = c.reader.unread ++ m.items := by
  by_cases hm : m.isIntake = false
  · obtain ⟨he, hr⟩ := c.act_apart hm
    have hi : m.items = [] := by
      cases m with
      | feed => cases hm
      | _ => rfl
    rw [he, hi, List.append_nil]
    exact ⟨hr, rfl, rfl, rfl⟩
  · cases m with
    | step id =>
      simp only [Move.isIntake, Bool.or_eq_false_iff, decide_eq_false_iff_not] at hm
      exact absurd ⟨fun h => hp (by rw [h]), fun h => hk (by rw [h])⟩ hm
    | feed piece => exact ⟨rfl, rfl, rfl, c.reader.unread_feed piece⟩
    | close => exact ⟨rfl, rfl, rfl, (List.append_nil _).symm⟩
    | _ => exact absurd rfl hm

theorem Reachable.watcher (h : c.Reachable) (hp : c.printer = .reading slot) :
    (c.step .keywordWatch).reader = c.reader ∧ (c.step .keywordWatch).reads = c.reads ∨
      Draws c .keywordWatch (c.step .keywordWatch) := by
  rcases (keywordWatchTurn_cases c).draws (not_terminated_of_reading h hp) h.fair h.clean with
    hd | hd
  · obtain ⟨ready, he⟩ := c.turn_eq_step .keywordWatch
    rw [he]
    exact .inl hd
  · exact .inr (Draws.step hd)

theorem Reachable.head_waiting (h : c.Reachable) (hp : c.printer = .reading slot)
    (hf : Follows c) : c.reader.waiting.head? = some .printer := by
  have hd := h.fair.distinct
  rw [hf.1] at hd
  have hn : TaskId.keywordWatch ∉ c.reader.waiting := (List.nodup_cons.1 hd).1
  have hr := (h.attainable.coheres (by simp [hp])).attended.readers
  cases hw : c.reader.waiting with
  | nil =>
    have hm := hf.2
    rw [hw] at hm
    cases hm
  | cons i rest =>
    rw [hw] at hr hn
    have hi := hr i (.inr List.mem_cons_self)
    cases i with
    | printer => rfl
    | keywordWatch => exact absurd List.mem_cons_self hn
    | _ => exact hi.elim

/-! A run. -/

theorem Pending.still (h : Pending b moves c) (hr : (c.act m).reads = c.reads)
    (ho : (c.act m).reader.owner = c.reader.owner)
    (hw : ∀ i ∈ c.reader.waiting, i ∈ (c.act m).reader.waiting)
    (hu : (c.act m).reader.unread = c.reader.unread ++ m.items) :
    Pending b (moves ++ [m]) (c.act m) := by
  cases h with
  | behind hf hb hr' hu' =>
    refine .behind ⟨ho.trans hf.1, hw _ hf.2⟩ hb (hr.trans hr') ?_
    rw [hu, hu', fed_concat, List.append_assoc]
  | next ho' hn => exact .next (ho.trans ho') (hn.later hr hu)

theorem Pending.rest (h : Pending b moves c) {id i : TaskId} (hi : c.reader.owner = some i)
    (ho : (c.step id).reader.owner = some (c.reader.owner.getD id))
    (hw : ∀ j ∈ c.reader.waiting, j ∈ (c.step id).reader.waiting)
    (hu : (c.step id).reader.unread = c.reader.unread) (hr : (c.step id).reads = c.reads) :
    Pending b (moves ++ [.step id]) (c.step id) := by
  have ho' : (c.step id).reader.owner = c.reader.owner := by rw [ho, hi]; rfl
  exact h.still hr ho' hw (hu.trans (List.append_nil _).symm)

theorem Pending.printer (h : Pending b moves c) (hb : Run b moves c) (hc : c.Reachable)
    (hp : c.printer = .reading slot) :
    Prompted b slot (moves ++ [.step .printer]) (c.step .printer) := by
  have hd := hc.prompter hp
  cases hx : h with
  | behind hf =>
    cases hd with
    | read _ ho => rcases ho with ho | ho <;> rw [hf.1] at ho <;> cases ho
    | rested hp' ho hw _ hu hr => exact .pending (hp'.trans hp) (h.rest hf.1 ho hw hu hr)
  | next ho hn =>
    cases hd with
    | read hs _ _ hl hr => exact .answered rfl hb .start hp hn (hc.answers hp hs hl hr)
    | rested hp' ho' hw _ hu hr => exact .pending (hp'.trans hp) (h.rest ho ho' hw hu hr)

theorem Pending.watch (h : Pending b moves c) (hb : Run b moves c) (hc : c.Reachable)
    (hp : c.printer = .reading slot) :
    Pending b (moves ++ [.step .keywordWatch]) (c.step .keywordWatch) := by
  rcases hc.watcher hp with ⟨he, hr⟩ | hd
  · have he : (c.act (.step .keywordWatch)).reader = c.reader := he
    refine h.still hr (by rw [he]) (fun _ hi => by rwa [he]) ?_
    rw [he]
    exact (List.append_nil _).symm
  · cases hx : h with
    | behind hf hb' hr' hu' =>
      cases hd with
      | rested _ ho hw _ hu hr => exact h.rest hf.1 ho hw hu hr
      | read _ _ ho hl hr =>
        refine .next (ho.trans (hc.head_waiting hp hf)) (.second hb' rfl hb (hu' ▸ hl) ?_ ?_)
        · rw [hr, hr']
        · exact (List.append_nil _).symm
    | next ho hn =>
      cases hd with
      | read _ ho' => rcases ho' with ho' | ho' <;> rw [ho] at ho' <;> cases ho'
      | rested _ ho' hw _ hu hr => exact h.rest ho ho' hw hu hr

theorem Prompted.act (h : Prompted b slot moves c) (hb : Run b moves c) (hc : c.Reachable)
    (ha : c.allows m) : Prompted b slot (moves ++ [m]) (c.act m) := by
  cases h with
  | @answered before after e result hm hc' hd hp hn hs =>
    have hm' : moves ++ [m] = before ++ .step .printer :: (after ++ [m]) := by simp [hm]
    exact .answered hm' hc' (.next m hd ha) hp hn hs
  | pending hp h =>
    by_cases hm : m = .step .printer
    · subst hm
      exact h.printer hb hc hp
    · have hp' : (c.act m).printer = .reading slot := (c.act_aside m hm).1.trans hp
      refine .pending hp' ?_
      by_cases hk : m = .step .keywordWatch
      · subst hk
        exact h.watch hb hc hp
      · obtain ⟨hr, ho, hw, hu⟩ := act_still (c := c) hm hk
        exact h.still hr ho (fun i hi => hw ▸ hi) hu

theorem Pending.begin (h : b.Reachable) (hp : b.printer = .reading slot)
    (ho : (b.step .printer).reader.owner = some (b.reader.owner.getD .printer))
    (hi : b.reader.owner.getD .printer = .printer ∨ .printer ∈ (b.step .printer).reader.waiting)
    (hu : (b.step .printer).reader.unread = b.reader.unread)
    (hr : (b.step .printer).reads = b.reads) : Pending b [.step .printer] (b.step .printer) := by
  have hreaders := (h.attainable.coheres (by simp [hp])).attended.readers
  have hfed : b.reader.unread = b.reader.unread ++ fed [.step .printer] := (List.append_nil _).symm
  by_cases hb : b.reader.owner = some .keywordWatch
  · rw [hb] at ho hi
    have hw : .printer ∈ (b.step .printer).reader.waiting := hi.resolve_left nofun
    exact .behind ⟨ho, hw⟩ hb hr (hu.trans hfed)
  · have howner : b.reader.owner.getD .printer = .printer := by
      cases hx : b.reader.owner with
      | none => rfl
      | some i =>
        have hi := hreaders i (.inl hx)
        cases i with
        | printer => rfl
        | keywordWatch => exact absurd hx hb
        | _ => exact hi.elim
    rw [howner] at ho
    exact .next ho (.first hb hr (hu.trans hfed))

theorem prompted_of_step (h : b.Reachable) (hp : b.printer = .reading slot) :
    Prompted b slot [.step .printer] (b.step .printer) := by
  have hd := h.prompter hp
  cases hd with
  | rested hp' ho _ hi hu hr => exact .pending (hp'.trans hp) (.begin h hp ho hi hu hr)
  | read hs ho _ hl hr =>
    have hb : b.reader.owner ≠ some .keywordWatch := by
      rcases ho with ho | ho <;> rw [ho] <;> exact nofun
    exact .answered rfl .start .start hp (.first hb rfl (List.append_nil _).symm)
      (h.answers hp hs hl hr)

theorem Run.eq_of_nil (h : Run b [] d) : d = b := by
  generalize hm : ([] : List Move) = moves at h
  cases h with
  | start => rfl
  | next => simp at hm

theorem Run.prompted (hr : Run b moves d) (h : b.Reachable) (hp : b.printer = .reading slot)
    (hm : moves.head? = some (.step .printer)) : Prompted b slot moves d := by
  induction hr with
  | start => cases hm
  | @next moves c m hr ha ih =>
    cases moves with
    | nil =>
      cases hm
      obtain rfl := hr.eq_of_nil
      exact prompted_of_step h hp
    | cons x xs => exact (ih hm).act hr (h.run hr) ha

theorem unended_of_quiescent (h : d.Reachable) (hp : d.printer = .reading slot)
    (hq : d.ready = []) :
    d.reader.source.closed = false ∧
      ∀ x ∈ d.reader.unread, ∃ byte, x = .byte byte ∧ byte ≠ Line.newline := by
  have hc : d.Coheres fun _ => False :=
    (h.attainable.coheres (by simp [hp])).mono fun i hi => by simp [hq] at hi
  obtain ⟨hpieces, hopen⟩ := Coherent.silent hc hp
  refine ⟨hopen, fun x hx => ?_⟩
  rw [LineReader.unread, hpieces] at hx
  simp only [itemsOf, List.flatMap_nil, List.append_nil] at hx
  obtain ⟨byte, hbyte, rfl⟩ := List.mem_map.1 hx
  exact ⟨byte, rfl, fun hn => h.clean (hn ▸ hbyte)⟩

theorem prompted_of_run (h : b.Reachable) (hp : b.printer = .reading slot)
    (hr : Run b (.step .printer :: moves) d) :
    Prompted b slot (.step .printer :: moves) d ∧
      (d.printer = .reading slot → d.ready = [] → d.reader.source.closed = false ∧
        ∀ x ∈ d.reader.unread, ∃ byte, x = .byte byte ∧ byte ≠ Line.newline) :=
  ⟨hr.prompted h hp rfl, unended_of_quiescent (h.run hr)⟩

def asking : List Move :=
  [.spawn [.start 0 false], .spawn [.prompt "?"], .step (.producer 0), .step .keywordWatch,
    .step (.producer 1), .step .printer]

/-- The keyword watch is quicker than the printer: it reads a line and begins to read the next. -/
def overtaking : List Move :=
  [.feed (.bytes [97, 10]), .step .keywordWatch, .step .keywordWatch]

def typing : List Move :=
  [.step .printer, .feed (.bytes [98, 10]), .step .keywordWatch, .feed (.bytes [99, 10]),
    .step .printer, .step (.producer 1)]

theorem prompted_of_typing : ∃ c₀, new? { mailboxCapacity := 1 } [] {} {} = some c₀ ∧
    (c₀.play asking).printer = .reading ⟨0, .producer 1⟩ ∧
      Prompted (c₀.play asking) ⟨0, .producer 1⟩ typing ((c₀.play asking).play typing) := by
  refine ⟨_, rfl, by decide, ?_⟩
  have hb : Reachable (play _ asking) :=
    ⟨{ mailboxCapacity := 1 }, [], {}, {}, _, asking, rfl, .of_legal (by decide)⟩
  exact (prompted_of_run hb (by decide) (.of_legal (by decide))).1

/-- Neither the line that comes in first behind a prompt nor the one that comes in first after the
printer got in line is the answer to it. -/
theorem third_line_answered : ∃ c₀ b d : Console,
    new? { mailboxCapacity := 1 } [] {} {} = some c₀ ∧ Run c₀ asking b ∧
      b.printer = .reading ⟨0, .producer 1⟩ ∧ Shows {} b.events ⟨0, .producer 1⟩ ∧ b.reads = [] ∧
        b.reader.unread = [] ∧ Run b (overtaking ++ typing) d ∧
          (∃ rest, Portion false (fed (overtaking ++ typing)) (.ok "a") rest) ∧
            b.settings.isCancelKeyword "a" = false ∧
              d.reads = [(.keywordWatch, .ok "a"), (.keywordWatch, .ok "b"), (.printer, .ok "c")] ∧
                .finished 1 0 (.answered "c") ∈ d.events := by
  refine ⟨_, play _ asking, _, rfl, .of_legal (by decide), rfl, ?_, rfl, rfl, .of_legal (by decide), ?_,
    rfl, rfl, ?_⟩
  · exact @Course.asking _ _ _ { mailboxCapacity := 1 } [] {} {} rfl
      (@Run.of_legal _ asking (by decide)).course _ rfl
  · exact ⟨_, @Portion.line false [97] _ (by decide)⟩
  · exact List.mem_of_getElem? (rfl : _[9]? = some _)

end JobConsole.Console
