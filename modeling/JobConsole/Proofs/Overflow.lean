import JobConsole.Proofs.Delivery
import JobConsole.Proofs.Prompting

namespace JobConsole

namespace Display

variable {d d₀ : Display}

def isOverrun (d : Display) : Print → Bool
  | .message m => m.kind ≠ .exit && widestPad < pad d.line.toList m.text.toList
  | .sink _ => false

def overruns (d : Display) : List Print → Bool
  | [] => false
  | p :: ps => d.isOverrun p || (d.after p).overruns ps

theorem overruns_append (d : Display) (ps qs : List Print) :
    d.overruns (ps ++ qs) = (d.overruns ps || (d.afterAll ps).overruns qs) := by
  induction ps generalizing d with
  | nil => simp [overruns, afterAll]
  | cons q ps ih =>
    rw [List.cons_append, overruns, ih, overruns, Bool.or_assoc]
    rfl

theorem overruns_concat (d : Display) (ps : List Print) (p : Print) :
    d.overruns (ps ++ [p]) = (d.overruns ps || (d.afterAll ps).isOverrun p) := by
  rw [overruns_append, overruns, overruns, Bool.or_false]

theorem overwrite_eq_none_iff {line text : List Char} :
    overwrite line text = none ↔ widestPad < pad line text := by
  unfold overwrite
  split <;> simp <;> omega

theorem pad_nil (text : List Char) : pad [] text = 0 :=
  Nat.zero_sub _

theorem layout_eq_none_iff {line text : List Char} {kind : Kind} :
    layout line text kind = none ↔ kind ≠ .exit ∧ widestPad < pad line text := by
  cases kind with
  | progress => simp [layout, overwrite_eq_none_iff]
  | info =>
    simp only [layout]
    split
    · rename_i h
      simp [h, pad_nil]
    · simp [overwrite_eq_none_iff]
  | prompt =>
    simp only [layout]
    split
    · rename_i h
      simp [h, pad_nil]
    · simp [overwrite_eq_none_iff]
  | exit => simp [layout]

theorem draw_eq_none_iff {m : Message} :
    d.draw m.kind m.text = none ↔ d.isOverrun (.message m) = true := by
  unfold draw isOverrun
  rw [Option.map_eq_none_iff, layout_eq_none_iff]
  simp

theorem isOverrun_eq_false_iff {m : Message} : d.isOverrun (.message m) = false ↔
    ∃ cells, layout d.line.toList m.text.toList m.kind = some cells := by
  rw [← Bool.not_eq_true, ← draw_eq_none_iff, draw, Option.map_eq_none_iff]
  exact Option.ne_none_iff_exists'

theorem isOverrun_of_draw {m : Message} {r : Drawn} (h : d.draw m.kind m.text = some r) :
    d.isOverrun (.message m) = false := by
  rw [← Bool.not_eq_true, ← draw_eq_none_iff, h]
  exact nofun

end Display

namespace Console

variable {c d : Console} {id : TaskId}

theorem Adds.prints {p : Event → Bool} (h : Adds p c d) (hp : ∀ e, p e → e.print? = none) :
    d.prints = c.prints := by
  obtain ⟨news, he, hn⟩ := h
  have hx : news.filterMap Event.print? = [] :=
    List.filterMap_eq_nil_iff.2 fun e h => hp e (hn e h)
  unfold Console.prints
  rw [he, List.filterMap_append, hx, List.append_nil]

theorem turn_prints (c : Console) (h : id ≠ .printer) : (c.turn id).1.prints = c.prints :=
  (turn_adds c h).prints fun e he => by cases e <;> first | rfl | cases he

theorem prints_of_events {news : List Event} (he : d.events = c.events ++ news) :
    d.prints = c.prints ++ news.filterMap Event.print? := by
  unfold prints
  rw [he, List.filterMap_append]

theorem prints_record (c : Console) {e : Event} (he : e.print? = none) :
    (c.record e).prints = c.prints := by
  simp [prints_of_events (events_record c e), he]

theorem prints_take (c : Console) (t : Mailbox.Taken TaskId) :
    (c.take t).prints = c.prints ++ [.message t.message] :=
  prints_of_events (events_record c _)

theorem prints_shown (c : Console) (kind : Kind) (r : Display.Drawn) :
    (c.shown kind r).prints = c.prints := by
  have hw : (Console.record { c with display := r.display } (.wrote r.bytes)).prints = c.prints :=
    prints_record _ rfl
  unfold shown
  split
  · rw [prints_record _ rfl, hw]
  · rw [log, prints_record _ rfl, hw]

theorem filterMap_print?_discarded (ms : List Message) :
    (ms.map Event.discarded).filterMap Event.print? = [] := by
  simp [Event.print?]

theorem prints_crashPrinter (c : Console) (m : Message) : (c.crashPrinter m).prints = c.prints := by
  rw [prints_of_events (events_crashPrinter c m), filterMap_print?_discarded, List.append_nil]

theorem prints_stopPrinter (c : Console) : c.stopPrinter.prints = c.prints := by
  have he := events_stopPrinter c
  rw [List.append_assoc] at he
  rw [prints_of_events he, List.filterMap_append, filterMap_print?_discarded]
  exact List.append_nil _

/-- The printer has crashed exactly if it was handed a text that it could not lay out. -/
def Laid (d₀ : Display) (p : Printer) (ps : List Print) : Prop :=
  p = .crashed ↔ d₀.overruns ps = true

variable {d₀ : Display}

theorem Laid.change {p q : Printer} {ps : List Print} (hl : Laid d₀ p ps) (hp : p ≠ .crashed)
    (hq : q ≠ .crashed) : Laid d₀ q ps :=
  ⟨fun h => absurd h hq, fun h => absurd (hl.2 h) hp⟩

theorem Laid.stopPrinter (hl : Laid d₀ c.printer c.prints) (hp : c.printer ≠ .crashed) :
    Laid d₀ c.stopPrinter.printer c.stopPrinter.prints := by
  have hs : c.stopPrinter.printer = .stopped := by
    obtain ⟨producers, ticker, ready, he⟩ := c.stopPrinter_eq
    rw [he]
  rw [hs, prints_stopPrinter]
  exact hl.change hp nofun

theorem Laid.choke {t : Mailbox.Taken TaskId} (hm : Mail d₀ c)
    (hd : c.display.draw t.message.kind t.message.text = none) :
    Laid d₀ ((c.take t).crashPrinter t.message).printer
      ((c.take t).crashPrinter t.message).prints := by
  have hs : ((c.take t).crashPrinter t.message).printer = .crashed := by
    obtain ⟨producers, ticker, ready, he⟩ := (c.take t).crashPrinter_eq t.message
    rw [he]
  have hdisplay : d₀.afterAll c.prints = c.display := hm.display.symm
  have hover := Display.draw_eq_none_iff.1 hd
  unfold Laid
  rw [hs, prints_crashPrinter, prints_take, Display.overruns_concat, hdisplay, hover]
  simp

theorem Laid.draw {t : Mailbox.Taken TaskId} {r : Display.Drawn} {p : Printer}
    (hl : Laid d₀ c.printer c.prints) (hm : Mail d₀ c) (hc : c.printer ≠ .crashed)
    (hd : c.display.draw t.message.kind t.message.text = some r) (hp : p ≠ .crashed) :
    Laid d₀ p ((c.take t).shown t.message.kind r).prints := by
  have hover : d₀.overruns c.prints = false := by
    rw [← Bool.not_eq_true]
    exact fun h => hc (hl.2 h)
  have hdisplay : d₀.afterAll c.prints = c.display := hm.display.symm
  unfold Laid
  rw [prints_shown, prints_take, Display.overruns_concat, hover, hdisplay,
    Display.isOverrun_of_draw hd]
  simp [hp]

theorem prints_read (c : Console) (result : Except Failure String) :
    ((c.resumeRead .printer).record (.read .printer result)).prints = c.prints :=
  prints_record _ rfl

theorem PrinterTurn.laid {more : Bool} (h : PrinterTurn c d more) (hm : Mail d₀ c)
    (hl : Laid d₀ c.printer c.prints) : Laid d₀ d.printer d.prints := by
  cases h with
  | gone => exact hl
  | idle => exact hl
  | deserted hp => exact hl.stopPrinter (by simp [hp])
  | choked hp ht hd => exact .choke hm hd
  | @told t r hp ht hd =>
    have hs : ((c.take t).shown t.message.kind r).printer = .receiving := by
      unfold shown
      split <;> exact hp
    rw [hs]
    exact hl.draw hm (by simp [hp]) hd nofun
  | asked hp ht hd => exact hl.draw hm (by simp [hp]) hd nofun
  | @exited t r code hp ht hd =>
    have hn : (((c.take t).shown t.message.kind r).log (.exiting code)).prints = _ :=
      prints_record _ rfl
    have hx := hl.draw hm (by simp [hp]) hd (p := .leaving) nofun
    rw [← hn, ← prints_record _ (e := .ending .printer (.exit code)) rfl] at hx
    exact hx
  | pending => exact hl
  | @heard slot line hp =>
    have hr := prints_read c (.ok line)
    have hx : Laid d₀ .receiving c.prints := hl.change (by simp [hp]) nofun
    rcases ((c.resumeRead .printer).record (.read .printer (.ok line))).answer_eq slot line with
      ⟨producers, ticker, ready, he⟩ | he <;> rw [he]
    · rw [← hr] at hx
      exact hx
    · rw [← hr, ← prints_record _ (e := .logged .askerGone) rfl] at hx
      exact hx
  | @failed slot failure hp =>
    have hr := prints_read c (.error failure)
    have hx : Laid d₀ .leaving c.prints := hl.change (by simp [hp]) nofun
    rw [← hr, ← prints_record _ (e := .logged (.answerFailed failure)) rfl,
      ← prints_record _ (e := .ending .printer (.abort failure)) rfl] at hx
    obtain ⟨producers, ticker, ready, he⟩ :=
      ((((c.resumeRead .printer).record (.read .printer (.error failure))).log
        (.answerFailed failure)).record (.ending .printer (.abort failure))).hangUp_eq slot
    rw [he]
    exact hx
  | left hp => exact hl.stopPrinter (by simp [hp])

theorem Laid.step (hl : Laid d₀ c.printer c.prints) (hm : Mail d₀ c) (id : TaskId) :
    Laid d₀ (c.step id).printer (c.step id).prints := by
  obtain ⟨ready, he⟩ := c.turn_eq_step id
  have ht : Laid d₀ (c.turn id).1.printer (c.turn id).1.prints := by
    by_cases hp : id = .printer
    · subst hp
      exact (printerTurn_cases c).laid hm hl
    · rw [turn_prints c hp, (turn_beside c hp).printer]
      exact hl
  rw [he]
  exact ht

theorem Laid.act (hl : Laid d₀ c.printer c.prints) (hm : Mail d₀ c) (m : Move) :
    Laid d₀ (c.act m).printer (c.act m).prints := by
  cases m with
  | step id => exact hl.step hm id
  | kill n =>
    change Laid d₀ (c.kill n).printer (c.kill n).prints
    unfold Console.kill
    split <;> exact hl
  | raise s =>
    change Laid d₀ (c.raise s).printer (c.raise s).prints
    unfold Console.raise
    split <;> exact hl
  | setSink s =>
    have hs : (c.setSink s).prints = c.prints ++ [.sink s] := prints_of_events (events_record _ _)
    change Laid d₀ c.printer (c.setSink s).prints
    unfold Laid
    rw [hs, Display.overruns_concat]
    simp only [Display.isOverrun, Bool.or_false]
    exact hl
  | start k interactive =>
    have hd := c.supervise_cases k interactive
    have hp : (c.supervise k interactive).1.prints = c.prints :=
      hd.adds.prints fun e h => by cases e <;> first | rfl | cases h
    have hx : (c.act (.start k interactive)).prints = c.prints :=
      (prints_record _ rfl).trans hp
    have hs : (c.act (.start k interactive)).printer = c.printer := hd.beside.printer
    rw [hx, hs]
    exact hl
  | _ => exact hl

/-! A crash is for ever. -/

theorem act_crashed (hc : c.printer = .crashed) (m : Move) : (c.act m).printer = .crashed :=
  (act_gone (.inr hc) m).trans hc

theorem Run.crashed {moves : List Move} (h : Run c moves d) (hc : c.printer = .crashed) :
    d.printer = .crashed :=
  h.invariant (P := fun c => c.printer = .crashed) hc fun _ m _ hp => act_crashed hp m

theorem Run.laid {settings : Settings} {jobs : List Job} {source : Source} {sink : Sink}
    {c₀ c : Console} {moves : List Move} (h₀ : new? settings jobs source sink = some c₀)
    (h : Run c₀ moves c) : Laid { sink } c.printer c.prints := by
  have both : Staged c ∧ Mail { sink } c ∧ Laid { sink } c.printer c.prints := by
    apply h.invariant (P := fun c => Staged c ∧ Mail { sink } c ∧ Laid { sink } c.printer c.prints)
    · have hm := (@Run.start c₀).mail h₀
      obtain ⟨-, rfl⟩ := new?_eq_some.1 h₀
      exact ⟨.running nofun nofun rfl rfl, hm, nofun, nofun⟩
    · exact fun c m _ hc => ⟨hc.1.act m, hc.2.1.act hc.1 m, hc.2.2.act hc.2.1 m⟩
  exact both.2.2

/-- Once nothing is received any more the console has terminated, unless the printer was handed a
text that it could not lay out: then it never will. -/
theorem terminated_iff_of_closed {settings : Settings} {jobs : List Job} {source : Source}
    {sink : Sink} {c₀ c : Console} {moves : List Move}
    (h₀ : new? settings jobs source sink = some c₀) (h : Run c₀ moves c)
    (hc : c.mailbox.closed = true) :
    (c.terminated = true ↔ Display.overruns { sink } c.prints = false) ∧
      (Display.overruns { sink } c.prints = true →
        ∀ later d, Run c later d → d.mailbox.closed = true ∧ d.terminated = false) := by
  have hr : c.Reachable := ⟨settings, jobs, source, sink, c₀, moves, h₀, h⟩
  have hl := h.laid h₀
  constructor
  · cases hr.staged with
    | running _ _ ho => rw [ho] at hc; cases hc
    | stopped hp _ ht =>
      have hn : Display.overruns { sink } c.prints ≠ true := fun h => by
        have := hl.2 h
        rw [hp] at this
        cases this
      simp [ht, hn]
    | crashed hp _ ht => simp [ht, hl.1 hp]
  · intro hover later d hd
    have hp := hd.crashed (hl.2 hover)
    cases (hr.run hd).staged with
    | running _ hn => exact absurd hp hn
    | stopped hs => rw [hs] at hp; cases hp
    | crashed _ hb ht => exact ⟨hb.closed, ht⟩

def farewell : List Move :=
  [.spawn [.exit "bye" ⟨0⟩], .step (.producer 0), .step .printer, .step .printer]

theorem terminated_of_farewell : ∃ c₀, new? {} [] {} {} = some c₀ ∧
    (c₀.play farewell).mailbox.closed = true ∧ (c₀.play farewell).terminated = true :=
  ⟨_, rfl, by decide,
    (@terminated_iff_of_closed {} [] {} {} _ _ farewell rfl (.of_legal (by decide))
      (by decide)).1.2 (by decide)⟩

/-! A progress line that is too long for the text after it. -/

variable {t : Mailbox.Taken TaskId}

theorem turn_receiving (hp : c.printer = .receiving) : c.turn .printer = c.receive := by
  simp only [turn, printerTurn, hp]

theorem turn_told {r : Display.Drawn} {text : String} (hp : c.printer = .receiving)
    (ht : c.mailbox.take? = some t) (hm : t.message = .progress text)
    (hd : c.display.draw .progress text = some r) :
    c.turn .printer = ((c.take t).shown .progress r, true) := by
  rw [turn_receiving hp]
  simp only [receive, ht]
  change (c.take t).handle t.message = _
  have hdraw : (c.take t).draw? (.progress text) = some ((c.take t).shown .progress r) := by
    rw [draw?_eq]
    change (c.display.draw .progress text).map _ = _
    rw [hd]
    rfl
  simp only [handle, hm, hdraw]

theorem turn_choked (hp : c.printer = .receiving) (ht : c.mailbox.take? = some t)
    (hd : c.display.draw t.message.kind t.message.text = none) :
    c.turn .printer = ((c.take t).crashPrinter t.message, false) := by
  rw [turn_receiving hp]
  simp only [receive, ht]
  change (c.take t).handle t.message = _
  have hdraw : (c.take t).draw? t.message = none := by
    rw [draw?_eq]
    change (c.display.draw t.message.kind t.message.text).map _ = _
    rw [hd]
    rfl
  simp only [handle, hdraw]

theorem step_told {text : String} {rest : List Message} {r : Display.Drawn}
    (hp : c.printer = .receiving) (hi : c.mailbox.items = .progress text :: rest)
    (hd : c.display.draw .progress text = some r) (hready : .printer ∈ c.ready) :
    (c.step .printer).printer = .receiving ∧ (c.step .printer).mailbox.items = rest ∧
      (c.step .printer).display = r.display ∧ .printer ∈ (c.step .printer).ready := by
  obtain ⟨t, ht, hm, hrest⟩ := Mailbox.take?_of_items hi
  have hwoken : .printer ∈ (c.take t).ready :=
    ({ c with mailbox := t.mailbox }).mem_wakeAll.2 (.inl hready)
  unfold step
  rw [turn_told hp ht hm hd]
  simp only [if_true]
  unfold shown
  split <;> exact ⟨hp, hrest, rfl, hwoken⟩

theorem step_choked {m : Message} {rest : List Message} (hp : c.printer = .receiving)
    (hi : c.mailbox.items = m :: rest) (hd : c.display.draw m.kind m.text = none) :
    (c.step .printer).printer = .crashed := by
  obtain ⟨t, ht, rfl, -⟩ := Mailbox.take?_of_items hi
  obtain ⟨producers, ticker, ready, he⟩ := (c.take t).crashPrinter_eq t.message
  unfold step
  rw [turn_choked hp ht hd]
  simp only [Bool.false_eq_true, if_false, he]

theorem draw_first (text : String) :
    ∃ r, ({} : Display).draw .progress text = some r ∧ r.display.line = text := by
  have hl : Display.layout [] text.toList .progress = some ('\r' :: text.toList ++ []) := by
    simp only [Display.layout, Display.overwrite, Display.pad_nil, Display.widestPad, Nat.zero_le,
      if_true, List.replicate]
  let bytes := Utf8.encode ('\r' :: text.toList ++ [])
  refine ⟨⟨⟨text, ({} : Sink).after bytes⟩, bytes, none⟩, ?_, rfl⟩
  unfold Display.draw
  change (Display.layout [] text.toList .progress).map _ = _
  rw [hl]
  rfl

def overflow (text : String) : List Move :=
  [.spawn [.progress text, .info ""], .step (.producer 0), .step (.producer 0), .step .printer,
    .step .printer]

theorem play_overflow (text : String) : ∃ c₀ c₁, new? {} [] {} {} = some c₀ ∧
    Run c₀ [.spawn [.progress text, .info ""], .step (.producer 0), .step (.producer 0)] c₁ ∧
      c₁.printer = .receiving ∧ c₁.mailbox.items = [.progress text, .info ""] ∧
        c₁.display = {} ∧ .printer ∈ c₁.ready := by
  refine ⟨_, _, rfl, .of_legal rfl, rfl, rfl, rfl, .head _⟩

theorem crashed_of_overflow (text : String) (h : Display.widestPad < text.toList.length) :
    ∃ c₀ c, new? {} [] {} {} = some c₀ ∧ Run c₀ (overflow text) c ∧ c.printer = .crashed := by
  obtain ⟨c₀, c₁, h₀, hr₁, hp₁, hi₁, hd₁, hready₁⟩ := play_overflow text
  obtain ⟨r, hr, hline⟩ := draw_first text
  rw [← hd₁] at hr
  obtain ⟨hp₂, hi₂, hd₂, hready₂⟩ := step_told hp₁ hi₁ hr hready₁
  have hr₂ : Run c₀ _ (c₁.step .printer) := .next (.step .printer) hr₁ (decide_eq_true hready₁)
  have hr₃ : Run c₀ _ ((c₁.step .printer).step .printer) :=
    .next (.step .printer) hr₂ (decide_eq_true hready₂)
  have hnone : (c₁.step .printer).display.draw .info "" = none := by
    apply (Display.draw_eq_none_iff (m := .info "")).2
    rw [hd₂]
    simp [Display.isOverrun, Display.pad, Message.kind, Message.text, hline, h]
  exact ⟨c₀, _, h₀, hr₃, step_choked hp₂ hi₂ hnone⟩

def longLine : String :=
  .ofList (.replicate (Display.widestPad + 1) 'a')

/-- The console that is given this line and then an empty one receives nothing any more, and it has
not terminated. -/
theorem closed_not_terminated : ∃ c₀ c, new? {} [] {} {} = some c₀ ∧
    Run c₀ (overflow longLine) c ∧ c.mailbox.closed = true ∧ c.terminated = false := by
  have hl : Display.widestPad < longLine.toList.length := by
    rw [longLine, String.toList_ofList, List.length_replicate]
    exact Nat.lt_succ_self _
  obtain ⟨c₀, c, h₀, hr, hp⟩ := crashed_of_overflow longLine hl
  have hs : Staged c := Reachable.staged ⟨_, _, _, _, c₀, _, h₀, hr⟩
  refine ⟨c₀, c, h₀, hr, ?_⟩
  cases hs with
  | running _ hn => exact absurd hp hn
  | stopped hs => rw [hs] at hp; cases hp
  | crashed _ hb ht => exact ⟨hb.closed, ht⟩

end Console

end JobConsole
