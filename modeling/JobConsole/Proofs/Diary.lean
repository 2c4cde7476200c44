import JobConsole.Proofs.Ties

namespace JobConsole

def Event.isDuty : Event → Bool
  | handled _ | wrote _ => true
  | read i _ | ending i _ => i = .printer
  | _ => false

/-- The duties of a printer up to now. -/
inductive Diary : List Event → Printer → Prop
  | blank : Diary [] .receiving
  | told {es : List Event} {m : Message} {d : Display} {r : Display.Drawn}
      (h : Diary es .receiving) (hs : m.slot? = none) (hc : m.code? = none)
      (hd : d.draw m.kind m.text = some r) : Diary (es ++ [.handled m, .wrote r.bytes]) .receiving
  | asked {es : List Event} {text : String} {slot : ReplySlot} {d : Display} {r : Display.Drawn}
      (h : Diary es .receiving) (hd : d.draw .prompt text = some r) :
      Diary (es ++ [.handled (.prompt text slot), .wrote r.bytes]) (.reading slot)
  | heard {es : List Event} {slot : ReplySlot} (h : Diary es (.reading slot)) (line : String) :
      Diary (es ++ [.read .printer (.ok line)]) .receiving
  | failed {es : List Event} {slot : ReplySlot} (h : Diary es (.reading slot))
      (failure : Failure) :
      Diary (es ++ [.read .printer (.error failure), .ending .printer (.abort failure)]) .leaving
  | exited {es : List Event} {text : String} {code : ExitCode} {d : Display} {r : Display.Drawn}
      (h : Diary es .receiving) (hd : d.draw .exit text = some r) :
      Diary (es ++ [.handled (.exit text code), .wrote r.bytes, .ending .printer (.exit code)])
        .leaving
  | choked {es : List Event} (h : Diary es .receiving) (m : Message) :
      Diary (es ++ [.handled m]) .crashed
  | stopped {es : List Event} {p : Printer} (h : Diary es p) (hp : p = .receiving ∨ p = .leaving) :
      Diary es .stopped

namespace Console

def duties (c : Console) : List Event :=
  c.events.filter Event.isDuty

variable {c d : Console} {id : TaskId} {more : Bool}

theorem duties_of_events {news : List Event} (h : d.events = c.events ++ news) :
    d.duties = c.duties ++ news.filter Event.isDuty := by
  rw [duties, h, List.filter_append, duties]

theorem Adds.duties (h : Adds (fun e => !e.isDuty) c d) : d.duties = c.duties := by
  obtain ⟨news, he, hn⟩ := h
  have hf : news.filter Event.isDuty = [] := by
    apply List.filter_eq_nil_iff.2
    intro e he
    simpa using hn e he
  rw [duties_of_events he, hf, List.append_nil]

theorem duties_record {e : Event} (h : e.isDuty = false) : (c.record e).duties = c.duties := by
  rw [duties_of_events (events_record c e), List.filter_cons_of_neg (by simp [h])]
  exact List.append_nil _

theorem duties_note {e : Event} (h : e.isDuty = true) : (c.record e).duties = c.duties ++ [e] := by
  rw [duties_of_events (events_record c e), List.filter_cons_of_pos h]
  rfl

theorem duties_take (c : Console) (t : Mailbox.Taken TaskId) :
    (c.take t).duties = c.duties ++ [.handled t.message] :=
  duties_note rfl

theorem duties_shown (c : Console) (kind : Kind) (r : Display.Drawn) :
    (c.shown kind r).duties = c.duties ++ [.wrote r.bytes] := by
  have hw : (Console.record { c with display := r.display } (.wrote r.bytes)).duties =
      c.duties ++ [.wrote r.bytes] :=
    duties_note rfl
  unfold shown
  split
  · exact (duties_record rfl).trans hw
  · exact (duties_record rfl).trans hw

theorem duties_drawn (c : Console) (t : Mailbox.Taken TaskId) (r : Display.Drawn) :
    ((c.take t).shown t.message.kind r).duties =
      c.duties ++ [.handled t.message, .wrote r.bytes] := by
  rw [duties_shown, duties_take, List.append_assoc]
  rfl

theorem filter_discarded (ms : List Message) :
    (ms.map Event.discarded).filter Event.isDuty = [] := by
  simp [Event.isDuty]

theorem duties_stopPrinter (c : Console) : c.stopPrinter.duties = c.duties := by
  have he := c.events_stopPrinter
  rw [List.append_assoc] at he
  rw [duties_of_events he, List.filter_append, filter_discarded]
  exact List.append_nil _

theorem duties_crashPrinter (c : Console) (m : Message) : (c.crashPrinter m).duties = c.duties := by
  rw [duties_of_events (c.events_crashPrinter m), filter_discarded, List.append_nil]

theorem diary_stopPrinter (h : Diary c.duties c.printer)
    (hp : c.printer = .receiving ∨ c.printer = .leaving) :
    Diary c.stopPrinter.duties c.stopPrinter.printer := by
  have hs : c.stopPrinter.printer = .stopped := by
    obtain ⟨producers, ticker, ready, he⟩ := c.stopPrinter_eq
    rw [he]
  rw [duties_stopPrinter, hs]
  exact .stopped h hp

theorem PrinterTurn.diary (h : PrinterTurn c d more) (hc : Diary c.duties c.printer) :
    Diary d.duties d.printer := by
  cases h with
  | gone => exact hc
  | idle => exact hc
  | deserted hp => exact diary_stopPrinter hc (.inl hp)
  | @choked t hp =>
    have hs : ((c.take t).crashPrinter t.message).printer = .crashed := by
      obtain ⟨producers, ticker, ready, he⟩ := (c.take t).crashPrinter_eq t.message
      rw [he]
    rw [hp] at hc
    rw [duties_crashPrinter, duties_take, hs]
    exact .choked hc _
  | @told t r hp hm hd hs hk =>
    have hx : ((c.take t).shown t.message.kind r).printer = .receiving := by
      obtain ⟨display, journal, he⟩ := (c.take t).shown_eq t.message.kind r
      rw [he, ← hp]
      rfl
    rw [hp] at hc
    rw [duties_drawn, hx]
    exact .told hc hs hk hd
  | @asked t r slot hp hm hd hs =>
    have hx := c.duties_drawn t r
    rw [hp] at hc
    cases ht : t.message with
    | prompt text slot' =>
      rw [ht] at hd hs hx
      cases hs
      exact hx ▸ .asked hc hd
    | _ =>
      rw [ht] at hs
      cases hs
  | @exited t r code hp hm hd hk =>
    have hx := c.duties_drawn t r
    have hl : (((c.take t).shown t.message.kind r).log (.exiting code)).duties = _ :=
      duties_record rfl
    rw [hp] at hc
    cases ht : t.message with
    | exit text code' =>
      rw [ht] at hd hk hx hl
      cases hk
      have he : ((((c.take t).shown (Message.exit text code).kind r).log (.exiting code)).record
          (.ending .printer (.exit code))).duties =
            c.duties ++ [.handled (.exit text code), .wrote r.bytes, .ending .printer (.exit code)] := by
        rw [duties_note rfl, hl, hx, List.append_assoc]
        rfl
      exact he ▸ .exited hc hd
    | _ =>
      rw [ht] at hk
      cases hk
  | pending => exact hc
  | @heard slot line hp =>
    have hr : ((c.resumeRead .printer).record (.read .printer (.ok line))).duties =
        c.duties ++ [.read .printer (.ok line)] :=
      duties_note rfl
    rw [hp] at hc
    rcases ((c.resumeRead .printer).record (.read .printer (.ok line))).answer_eq slot line with
      ⟨producers, ticker, ready, he⟩ | he <;> rw [he]
    · exact hr ▸ .heard hc line
    · exact ((duties_record (e := .logged .askerGone) rfl).trans hr) ▸ .heard hc line
  | @failed slot failure hp =>
    have hr : (((c.resumeRead .printer).record (.read .printer (.error failure))).log
        (.answerFailed failure)).duties = c.duties ++ [.read .printer (.error failure)] :=
      (duties_record rfl).trans (duties_note rfl)
    have hx : ((((c.resumeRead .printer).record (.read .printer (.error failure))).log
        (.answerFailed failure)).record (.ending .printer (.abort failure))).duties =
          c.duties ++ [.read .printer (.error failure), .ending .printer (.abort failure)] := by
      rw [duties_note rfl, hr, List.append_assoc]
      rfl
    rw [hp] at hc
    obtain ⟨producers, ticker, ready, he⟩ :=
      ((((c.resumeRead .printer).record (.read .printer (.error failure))).log
        (.answerFailed failure)).record (.ending .printer (.abort failure))).hangUp_eq slot
    rw [he]
    exact hx ▸ .failed hc failure
  | left hp => exact diary_stopPrinter hc (.inr hp)

/-! Beside the printer. -/

theorem isDuty_of_isTasks {e : Event} (h : e.isTasks) : !e.isDuty := by
  cases e <;> first | rfl | cases h

theorem SignalWatchTurn.duties (h : SignalWatchTurn c d more) : d.duties = c.duties := by
  cases h with
  | disable => exact duties_record rfl
  | hear => exact duties_record rfl
  | _ => rfl

theorem KeywordWatchTurn.duties (h : KeywordWatchTurn c d more) : d.duties = c.duties := by
  have hr (result : Except Failure String) : ((c.resumeRead .keywordWatch).record
      (.read .keywordWatch result)).duties = c.duties :=
    duties_record rfl
  cases h with
  | off => rfl
  | stop => rfl
  | pending => rfl
  | keyword => exact (duties_record rfl).trans (hr _)
  | other => exact hr _
  | failed => exact ((duties_record rfl).trans (duties_record rfl)).trans (hr _)

theorem turn_duties (c : Console) (h : id ≠ .printer) : (c.turn id).1.duties = c.duties := by
  cases id with
  | printer => exact absurd rfl h
  | signalWatch => exact (signalWatchTurn_cases c).duties
  | keywordWatch => exact (keywordWatchTurn_cases c).duties
  | ticker => exact ((tickerTurn_cases c).adds.mono fun _ => isDuty_of_isTasks).duties
  | producer n => exact ((producerTurn_cases c n).adds.mono fun _ => isDuty_of_isTasks).duties

theorem work_duties (c : Console) (hi : id ∈ watchers) : (c.work id).duties = c.duties := by
  rcases c.work_cases id with ⟨s, request, a, -, -, -, he⟩ | ⟨-, he⟩ <;> rw [he]
  · exact ((callTurn_cases c s request a).adds.mono fun _ => isDuty_of_isTasks).duties
  · exact turn_duties { c with terminated := false } (not_printer_of_watchers hi)

theorem act_duties (c : Console) (m : Move) (h : m ≠ .step .printer) :
    (c.act m).duties = c.duties := by
  cases m with
  | step id =>
    obtain ⟨ready, he⟩ := c.turn_eq_step id
    rw [act, he]
    exact turn_duties c fun hid => h (by rw [hid])
  | kill n =>
    rw [act, kill]
    split <;> rfl
  | raise s =>
    rw [act, raise]
    split <;> rfl
  | setSink s => exact duties_record rfl
  | start k interactive =>
    have hs := (c.supervise_cases k interactive).adds.mono (q := fun e => !e.isDuty) fun e he => by
      cases e <;> first | rfl | cases he
    exact (duties_record rfl).trans hs.duties
  | _ => rfl

theorem Attainable.diary (h : c.Attainable) : Diary c.duties c.printer := by
  apply h.invariant (P := fun c => Diary c.duties c.printer)
  · intro settings jobs source sink c₀ h₀
    obtain ⟨-, rfl⟩ := new?_eq_some.1 h₀
    exact .blank
  · intro c m _ _ hc
    by_cases hm : m = .step .printer
    · subst hm
      have ht : Diary (c.turn .printer).1.duties (c.turn .printer).1.printer :=
        (printerTurn_cases c).diary hc
      obtain ⟨ready, he⟩ := c.turn_eq_step .printer
      rw [Console.act, he]
      exact ht
    · rw [c.act_duties m hm, (c.act_aside m hm).1]
      exact hc
  · intro c id _ hi _ _ hc
    rw [c.work_duties hi, (c.beside_work hi).printer]
    exact hc

end Console

end JobConsole
