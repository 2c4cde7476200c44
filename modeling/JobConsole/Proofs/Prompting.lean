import JobConsole.Proofs.Delivery
import JobConsole.Proofs.News

namespace JobConsole

def Event.isDrawn : Event → Bool
  | handled _ | wrote _ => true
  | _ => false

/-- The last thing drawn, on a display that was `d₀` in the beginning, is a prompt whose answer goes
to the slot. -/
def Shows (d₀ : Display) (es : List Event) (slot : ReplySlot) : Prop :=
  ∃ (text : String) (drawn : Display.Drawn) (older newer : List Event),
    (d₀.afterAll (older.filterMap Event.print?)).draw .prompt text = some drawn ∧
      es = older ++ [.handled (.prompt text slot), .wrote drawn.bytes] ++ newer ∧
        ∀ e ∈ newer, e.isDrawn = false

namespace Console

variable {d₀ : Display} {c d : Console} {id : TaskId} {more : Bool} {slot : ReplySlot}

theorem Shows.later {p : Event → Bool} (h : Shows d₀ c.events slot) (hd : Adds p c d)
    (hp : ∀ e, p e → e.isDrawn = false) : Shows d₀ d.events slot := by
  obtain ⟨text, drawn, older, newer, hr, he, hn⟩ := h
  obtain ⟨news, hd, hq⟩ := hd
  refine ⟨text, drawn, older, newer ++ news, hr, by rw [hd, he, List.append_assoc], ?_⟩
  exact fun e he => (List.mem_append.1 he).elim (hn e) fun he => hp e (hq e he)

theorem shows_asked {t : Mailbox.Taken TaskId} {r : Display.Drawn} (hc : Mail d₀ c)
    (hd : c.display.draw t.message.kind t.message.text = some r)
    (hs : t.message.slot? = some slot) :
    Shows d₀ ((c.take t).shown t.message.kind r).events slot := by
  cases hm : t.message with
  | prompt text slot' =>
    rw [hm] at hd hs
    cases hs
    have hw : (Console.record { c.take t with display := r.display } (.wrote r.bytes)).events =
        c.events ++ [.handled (.prompt text slot), .wrote r.bytes] := by
      have ht : (c.take t).events = c.events ++ [.handled (.prompt text slot)] := by
        rw [← hm]
        exact events_record _ _
      apply (events_record _ _).trans
      change (c.take t).events ++ [.wrote r.bytes] = _
      rw [ht, List.append_assoc]
      rfl
    have hdisplay : c.display = d₀.afterAll (c.events.filterMap Event.print?) :=
      Accounted.display hc
    have hs : Shows d₀
        (Console.record { c.take t with display := r.display } (.wrote r.bytes)).events slot :=
      ⟨text, r, c.events, [], hdisplay ▸ hd, by rw [hw, List.append_nil], nofun⟩
    have hn (e : Event) (he : !e.isDrawn) : e.isDrawn = false := by simpa using he
    unfold shown
    split
    · exact Shows.later hs (.record (.same rfl) rfl) hn
    · exact Shows.later hs (.record (x := .logged _) (.same rfl) rfl) hn
  | _ =>
    rw [hm] at hs
    cases hs

def Asking (d₀ : Display) (c : Console) : Prop :=
  ∀ slot, c.printer = .reading slot → Shows d₀ c.events slot

theorem asking_of_ne (h : ∀ slot, c.printer ≠ .reading slot) : Asking d₀ c :=
  fun slot hp => absurd hp (h slot)

theorem PrinterTurn.asking (h : PrinterTurn c d more) (hm : Mail d₀ c) (hc : Asking d₀ c) :
    Asking d₀ d := by
  have hstop : Asking d₀ c.stopPrinter := by
    obtain ⟨producers, ticker, ready, he⟩ := c.stopPrinter_eq
    exact asking_of_ne (by simp [he])
  cases h with
  | gone => exact hc
  | idle => exact hc
  | deserted => exact hstop
  | @choked t =>
    obtain ⟨producers, ticker, ready, he⟩ := (c.take t).crashPrinter_eq t.message
    exact asking_of_ne (by simp [he])
  | @told t r h =>
    obtain ⟨display, journal, he⟩ := (c.take t).shown_eq t.message.kind r
    rw [he]
    exact asking_of_ne fun slot hs => absurd (h.symm.trans hs) nofun
  | asked _ _ hd hs =>
    intro slot hp
    cases hp
    exact shows_asked hm hd hs
  | exited => exact asking_of_ne nofun
  | pending => exact hc
  | heard => exact asking_of_ne nofun
  | failed => exact asking_of_ne nofun
  | left => exact hstop

theorem PrinterTurn.sized (h : PrinterTurn c d more) :
    d.settings = c.settings ∧ d.mailbox.capacity = c.mailbox.capacity := by
  have htake {t : Mailbox.Taken TaskId} (hm : c.mailbox.take? = some t) :
      t.mailbox.capacity = c.mailbox.capacity := by
    obtain ⟨rest, -, hb, -⟩ := Mailbox.take?_eq_some hm
    rw [hb]
    exact ({ c.mailbox with items := rest } : Mailbox TaskId).grant_items.2.2
  have hshown {t : Mailbox.Taken TaskId} (hm : c.mailbox.take? = some t) (r : Display.Drawn) :
      ((c.take t).shown t.message.kind r).settings = c.settings ∧
        ((c.take t).shown t.message.kind r).mailbox.capacity = c.mailbox.capacity := by
    obtain ⟨display, journal, he⟩ := (c.take t).shown_eq t.message.kind r
    rw [he]
    exact ⟨rfl, htake hm⟩
  have hstop : c.stopPrinter.settings = c.settings ∧
      c.stopPrinter.mailbox.capacity = c.mailbox.capacity := by
    obtain ⟨producers, ticker, ready, he⟩ := c.stopPrinter_eq
    rw [he]
    exact ⟨rfl, rfl⟩
  cases h with
  | gone => exact ⟨rfl, rfl⟩
  | idle => exact ⟨rfl, rfl⟩
  | deserted => exact hstop
  | @choked t h hm =>
    obtain ⟨producers, ticker, ready, he⟩ := (c.take t).crashPrinter_eq t.message
    rw [he]
    exact ⟨rfl, htake hm⟩
  | told h hm => exact hshown hm _
  | asked h hm => exact hshown hm _
  | exited h hm => exact hshown hm _
  | pending => exact ⟨rfl, rfl⟩
  | @heard slot line =>
    obtain ⟨producers, ticker, ready, journal, he⟩ :=
      ((c.resumeRead .printer).record (.read .printer (.ok line))).answer_fields slot line
    rw [he]
    exact ⟨rfl, rfl⟩
  | @failed slot failure =>
    obtain ⟨producers, ticker, ready, he⟩ :=
      ((((c.resumeRead .printer).record (.read .printer (.error failure))).log
        (.answerFailed failure)).record (.ending .printer (.abort failure))).hangUp_eq slot
    rw [he]
    exact ⟨rfl, rfl⟩
  | left => exact hstop

theorem act_aside (c : Console) (m : Move) (h : m ≠ .step .printer) :
    (c.act m).printer = c.printer ∧ (c.act m).settings = c.settings ∧
      (c.act m).mailbox.capacity = c.mailbox.capacity ∧
        Adds (fun e => !e.isDrawn) c (c.act m) := by
  cases m with
  | step id =>
    have hid : id ≠ .printer := fun he => h (by rw [he])
    have hb := turn_beside c hid
    have ha := (turn_adds c hid).mono (q := fun e => !e.isDrawn) fun e he => by
      cases e <;> first | rfl | cases he
    obtain ⟨ready, he⟩ := c.turn_eq_step id
    rw [act, he]
    exact ⟨hb.printer, hb.settings, hb.capacity, ha⟩
  | kill n =>
    rw [act, kill]
    split
    · exact ⟨rfl, rfl, rfl, .same rfl⟩
    · exact ⟨rfl, rfl, (c.mailbox.leave_items _).2.2, .same rfl⟩
  | raise s =>
    rw [act, raise]
    split <;> exact ⟨rfl, rfl, rfl, .same rfl⟩
  | setSink s => exact ⟨rfl, rfl, rfl, ⟨_, events_record _ _, by simp [Event.isDrawn]⟩⟩
  | start k interactive =>
    have hs := c.supervise_cases k interactive
    have ha := hs.adds.mono (q := fun e => !e.isDrawn) fun e he => by
      cases e <;> first | rfl | cases he
    exact ⟨hs.beside.printer, hs.beside.settings, hs.beside.capacity, ha.record rfl⟩
  | _ => exact ⟨rfl, rfl, rfl, .same rfl⟩

theorem turn_gone (hc : c.printer = .stopped ∨ c.printer = .crashed) :
    c.turn .printer = (c, false) := by
  rcases hc with hc | hc <;> simp only [turn, printerTurn, hc]

theorem act_gone (hc : c.printer = .stopped ∨ c.printer = .crashed) (m : Move) :
    (c.act m).printer = c.printer := by
  by_cases hm : m = .step .printer
  · subst hm
    obtain ⟨ready, he⟩ := c.turn_eq_step .printer
    rw [Console.act, he, turn_gone hc]
  · exact (c.act_aside m hm).1

theorem Asking.act (hc : Asking d₀ c) (hd : Mail d₀ c) (m : Move) : Asking d₀ (c.act m) := by
  by_cases hm : m = .step .printer
  · subst hm
    have ht : Asking d₀ (c.turn .printer).1 := (printerTurn_cases c).asking hd hc
    obtain ⟨ready, he⟩ := c.turn_eq_step .printer
    rw [Console.act, he]
    exact ht
  · obtain ⟨hp, -, -, ha⟩ := c.act_aside m hm
    intro slot hs
    rw [hp] at hs
    exact Shows.later (hc slot hs) ha (by simp)

theorem act_sized (c : Console) (m : Move) : (c.act m).settings = c.settings ∧
    (c.act m).mailbox.capacity = c.mailbox.capacity := by
  by_cases hm : m = .step .printer
  · subst hm
    have ht := (printerTurn_cases c).sized
    obtain ⟨ready, he⟩ := c.turn_eq_step .printer
    rw [Console.act, he]
    exact ht
  · obtain ⟨-, hs, hb, -⟩ := c.act_aside m hm
    exact ⟨hs, hb⟩

end Console

end JobConsole
