import JobConsole.Proofs.Run

/-!
Deeds: all that a small step of a statement can do to a console, and where it leaves the statement.
-/

namespace JobConsole.Console

def sending? (c : Console) (id : TaskId) (s : Statement) : Wait → Option Message
  | .fresh => s.message? ⟨c.slots, id⟩
  | .room m => some m
  | _ => none

/-- How a mailbox takes in a message: into free room, or into room that was granted before. -/
inductive Enters (b : Mailbox TaskId) (id : TaskId) (m : Message) : Wait → Mailbox TaskId → Prop
  | free (h : 0 < b.room) : Enters b id m .fresh (b.push m)
  | granted (h : id ∈ b.granted) : Enters b id m (.room m) (b.redeem id m)

/-- The small steps that leave the console as it is. -/
inductive Still (c : Console) (id : TaskId) (s : Statement) : Wait → Stage → Prop
  | unserved {m : Message} (ho : c.mailbox.closed = false) (hg : id ∉ c.mailbox.granted) :
      Still c id s (.room m) (.blocked (.room m))
  | unanswered {n : Nat} : Still c id s (.reply n) (.blocked (.reply n))
  | answered {line : String} : Still c id s (.replied line) (.finished (.answered line))
  | abandoned (h : c.terminated) : Still c id s .hungUp (.finished (.answered ""))
  | released (h : c.terminated) : Still c id s .termination (.finished .returned)
  | park (h : s = .park) : Still c id s .fresh (.moving .termination)
  | look (h : s = .state) : Still c id s .fresh (.finished (.observed c.isReporting c.terminated))
  | nap (h : s = .sleep 0) : Still c id s .fresh (.finished .done)
  | awake {deadline : Nat} (h : deadline ≤ c.now) : Still c id s (.alarm deadline) (.finished .done)
  | asleep {deadline : Nat} (h : c.now < deadline) :
      Still c id s (.alarm deadline) (.blocked (.alarm deadline))
  | hang (h : s = .hang) : Still c id s .fresh (.blocked .forever)
  | hung : Still c id s .forever (.blocked .forever)
  | crash {text : String} (h : s = .crash text) : Still c id s .fresh .crashed

inductive Deed (c : Console) (id : TaskId) (s : Statement) (w : Wait) : Console → Stage → Prop
  | still {stage : Stage} (h : Still c id s w stage) : Deed c id s w c stage
  | accept {m : Message} {slots : Nat} {mailbox : Mailbox TaskId} (hm : c.sending? id s w = some m)
      (ho : c.mailbox.closed = false) (hb : Enters c.mailbox id m w mailbox) :
      Deed c id s w (record { c with slots, mailbox } (.accepted id m)).wakeReceiver
        (afterSend true m)
  | refuse {m : Message} {slots : Nat} (hm : c.sending? id s w = some m)
      (hc : c.mailbox.closed = true) :
      Deed c id s w ((record { c with slots } (.refused id m)).log (.dropped m.kind))
        (afterSend false m)
  | join {m : Message} {slots : Nat} (hw : w = .fresh) (hm : c.sending? id s w = some m)
      (ho : c.mailbox.closed = false) (hr : c.mailbox.room = 0) :
      Deed c id s w { c with slots, mailbox := c.mailbox.join id } (.blocked (.room m))
  | park (hw : w = .hungUp ∨ w = .termination) (h : c.terminated = false) :
      Deed c id s w (c.park id) (.blocked w)
  | supervise {k : Nat} {interactive : Bool} (hw : w = .fresh) (h : s = .start k interactive) :
      Deed c id s w (c.supervise k interactive).1
        (.finished (.started (c.supervise k interactive).2))
  | sleep {n : Nat} (hw : w = .fresh) (h : s = .sleep n) (hn : n ≠ 0) :
      Deed c id s w (c.setTimer ⟨c.now + n, id⟩) (.blocked (.alarm (c.now + n)))

variable {c : Console} {id : TaskId} {s : Statement}

theorem send_deed {m : Message} {slots : Nat} (hm : c.sending? id s .fresh = some m) :
    Deed c id s .fresh (send { c with slots } id m).1 (send { c with slots } id m).2 := by
  unfold send
  split
  · rename_i h
    exact .refuse hm h
  · rename_i h
    have ho : c.mailbox.closed = false := by simpa using h
    split
    · rename_i hr
      exact .accept hm ho (.free hr)
    · rename_i hr
      exact .join rfl hm ho (by simpa using hr)

theorem resend_deed (m : Message) : Deed c id s (.room m) (c.resend id m).1 (c.resend id m).2 := by
  unfold resend
  split
  · rename_i h
    exact .refuse rfl h
  · rename_i h
    have ho : c.mailbox.closed = false := by simpa using h
    split
    · rename_i hg
      exact .accept rfl ho (.granted hg)
    · rename_i hg
      exact .still (.unserved ho hg)

theorem await_deed {w : Wait} {o : Outcome} (hw : w = .hungUp ∨ w = .termination)
    (hs : c.terminated → Still c id s w (.finished o)) :
    Deed c id s w (c.awaitTermination id w o).1 (c.awaitTermination id w o).2 := by
  unfold awaitTermination
  split
  · rename_i h
    exact .still (hs h)
  · rename_i h
    exact .park hw (by simpa using h)

theorem sleep_deed (n : Nat) :
    Deed c id (.sleep n) .fresh (c.sleep id n).1 (c.sleep id n).2 := by
  unfold sleep
  split
  · rename_i h
    exact .still (.nap (by rw [h]))
  · rename_i h
    exact .sleep rfl rfl h

theorem begin_deed : Deed c id s .fresh (c.begin id s).1 (c.begin id s).2 := by
  cases s with
  | progress text => exact send_deed rfl
  | info text => exact send_deed rfl
  | prompt text => exact send_deed rfl
  | exit text code => exact send_deed rfl
  | park => exact .still (.park rfl)
  | start k interactive => exact .supervise rfl rfl
  | state => exact .still (.look rfl)
  | sleep n => exact sleep_deed n
  | hang => exact .still (.hang rfl)
  | crash text => exact .still (.crash rfl)
  | ask text => exact send_deed rfl
  | confirm question refusal code => exact send_deed rfl

theorem perform_deed (w : Wait) : Deed c id s w (c.perform id s w).1 (c.perform id s w).2 := by
  cases w with
  | fresh => exact begin_deed
  | room m => exact resend_deed m
  | reply n => exact .still .unanswered
  | replied line => exact .still .answered
  | hungUp => exact await_deed (.inl rfl) .abandoned
  | termination => exact await_deed (.inr rfl) .released
  | alarm deadline =>
    simp only [perform]
    split
    · rename_i h
      exact .still (.awake h)
    · rename_i h
      exact .still (.asleep (by omega))
  | forever => exact .still .hung

end JobConsole.Console
