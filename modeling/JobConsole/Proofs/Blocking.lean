import JobConsole.Proofs.Coherence

namespace JobConsole.Console

/-- A console is coherent if the given tasks are those that run next. -/
def Coheres (c : Console) (here : TaskId → Prop) : Prop :=
  Coherent c.mailbox c.reader c.printer c.terminated c.parked c.keywordWatch here c.standing

variable {c d : Console} {id : TaskId} {a : Activity} {s : Statement} {rest : Program} {k : Nat}
  {w : Wait} {stage : Stage} {here : TaskId → Prop}

theorem Coheres.not_in_line (hc : c.Coheres here)
    (h : ∀ s rest k m, c.standing id ≠ .busy ⟨s :: rest, k, .room m⟩) :
    id ∉ c.mailbox.granted ++ c.mailbox.waiting := by
  intro hi
  obtain ⟨s, rest, k, m, hs⟩ := hc.inLine id hi
  exact h s rest k m hs

theorem Coheres.wait_of_line (hc : c.Coheres here) (hs : c.standing id = .busy ⟨s :: rest, k, w⟩)
    (hi : id ∈ c.mailbox.granted ++ c.mailbox.waiting) : ∃ m, w = .room m := by
  obtain ⟨s', rest', k', m, hm⟩ := hc.inLine id hi
  rw [hs] at hm
  cases hm
  exact ⟨m, rfl⟩

/-- When one task gets on, nobody else loses a place in a line. -/
structure Apart (c d : Console) (id : TaskId) : Prop where
  balanced : d.mailbox.Balanced
  items : ∀ m ∈ c.mailbox.items, m ∈ d.mailbox.items
  woken : c.printer = .receiving → d.mailbox.items = c.mailbox.items ∨ .printer ∈ d.ready
  granted : ∀ i ∈ d.mailbox.granted, i ∈ d.ready ∧ i ≠ id
  kept : ∀ i ∈ c.mailbox.granted, i ≠ id → i ∈ d.mailbox.granted
  line : ∀ i ∈ d.mailbox.granted ++ d.mailbox.waiting, i ≠ id →
    i ∈ c.mailbox.granted ++ c.mailbox.waiting
  waiting : ∀ i ∈ c.mailbox.waiting, i ≠ id →
    i ∈ d.mailbox.waiting ∨ i ∈ d.ready ∧ i ∈ d.mailbox.granted
  parked : ∀ i ∈ c.parked, i ≠ id → i ∈ d.parked
  ready : ∀ i ∈ c.ready, i ≠ id → i ∈ d.ready
  watch : c.keywordWatch = true → d.keywordWatch = true
  reader : d.reader = c.reader

theorem Apart.coherent (h : Apart c d id) (hd : Beside c d) (hc : c.Coheres (· ∈ c.ready))
    (hp : id ≠ .printer) (hk : id ≠ .keywordWatch) {here' : TaskId → Prop}
    {st' : TaskId → Standing} (hhere : ∀ i ∈ d.ready, i ≠ id → here' i)
    (hothers : ∀ i, i ≠ id →
      st' i = c.standing i ∨ c.standing i = .unborn ∧ st' i = .between)
    (hown : ∀ a, st' id = .busy a →
      Placed d.mailbox d.printer d.terminated d.parked (here' id) id a.program a.wait)
    (hline : id ∈ d.mailbox.waiting → ∃ s rest k m, st' id = .busy ⟨s :: rest, k, .room m⟩)
    (ht : c.terminated = true → id = .ticker → ∀ a, st' id = .busy a → here' id) :
    Coherent d.mailbox d.reader d.printer d.terminated d.parked d.keywordWatch here' st' := by
  obtain ⟨hprinter, hterminated, -, -, -, hclosed, hshut⟩ := hd
  rw [hprinter, hterminated] at hown
  rw [h.reader, hprinter, hterminated]
  have hkeep (i : TaskId) (hi : i ∈ c.ready) (hne : i ≠ id) :
      here' i := hhere i (h.ready i hi hne) hne
  have hwake : TaskId.printer ∈ c.ready → here' .printer := fun hi => hkeep _ hi (Ne.symm hp)
  constructor
  case phase =>
    cases hc.phase with
    | running hs hn ho ht => exact .running hs hn (hclosed.trans ho) ht
    | stopped hs hb ht => exact .stopped hs (hshut hb) ht
    | crashed hs hb ht => exact .crashed hs (hshut hb) ht
  case balanced => exact h.balanced
  case granted => exact fun i hi => (h.granted i hi).elim (hhere i)
  case inLine =>
    intro i hi
    by_cases he : i = id
    · subst he
      rcases List.mem_append.1 hi with hi | hi
      · exact absurd rfl (h.granted i hi).2
      · exact hline hi
    · obtain ⟨s, rest, k, m, hs⟩ := hc.inLine i (h.line i hi he)
      rcases hothers i he with ho | ⟨ho, -⟩
      · exact ⟨s, rest, k, m, ho.trans hs⟩
      · rw [hs] at ho
        cases ho
  case placed =>
    intro i a hi
    by_cases he : i = id
    · subst he
      exact hown a hi
    · have hst : c.standing i = .busy a := by
        rcases hothers i he with ho | ⟨-, ho⟩
        · rw [← ho, hi]
        · rw [hi] at ho
          cases ho
      apply (hc.placed i a hst).mono
      case hx => exact fun hr => hkeep i hr he
      case hcall => exact fun hg => hg.imp (fun hg => h.kept i hg he) fun hc => hclosed.trans hc
      case hline =>
        exact fun hw => (h.waiting i hw he).imp_right fun hw => ⟨hhere i hw.1 he, .inl hw.2⟩
      case hask => exact fun _ _ _ hm => .inl (h.items _ hm)
      case hread => exact fun _ _ hr => hr
      case hexit => exact fun _ _ hm => .inl (h.items _ hm)
      case hleave => exact fun hl => hl.imp_right fun hc => hclosed.trans hc
      case hpark => exact fun hx => .inr ⟨hx.1, h.parked i hx.2 he⟩
  case attended =>
    apply hc.attended.mono h.watch
    rintro i hr hi
    apply hkeep i hi
    rintro rfl
    cases i with
    | printer => exact hp rfl
    | keywordWatch => exact hk rfl
    | _ => exact hr
  case receiving =>
    intro hr
    rcases h.woken hr with he | hi
    · exact (hc.receiving hr).imp hwake fun hi => he.trans hi
    · exact .inl (hhere _ hi (Ne.symm hp))
  case leaving => exact fun hl => hwake (hc.leaving hl)
  case ticking =>
    intro hterm a hb
    by_cases he : .ticker = id
    · subst he
      exact ht hterm rfl a hb
    · rcases hothers .ticker he with ho | ⟨-, ho⟩ <;> rw [hb] at ho
      · exact hkeep _ (hc.ticking hterm a ho.symm) he
      · cases ho

theorem Apart.quiet (hc : c.Coheres (· ∈ c.ready)) (hid : id ∉ c.mailbox.granted)
    (hm : d.mailbox = c.mailbox) (hp : ∀ i ∈ c.parked, i ∈ d.parked)
    (hr : ∀ i ∈ c.ready, i ∈ d.ready) (hk : c.keywordWatch = true → d.keywordWatch = true)
    (hreader : d.reader = c.reader) : Apart c d id := by
  refine ⟨?_, ?_, fun _ => .inl ?_, ?_, ?_, ?_, ?_, fun i hi _ => hp i hi, fun i hi _ => hr i hi, hk,
    hreader⟩ <;> rw [hm]
  · exact hc.balanced
  · exact fun _ h => h
  · exact fun i hi => ⟨hr i (hc.granted i hi), fun he => hid (he ▸ hi)⟩
  · exact fun _ h _ => h
  · exact fun _ h _ => h
  · exact fun _ h _ => .inl h

/-! A small step of a statement. -/

theorem mem_park (c : Console) (id : TaskId) :
    id ∈ (c.park id).parked ∧ ∀ i ∈ c.parked, i ∈ (c.park id).parked := by
  unfold park
  split
  · rename_i h
    exact ⟨h, fun _ h => h⟩
  · exact ⟨List.mem_append_right _ (List.mem_singleton_self id), fun _ h => List.mem_append_left _ h⟩

theorem park_eq (c : Console) (id : TaskId) : ∃ parked, c.park id = { c with parked } := by
  unfold park
  split <;> exact ⟨_, rfl⟩

theorem mem_wakeReceiver {i : TaskId} (h : i ∈ c.ready) : i ∈ c.wakeReceiver.ready := by
  unfold wakeReceiver
  dsimp only
  split
  · exact mem_enlist.2 (.inl h)
  · exact h

theorem printer_mem_wakeReceiver (h : c.printer = .receiving) :
    .printer ∈ c.wakeReceiver.ready := by
  unfold wakeReceiver
  simp only [h, Printer.isReceiving, if_true]
  exact mem_enlist.2 (.inr rfl)

theorem mem_letGo {i : TaskId} (h : i ∈ c.ready) : i ∈ c.letGo.ready := by
  unfold letGo
  dsimp only
  split
  · exact h
  · exact mem_wakeReceiver h

theorem mem_supervise {interactive : Bool} {i : TaskId} (h : i ∈ c.ready) :
    i ∈ (c.supervise k interactive).1.ready := by
  have hs := c.supervise_cases k interactive
  generalize (c.supervise k interactive).1 = d, (c.supervise k interactive).2 = first at hs
  cases hs with
  | already => exact h
  | started _ hr => exact (hr i).2 (.inl h)

theorem Deed.mem_ready (h : Deed c id s w d stage) {i : TaskId} (hi : i ∈ c.ready) :
    i ∈ d.ready := by
  cases h with
  | still => exact hi
  | accept => exact mem_wakeReceiver hi
  | refuse => exact hi
  | join => exact hi
  | park =>
    obtain ⟨parked, he⟩ := c.park_eq id
    rw [he]
    exact hi
  | supervise => exact mem_supervise hi
  | sleep => exact hi

theorem apart_supervise (hc : c.Coheres (· ∈ c.ready)) (hid : id ∉ c.mailbox.granted) (k : Nat)
    (interactive : Bool) : Apart c (c.supervise k interactive).1 id := by
  have hr (i : TaskId) (hi : i ∈ c.ready) := @mem_supervise c k interactive i hi
  have hs := c.supervise_cases k interactive
  generalize (c.supervise k interactive).1 = d, (c.supervise k interactive).2 = first at hs hr ⊢
  cases hs with
  | already => exact .quiet hc hid rfl (fun _ h => h) hr (fun h => h) rfl
  | started => exact .quiet hc hid rfl (fun _ h => h) hr (fun h => by simp [h]) rfl

theorem Enters.apart {m : Message} {slots : Nat} {mailbox : Mailbox TaskId}
    (hb : Enters c.mailbox id m w mailbox) (hc : c.Coheres (· ∈ c.ready))
    (hs : c.standing id = .busy ⟨s :: rest, k, w⟩) :
    Apart c (record { c with slots, mailbox } (.accepted id m)).wakeReceiver id := by
  have hready (i : TaskId) (hi : i ∈ c.ready) :
      i ∈ (record { c with slots, mailbox } (.accepted id m)).wakeReceiver.ready :=
    mem_wakeReceiver (c := record { c with slots, mailbox } (.accepted id m)) hi
  have hwoken (hp : c.printer = .receiving) : TaskId.printer ∈
      (record { c with slots, mailbox } (.accepted id m)).wakeReceiver.ready :=
    printer_mem_wakeReceiver (c := record { c with slots, mailbox } (.accepted id m)) hp
  cases hb with
  | free hr =>
    refine ⟨hc.balanced.push hr, fun _ h => List.mem_append_left _ h, fun hp => .inr (hwoken hp), ?_,
      fun _ h _ => h, fun _ h _ => h, fun _ h _ => .inl h, fun _ h _ => h, fun i hi _ => hready i hi,
      fun h => h, rfl⟩
    intro i hi
    refine ⟨hready i (hc.granted i hi), fun he => ?_⟩
    obtain ⟨m, hm⟩ := hc.wait_of_line hs (List.mem_append_left _ (he ▸ hi))
    cases hm
  | granted hg =>
    have hd := (List.nodup_append.1 hc.balanced.distinct).1
    refine ⟨hc.balanced.redeem hg, fun _ h => List.mem_append_left _ h, fun hp => .inr (hwoken hp),
      ?_, fun i hi hne => (List.mem_erase_of_ne hne).2 hi, ?_, fun _ h _ => .inl h, fun _ h _ => h,
      fun i hi _ => hready i hi, fun h => h, rfl⟩
    · intro i hi
      obtain ⟨hne, hi⟩ := hd.mem_erase_iff.1 hi
      exact ⟨hready i (hc.granted i hi), hne⟩
    · intro i hi _
      exact List.mem_append.2 ((List.mem_append.1 hi).imp_left List.mem_of_mem_erase)

theorem Deed.apart (h : Deed c id s w d stage) (hc : c.Coheres (· ∈ c.ready))
    (hs : c.standing id = .busy ⟨s :: rest, k, w⟩) : Apart c d id := by
  have hfree (hw : ∀ m, w ≠ .room m) : id ∉ c.mailbox.granted ++ c.mailbox.waiting :=
    fun hi => (hc.wait_of_line hs hi).elim hw
  have hnot (hw : ∀ m, w ≠ .room m) : id ∉ c.mailbox.granted :=
    fun hi => hfree hw (List.mem_append_left _ hi)
  have hready (i : TaskId) (hi : i ∈ c.ready) : i ∈ d.ready := h.mem_ready hi
  cases h with
  | still h =>
    refine .quiet hc ?_ rfl (fun _ h => h) (fun _ h => h) (fun h => h) rfl
    cases h with
    | unserved _ hg => exact hg
    | _ => exact hnot nofun
  | accept hm ho hb => exact hb.apart hc hs
  | refuse hm hcl =>
    refine .quiet hc ?_ rfl (fun _ h => h) hready (fun h => h) rfl
    have hshut := Staged.isShut hc.phase hcl
    simp [hshut.granted]
  | join hw hm ho hr =>
    subst hw
    refine ⟨hc.balanced.join hr (hfree nofun), fun _ h => h, fun _ => .inl rfl, ?_, fun _ h _ => h,
      ?_, fun _ h _ => .inl (List.mem_append_left _ h), fun _ h _ => h, fun _ h _ => h, fun h => h,
      rfl⟩
    · exact fun i hi => ⟨hc.granted i hi, fun he => hnot nofun (he ▸ hi)⟩
    · intro i hi hne
      simp only [Mailbox.join, List.mem_append, List.mem_singleton] at hi ⊢
      exact hi.imp_right fun hi => hi.resolve_right hne
  | park hw =>
    have hp := (c.mem_park id).2
    obtain ⟨parked, he⟩ := c.park_eq id
    rw [he] at hp ⊢
    refine .quiet hc (hnot fun m hm => ?_) rfl hp (fun _ h => h) (fun h => h) rfl
    subst hm
    rcases hw with hw | hw <;> cases hw
  | supervise hw => exact apart_supervise hc (hnot (by simp [hw])) _ _
  | sleep hw => exact .quiet hc (hnot (by simp [hw])) rfl (fun _ h => h) hready (fun h => h) rfl

theorem Deed.lined (h : Deed c id s w d stage) (hc : c.Coheres (· ∈ c.ready))
    (hs : c.standing id = .busy ⟨s :: rest, k, w⟩) (hi : id ∈ d.mailbox.waiting) :
    ∃ m, stage = .blocked (.room m) := by
  have hwait (hi : id ∈ c.mailbox.waiting) : ∃ m, w = .room m :=
    hc.wait_of_line hs (List.mem_append_right _ hi)
  cases h with
  | still h =>
    obtain ⟨m, rfl⟩ := hwait hi
    cases h
    exact ⟨m, rfl⟩
  | accept hm ho hb =>
    obtain ⟨m, hw⟩ := hwait (by cases hb <;> exact hi)
    cases hb with
    | free => cases hw
    | granted hg => exact absurd rfl ((List.nodup_append.1 hc.balanced.distinct).2.2 id hg id hi)
  | refuse hm hcl =>
    have hshut := Staged.isShut hc.phase hcl
    change id ∈ c.mailbox.waiting at hi
    rw [hshut.waiting] at hi
    cases hi
  | @join m => exact ⟨m, rfl⟩
  | park hw =>
    obtain ⟨parked, he⟩ := c.park_eq id
    rw [he] at hi
    obtain ⟨m, rfl⟩ := hwait hi
    rcases hw with hw | hw <;> cases hw
  | @supervise j interactive hw =>
    have hm : (c.supervise j interactive).1.mailbox = c.mailbox := by
      have hs := c.supervise_cases j interactive
      generalize (c.supervise j interactive).1 = d, (c.supervise j interactive).2 = first at hs
      cases hs <;> rfl
    rw [hm] at hi
    obtain ⟨m, rfl⟩ := hwait hi
    cases hw
  | sleep hw =>
    obtain ⟨m, rfl⟩ := hwait hi
    cases hw

def LeftAt (c : Console) (id : TaskId) (s : Statement) : Stage → Prop
  | .blocked w =>
    ∀ rest, Placed c.mailbox c.printer c.terminated c.parked False id (s :: rest) w
  | .moving w => ∀ rest, Placed c.mailbox c.printer c.terminated c.parked True id (s :: rest) w
  | .finished _ | .crashed => True

theorem answersTo_of_sending? {m : Message} (hs : c.sending? id s .fresh = some m) :
    AnswersTo id m := by
  intro slot hslot
  cases s <;> cases hs <;> cases hslot <;> rfl

theorem left_afterSend {m : Message} (ha : AnswersTo id m) (hm : m ∈ d.mailbox.items) :
    LeftAt d id s (afterSend true m) := by
  cases m with
  | progress text => trivial
  | info text => trivial
  | prompt text slot =>
    intro rest
    have hid : slot.asker = id := ha slot rfl
    subst hid
    exact .asking hm
  | exit text code => exact fun rest => .parked (fun _ => .inl ⟨text, code, hm⟩) (.inl trivial)

theorem left_refused (m : Message) (hc : d.mailbox.closed = true) :
    LeftAt d id s (afterSend false m) := by
  cases m with
  | progress text => trivial
  | info text => trivial
  | prompt text slot => exact fun rest => .hungUp (.inr hc) (.inl trivial)
  | exit text code => exact fun rest => .parked (fun _ => .inr (.inr hc)) (.inl trivial)

theorem left_still
    (hp : Placed c.mailbox c.printer c.terminated c.parked True id (s :: rest) w)
    (hd : Still c id s w stage) : LeftAt c id s stage := by
  cases hd with
  | unserved ho hg =>
    intro rest
    cases hp with
    | called _ h => exact (h.elim hg (by simp [ho])).elim
    | inLine hm h => exact .inLine hm h
  | unanswered =>
    intro rest
    cases hp with
    | asking h => exact .asking h
    | answering h => exact .answering h
  | park h =>
    subst h
    exact fun rest => .parked nofun (.inl trivial)
  | asleep =>
    intro rest
    cases hp with
    | alarm hs => exact .alarm hs
  | hang h =>
    subst h
    exact fun rest => .hung rfl
  | hung =>
    intro rest
    cases hp with
    | hung hs => exact .hung hs
  | _ => trivial

theorem Placed.answersTo {m : Message}
    (h : Placed c.mailbox c.printer c.terminated c.parked True id (s :: rest) w)
    (hm : c.sending? id s w = some m) : AnswersTo id m := by
  cases h with
  | fresh => exact answersTo_of_sending? hm
  | called ha => cases hm; exact ha
  | inLine ha => cases hm; exact ha
  | _ => cases hm

theorem Deed.left (h : Deed c id s w d stage)
    (hp : Placed c.mailbox c.printer c.terminated c.parked True id (s :: rest) w) :
    LeftAt d id s stage := by
  cases h with
  | still h => exact left_still hp h
  | @accept m slots mailbox hm ho hb =>
    have ha := Placed.answersTo hp hm
    cases hb <;> exact left_afterSend ha (List.mem_append_right _ (by simp))
  | refuse hm hc => exact left_refused _ hc
  | join hw hm =>
    subst hw
    exact fun rest => .inLine (answersTo_of_sending? hm) (List.mem_append_right _ (by simp))
  | park hw ht =>
    intro rest
    have hm := (c.mem_park id).1
    obtain ⟨parked, he⟩ := c.park_eq id
    rw [he] at hm ⊢
    cases hp with
    | hungUp hl => exact .hungUp hl (.inr ⟨ht, hm⟩)
    | parked hl => exact .parked hl (.inr ⟨ht, hm⟩)
    | _ => rcases hw with hw | hw <;> cases hw
  | supervise => trivial
  | sleep hw hs =>
    subst hs
    exact fun rest => .alarm rfl

end JobConsole.Console
