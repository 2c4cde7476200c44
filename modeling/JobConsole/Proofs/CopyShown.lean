import JobConsole.Proofs.Aftermath
import JobConsole.Proofs.Cadence
import JobConsole.Proofs.Ceiling
import JobConsole.Proofs.Conversation
import JobConsole.Proofs.Endings
import JobConsole.Proofs.ShownEvents

namespace JobConsole

theorem Activity.Owes.sends {a : Activity} {ms : List Message} {s : Statement}
    {program : Program}
    (h : a.Owes ms) (hp : a.program = s :: program) : s.sends = true := by
  have hsends {m : Message} (hm : ∀ slot, s.message? slot = some m) : s.sends = true := by
    have hm := hm ⟨0, .printer⟩
    cases s <;> first | rfl | cases hm
  cases h with
  | fresh hs =>
    obtain rfl : _ = s :: program := hp
    cases hs with
    | cons hm => exact hsends hm
  | room hs | parked hs =>
    cases hp
    cases hs with
    | cons hm => exact hsends hm

namespace Console

open FileCopy

/-- On a virtual clock a task that goes on in spite of the termination takes no time. -/
def isTimely (c : Console) : Stride → Bool
  | .move m => c.keepsTime m
  | .work _ => true

inductive Timely (c₀ : Console) : List Stride → Console → Prop
  | start : Timely c₀ [] c₀
  | next {xs : List Stride} {c : Console} (x : Stride) (h : Timely c₀ xs c) (hx : c.permits x)
      (ht : c.isTimely x) : Timely c₀ (xs ++ [x]) (c.stride x)

/-- Nobody sends but the ticker, every line that is read can be read, and no terminal is put in
place that does not take everything. -/
structure Undisturbed (c : Console) : Prop where
  sole : ∀ x ∈ c.posted, x.1 = .ticker
  heard : ∀ x ∈ c.reads, ∃ line, x.2 = .ok line
  roomy : ∀ sink, .sinkChanged sink ∈ c.events → sink.budget = none

def Copies (start files : UInt32) (c : Console) : Prop :=
  ∀ v, c.supervision = some v → c.job v.job = FileCopy.job start files

inductive PrinterPhase (c : Console) (past rest : List (Nat × Message)) : Prop
  | showing (hp : c.printer = .receiving) (hn : ∀ x ∈ past, x.2.code? = none)
  | exited (hp : c.printer = .leaving ∨ c.printer = .stopped) (hr : rest = [])
      (he : ∃ x ∈ past, x.2.code?.isSome)
  /-- Everybody left before there was anything to show. -/
  | unused (hp : c.printer = .stopped) (hh : c.isHeld = false) (hv : c.supervision = none)

/-- What has been shown is the front of the story, and the rest of it is due. -/
structure StoryShown (start files : UInt32) (c : Console) (past rest : List (Nat × Message)) :
    Prop where
  whole : story start files 0 c.checks = past ++ rest
  shown : c.shownJournal = shownEntries "" past
  line : c.display.line = past.foldl lineAfterMessage ""
  sink : c.display.sink.budget = none
  due : ∀ x ∈ rest, x.1 = c.now
  phase : PrinterPhase c past rest

variable {start files : UInt32} {c₀ c d : Console} {id : TaskId} {more : Bool} {m : Move}
  {past rest : List (Nat × Message)} {ms : List Message} {xs : List Stride} {x : Stride}
  {v : Supervision}

theorem Timely.course (h : Timely c₀ xs c) : Course c₀ xs c := by
  induction h with
  | start => exact .start
  | next x _ hx _ ih => exact .next x ih hx

theorem Undisturbed.before (h : Undisturbed d) (hd : c.events <+: d.events) : Undisturbed c := by
  obtain ⟨news, hd⟩ := hd
  refine ⟨fun x hx => h.sole x ?_, fun x hx => h.heard x ?_, fun sink hs => h.roomy sink ?_⟩
  · rw [posted, ← hd, List.filterMap_append]
    exact List.mem_append_left _ hx
  · rw [reads, ← hd, List.filterMap_append]
    exact List.mem_append_left _ hx
  · rw [← hd]
    exact List.mem_append_left _ hs

theorem Undisturbed.own (h : Undisturbed c) (hc : c.Attainable) :
    ∀ id ending, .ending id ending ∈ c.events → id = .printer := by
  intro id ending he
  by_contra hid
  obtain ⟨failure, -, hr⟩ := hc.justified id ending he hid
  obtain ⟨line, hl⟩ := h.heard _ (mem_events_of_mem_reads hr)
  cases hl

theorem Undisturbed.accepted_eq (h : Undisturbed c) : c.accepted = c.said .ticker := by
  rw [Console.accepted_eq, said, ← List.filterMap_eq_map']
  refine List.filterMap_congr fun x hx => ?_
  rw [if_pos (h.sole x hx)]

theorem Undisturbed.said_eq (h : Undisturbed c) (hc : c.Attainable)
    (ho : c.mailbox.closed = false) : c.said .ticker = c.handled ++ c.mailbox.items := by
  obtain ⟨d₀, hm⟩ := hc.mail
  have hsent : c.accepted = c.handled ++ c.discarded ++ c.mailbox.items := hm.sent
  have hkept : c.discarded = [] := hm.kept ho
  rw [← h.accepted_eq, hsent, hkept, List.append_nil]

/-! What is left of the story. -/

theorem PrinterPhase.keep (h : PrinterPhase c past rest) (hp : d.printer = c.printer)
    (hnever : c.isHeld = false → c.printer = .stopped → c.supervision = none →
      d.isHeld = false ∧ d.supervision = none) : PrinterPhase d past rest := by
  cases h with
  | showing hr hn => exact .showing (hp.trans hr) hn
  | exited hr hn he => exact .exited (hp ▸ hr) hn he
  | unused hr hh hv =>
    obtain ⟨hh', hv'⟩ := hnever hh hr hv
    exact .unused (hp.trans hr) hh' hv'

theorem PrinterPhase.not_reading (h : PrinterPhase c past rest) (slot : ReplySlot) :
    c.printer ≠ .reading slot := by
  intro hr
  cases h with
  | showing hp => rw [hr] at hp; cases hp
  | exited hp => rw [hr] at hp; rcases hp with hp | hp <;> cases hp
  | unused hp => rw [hr] at hp; cases hp

theorem PrinterPhase.code?_eq_none (h : PrinterPhase c past rest) (hr : c.printer = .receiving) :
    ∀ x ∈ past, x.2.code? = none := by
  cases h with
  | showing _ hn => exact hn
  | exited hp => rw [hr] at hp; rcases hp with hp | hp <;> cases hp
  | unused hp => rw [hr] at hp; cases hp

theorem StoryShown.handled_eq (h : StoryShown start files c past rest) :
    c.handled = past.map Prod.snd := by
  rw [← handled_shownJournal, h.shown, handled_shownEntries]

theorem StoryShown.story_eq_nil (h : StoryShown start files c past rest) (hc : c.Attainable)
    (hv : c.supervision = none) : past = [] ∧ rest = [] := by
  have hw := h.whole
  rw [checks_of_unsupervised hc.spaced hv] at hw
  exact List.append_eq_nil_iff.1 hw.symm

theorem StoryShown.rest_eq (h : StoryShown start files c past rest) (hc : c.Attainable)
    (hu : Undisturbed c) (hcopy : Copying start files c) (ht : c.terminated = false)
    (ho : c.mailbox.closed = false) :
    ∃ ms, Stands start c ms ∧ rest.map Prod.snd = c.mailbox.items ++ ms := by
  obtain ⟨ms, hs, he⟩ := hcopy.stands ht
  have hsaid := he ho
  rw [hu.said_eq hc ho, h.handled_eq, h.whole, List.map_append, List.append_assoc] at hsaid
  exact ⟨ms, hs, (List.append_cancel_left hsaid).symm⟩

/-- Once no task can run, the copy is between two calls. -/
theorem StoryShown.resting (h : StoryShown start files c past rest) (hc : c.Attainable)
    (hr : c.ready = []) (ht : c.terminated = false) : c.printer = .receiving ∧
      c.mailbox.items = [] ∧ ∀ request a ms, c.supervision.isSome →
        c.ticker = .calling request a → ¬a.Owes ms := by
  have hstopped : c.printer ≠ .stopped := fun hp => by
    rw [hc.staged.terminated_iff.2 hp] at ht
    cases ht
  have hcrashed : c.printer ≠ .crashed := by
    cases h.phase with
    | showing hp => simp [hp]
    | exited hp => rcases hp with hp | hp <;> simp [hp]
    | unused hp => exact absurd hp hstopped
  have hcoheres : c.Coheres fun _ => False :=
    (hc.coheres hcrashed).mono fun i hi => by simp [hr] at hi
  have hp : c.printer = .receiving := by
    cases h.phase with
    | showing hp => exact hp
    | exited hp => exact (hcoheres.leaving (hp.resolve_right hstopped)).elim
    | unused hp => exact absurd hp hstopped
  have hreading : ¬∃ slot, c.printer = .reading slot := by simp [hp]
  refine ⟨hp, ?_, fun request a ms hs hk ho => ?_⟩
  · by_contra hn
    exact hreading (Coherent.holds_item hcoheres hn hcrashed)
  · obtain ⟨v, hv⟩ := Option.isSome_iff_exists.1 hs
    have hb := standing_calling hv hk
    cases hprogram : a.program with
    | nil =>
      have hplaced := hcoheres.placed .ticker a hb
      rw [hprogram] at hplaced
      cases hplaced with
      | spent hh => exact hh
    | cons s program =>
      have hroom : 0 < c.mailbox.capacity := by
        rw [hc.sized]
        exact c.settings.one_le_capacity
      exact hreading (Coherent.waits hcoheres hroom hcrashed hb hprogram (ho.sends hprogram))

theorem StoryShown.rest_eq_nil (h : StoryShown start files c past rest) (hc : c.Attainable)
    (hu : Undisturbed c) (hj : Copies start files c) (hr : c.ready = []) : rest = [] := by
  cases hs : c.supervision with
  | none => exact (h.story_eq_nil hc hs).2
  | some v =>
    cases h.phase with
    | exited _ hn => exact hn
    | unused _ _ hv => rw [hs] at hv; cases hv
    | showing hp =>
      obtain ⟨ho, ht⟩ := hc.staged.open (by simp [hp]) (by simp [hp])
      obtain ⟨-, hitems, hidle⟩ := h.resting hc hr ht
      obtain ⟨ms, hstands, he⟩ := h.rest_eq hc hu (hc.copying hs (hj v hs)) ht ho
      cases hstands with
      | between =>
        rw [hitems] at he
        exact List.map_eq_nil_iff.1 he
      | calling _ _ _ hk _ howes => exact absurd howes (hidle _ _ _ (by rw [hs]; rfl) hk)

/-! The printer. -/

theorem drawn_of_roomy {d : Display} {kind : Kind} {text : String} {r : Display.Drawn}
    (hs : d.sink.budget = none) (h : d.draw kind text = some r) :
    r.bytes = Utf8.encode (Display.lead d.line.toList kind ++ text.toList ++
        Display.trail d.line.toList text.toList kind) ∧
      r.display.line = Display.nextLine d.line text kind ∧ r.display.sink.budget = none := by
  obtain ⟨cells, hl, rfl⟩ := Option.map_eq_some_iff.1 h
  have hfits (bytes : List UInt8) : d.sink.fits bytes = true := by simp [Sink.fits, hs]
  simp [hfits, ← Display.eq_of_layout hl, Sink.after, hs]

theorem shownJournal_take (c : Console) (t : Mailbox.Taken TaskId) :
    (c.take t).shownJournal = c.shownJournal ++ [⟨c.now, .handled t.message⟩] :=
  shownJournal_record _ _

theorem shownJournal_shown (c : Console) (kind : Kind) (r : Display.Drawn) :
    (c.shown kind r).shownJournal = c.shownJournal ++ [⟨c.now, .wrote r.bytes⟩] := by
  have hw : (Console.record { c with display := r.display } (.wrote r.bytes)).shownJournal =
      c.shownJournal ++ [⟨c.now, .wrote r.bytes⟩] :=
    shownJournal_record _ _
  unfold shown
  split
  · rw [shownJournal_record, hw]
    exact List.append_nil _
  · rw [log, shownJournal_record, hw]
    exact List.append_nil _

theorem StoryShown.isSome_draw (h : StoryShown start files c past rest) (m : Message) :
    c.display.draw m.kind m.text ≠ none := by
  intro hn
  have hover := of_decide_eq_true (Bool.and_eq_true_iff.1 (Display.draw_eq_none_iff.1 hn)).2
  have hline : c.display.line.toList.length ≤ Display.widestPad := by
    rw [h.line]
    refine length_foldl_lineAfterMessage (Nat.zero_le _) fun x hx => ?_
    have hstory : x ∈ story start files 0 c.checks := h.whole ▸ List.mem_append_left _ hx
    exact isModest_of_mem_story hstory
  unfold Display.pad at hover
  omega

theorem shownJournal_stopPrinter (c : Console) : c.stopPrinter.shownJournal = c.shownJournal := by
  obtain ⟨producers, ticker, ready, he⟩ := c.stopPrinter_eq
  have hj : c.stopPrinter.journal = (c.mailbox.items.reverse.map (⟨c.now, .discarded ·⟩) ++
      [⟨c.now, .logged .printerStopped⟩]) ++ c.journal := by
    rw [he]
    simp
  rw [shownJournal_of_journal hj, List.filter_eq_nil_iff.2, List.append_nil]
  intro x hx
  rcases List.mem_append.1 (List.mem_reverse.1 hx) with hx | hx
  · obtain ⟨m, -, rfl⟩ := List.mem_map.1 hx
    exact nofun
  · rw [List.mem_singleton.1 hx]
    exact nofun

theorem StoryShown.next (h : StoryShown start files c past rest) (hc : c.Attainable)
    (hu : Undisturbed c) (hj : Copies start files c)
    (hp : c.printer = .receiving) {t : Mailbox.Taken TaskId} (hm : c.mailbox.take? = some t) :
    ∃ rest', rest = (c.now, t.message) :: rest' := by
  obtain ⟨ho, ht⟩ := hc.staged.open (by simp [hp]) (by simp [hp])
  have hitems := (Mailbox.items_of_take? hm).1
  cases hs : c.supervision with
  | none =>
    -- Before there is a supervision the ticker says nothing.
    have hsaid := hu.said_eq hc ho
    rw [(hc.faithful start files).1 hs, hitems] at hsaid
    simp at hsaid
  | some v =>
    obtain ⟨ms, -, he⟩ := h.rest_eq hc hu (hc.copying hs (hj v hs)) ht ho
    rw [hitems] at he
    cases hrest : rest with
    | nil =>
      rw [hrest] at he
      cases he
    | cons x rest' =>
      have hdue := h.due x (by rw [hrest]; exact List.mem_cons_self)
      obtain ⟨time, m⟩ := x
      rw [hrest] at he
      injection he with hmessage
      obtain rfl : time = c.now := hdue
      obtain rfl : m = t.message := hmessage
      exact ⟨rest', rfl⟩

theorem Attainable.supervision_eq_none (hc : c.Attainable) (hj : Copies start files c)
    (ht : c.terminated = false) (hh : c.isHeld = false) : c.supervision = none := by
  by_contra hs
  obtain ⟨v, hv⟩ := Option.ne_none_iff_exists'.1 hs
  obtain ⟨ms, hstands, -⟩ := (hc.copying hv (hj v hv)).stands ht
  have hk := (isHeld_eq_false.1 hh).2.2.2
  cases hstands with
  | between _ _ hn => rw [hk] at hn; rcases hn with hn | ⟨_, hn⟩ <;> cases hn
  | calling _ _ _ hn => rw [hk] at hn; cases hn

theorem shown_fields (c : Console) (t : Mailbox.Taken TaskId) (kind : Kind) (r : Display.Drawn) :
    ((c.take t).shown kind r).display = r.display ∧
      ((c.take t).shown kind r).printer = c.printer ∧
      ((c.take t).shown kind r).shownJournal =
        c.shownJournal ++ [⟨c.now, .handled t.message⟩, ⟨c.now, .wrote r.bytes⟩] := by
  refine ⟨?_, ?_, ?_⟩
  · unfold shown
    split <;> rfl
  · unfold shown
    split <;> rfl
  · rw [shownJournal_shown, shownJournal_take, List.append_assoc]
    rfl

theorem StoryShown.stopPrinter (h : StoryShown start files c past rest)
    (hp : PrinterPhase c.stopPrinter past rest) :
    StoryShown start files c.stopPrinter past rest := by
  have hs := c.steady_stopPrinter
  have hshown := c.shownJournal_stopPrinter
  obtain ⟨producers, ticker, ready, he⟩ := c.stopPrinter_eq
  refine ⟨hs.checks_eq ▸ h.whole, hshown.trans h.shown, ?_, ?_, hs.now ▸ h.due, hp⟩
  · rw [he]; exact h.line
  · rw [he]; exact h.sink

theorem entriesOf_of_drawn {m : Message} {r : Display.Drawn} (hs : c.display.sink.budget = none)
    (hd : c.display.draw m.kind m.text = some r) : entriesOf c.display.line c.now m =
      [⟨c.now, .handled m⟩, ⟨c.now, .wrote r.bytes⟩] ++
        m.code?.toList.map fun code => ⟨c.now, .ending .printer (.exit code)⟩ := by
  rw [entriesOf, ← (drawn_of_roomy hs hd).1]

/-- The printer shows the first message of what is left. -/
theorem StoryShown.draw {m : Message} {r : Display.Drawn}
    (h : StoryShown start files c past ((c.now, m) :: rest))
    (hd : c.display.draw m.kind m.text = some r) (hs : Steady c d)
    (hdisplay : d.display = r.display)
    (hshown : d.shownJournal = c.shownJournal ++ entriesOf c.display.line c.now m)
    (hp : PrinterPhase d (past ++ [(c.now, m)]) rest) :
    StoryShown start files d (past ++ [(c.now, m)]) rest := by
  obtain ⟨-, hline, hsink⟩ := drawn_of_roomy h.sink hd
  refine ⟨?_, ?_, ?_, hdisplay ▸ hsink, fun x hx => ?_, hp⟩
  · rw [hs.checks_eq, h.whole, List.append_assoc]
    rfl
  · rw [hshown, shownEntries_concat, ← h.shown, ← h.line]
  · rw [hdisplay, hline, List.foldl_append, ← h.line]
    rfl
  · rw [hs.now]
    exact h.due x (List.mem_cons_of_mem _ hx)

theorem shownJournal_exiting {t : Mailbox.Taken TaskId} {kind : Kind} {r : Display.Drawn}
    {code : ExitCode} : ((((c.take t).shown kind r).log (.exiting code)).record
      (.ending .printer (.exit code))).shownJournal =
        c.shownJournal ++ [⟨c.now, .handled t.message⟩, ⟨c.now, .wrote r.bytes⟩,
          ⟨c.now, .ending .printer (.exit code)⟩] := by
  have hnow : ((c.take t).shown kind r).now = c.now := by
    unfold shown
    split <;> rfl
  rw [shownJournal_record, log, shownJournal_record, (c.shown_fields t kind r).2.2]
  change _ ++ [] ++ [(⟨((c.take t).shown kind r).now, _⟩ : Entry)] = _
  rw [List.append_nil, hnow, List.append_assoc]
  rfl

theorem PrinterTurn.storyShown (h : PrinterTurn c d more) (hp : StoryShown start files c past rest)
    (hc : c.Attainable) (hu : Undisturbed c) (hj : Copies start files c) :
    ∃ past' rest', StoryShown start files d past' rest' := by
  have hsteady := h.steady
  cases h with
  | gone | idle => exact ⟨past, rest, hp⟩
  | choked _ _ hd => exact absurd hd (hp.isSome_draw _)
  | pending hr | heard hr | failed hr => exact absurd hr (hp.phase.not_reading _)
  | deserted hr hm hh =>
    obtain ⟨d₀, hmail⟩ := hc.mail
    obtain ⟨ho, ht⟩ := hc.staged.open (by simp [hr]) (by simp [hr])
    have hv := hc.supervision_eq_none hj ht hh
    have hdeserted := deserted_stopPrinter hmail ho hm hh
    refine ⟨past, rest, hp.stopPrinter (.unused ?_ hdeserted.1 (hsteady.supervision.trans hv))⟩
    obtain ⟨producers, ticker, ready, he⟩ := c.stopPrinter_eq
    rw [he]
  | left hl =>
    refine ⟨past, rest, hp.stopPrinter ?_⟩
    obtain ⟨producers, ticker, ready, he⟩ := c.stopPrinter_eq
    cases hp.phase with
    | showing hn => rw [hl] at hn; cases hn
    | exited _ hr hcode => exact .exited (.inr (by rw [he])) hr hcode
    | unused hn => rw [hl] at hn; cases hn
  | @asked t r slot hr hm _ hs =>
    obtain ⟨rest', rfl⟩ := hp.next hc hu hj hr hm
    have hstory : (c.now, t.message) ∈ story start files 0 c.checks := by
      rw [hp.whole]
      exact List.mem_append_right _ List.mem_cons_self
    rw [slot?_of_mem_story hstory] at hs
    cases hs
  | @told t r hr hm hd hs hcode =>
    obtain ⟨rest', rfl⟩ := hp.next hc hu hj hr hm
    obtain ⟨hdisplay, hprinter, hshown⟩ := c.shown_fields t t.message.kind r
    refine ⟨_, rest', hp.draw hd hsteady hdisplay ?_ (.showing (hprinter.trans hr) fun x hx => ?_)⟩
    · rw [hshown, entriesOf_of_drawn hp.sink hd, hcode]
      rfl
    · rcases List.mem_append.1 hx with hx | hx
      · exact hp.phase.code?_eq_none hr x hx
      · rw [List.mem_singleton.1 hx]
        exact hcode
  | @exited t r code hr hm hd hcode =>
    obtain ⟨rest', rfl⟩ := hp.next hc hu hj hr hm
    obtain ⟨hdisplay, -, -⟩ := c.shown_fields t t.message.kind r
    -- The exit is the last message of the story.
    obtain rfl : rest' = [] := (eq_nil_of_story hp.whole (by rw [hcode]; rfl)).2
    refine ⟨_, [], hp.draw hd hsteady hdisplay ?_ (.exited (.inl rfl) rfl
      ⟨_, List.mem_append_right _ List.mem_cons_self, by rw [hcode]; rfl⟩)⟩
    rw [entriesOf_of_drawn hp.sink hd, hcode]
    exact shownJournal_exiting

/-! The other tasks, and what comes from outside. -/

structure Instant (c d : Console) : Prop where
  now : d.now = c.now
  checks : d.checks = c.checks ∨ d.checks = c.checks ++ [(c.now, c.request)]

theorem Opens.instant (h : Opens c d) : Instant c d := by
  refine ⟨?_, .inl h.checks_eq⟩
  rcases h with h | ⟨k, interactive, h⟩
  · exact h.now
  · refine h.now.trans ?_
    have hs := c.supervise_cases k interactive
    generalize (c.supervise k interactive).1 = e, (c.supervise k interactive).2 = first at hs ⊢
    cases hs <;> rfl

theorem CallTurn.instant {request : Option Request} {a : Activity}
    (h : CallTurn c v request a d more) : Instant c d := by
  cases h with
  | on hd => exact (hd.opens fun _ => rfl).instant
  | @ended d hd =>
    have hi := (hd.opens fun _ => rfl).instant
    have hchecks := d.checks_ended v request
    refine ⟨hi.now, ?_⟩
    change (d.record _).checks = _ ∨ (d.record _).checks = _
    rw [hchecks]
    exact hi.checks
  | @crashed d hd =>
    have hi := (hd.opens fun _ => rfl).instant
    have hchecks := d.checks_crashed v request
    have hrecover := steady_recover
      (d.record (.call v.job request (v.tally.number request) .crashed)) v request
    refine ⟨hrecover.now.trans hi.now, ?_⟩
    change (Console.recover _ v request).checks = _ ∨ (Console.recover _ v request).checks = _
    rw [hchecks]
    exact hi.checks

theorem TickerTurn.instant (h : TickerTurn c d more) : Instant c d := by
  cases h with
  | off | due | asleep => exact ⟨rfl, .inl rfl⟩
  | @stop w =>
    have hj : (c.stopTicker w).journal =
        [⟨c.now, .logged (.stopped (c.job w.job).name)⟩] ++ c.journal := rfl
    exact ⟨rfl, .inl ((checks_of_journal hj).trans (List.append_nil _))⟩
  | @call w =>
    obtain ⟨request, supervision, ticker, journal, he⟩ := c.beginCall_eq w
    exact ⟨by rw [he], .inr (c.checks_beginCall w)⟩
  | on _ _ _ hd hp => exact (CallTurn.on hd hp).instant
  | ended _ _ _ hd => exact (CallTurn.ended hd).instant
  | crashed _ _ _ hd => exact (CallTurn.crashed hd).instant

theorem turn_instant (c : Console) (id : TaskId) : Instant c (c.turn id).1 := by
  by_cases hid : id = .ticker
  · subst hid
    exact (tickerTurn_cases c).instant
  · exact (turn_opens hid).instant

theorem act_instant {m : Move} (hm : ∀ time, m ≠ .pass time) : Instant c (c.act m) := by
  by_cases hk : m = .step .ticker
  · subst hk
    have ht := c.turn_instant .ticker
    obtain ⟨ready, he⟩ := c.turn_eq_step .ticker
    rw [act, he]
    exact ⟨ht.now, ht.checks⟩
  · exact (act_opens hk hm).instant

theorem work_instant (c : Console) (id : TaskId) : Instant c (c.work id) := by
  rcases c.work_cases id with ⟨w, request, a, -, -, -, he⟩ | ⟨-, he⟩ <;> rw [he]
  · exact (callTurn_cases c w request a).instant
  · have ht := turn_instant { c with terminated := false } id
    exact ⟨ht.now, ht.checks⟩

theorem display_act {m : Move} (hm : m ≠ .step .printer) :
    (c.act m).display.line = c.display.line ∧ ((c.act m).display.sink = c.display.sink ∨
      .sinkChanged (c.act m).display.sink ∈ (c.act m).events) := by
  cases m with
  | step id =>
    have hid : id ≠ .printer := fun he => hm (by rw [he])
    have hb := turn_beside c hid
    obtain ⟨ready, he⟩ := c.turn_eq_step id
    rw [act, he]
    exact ⟨congrArg Display.line hb.display, .inl (congrArg Display.sink hb.display)⟩
  | kill n =>
    rw [act, kill]
    split <;> exact ⟨rfl, .inl rfl⟩
  | raise s =>
    rw [act, raise]
    split <;> exact ⟨rfl, .inl rfl⟩
  | setSink sink =>
    refine ⟨rfl, .inr ?_⟩
    rw [act, setSink, events_record]
    exact List.mem_append_right _ List.mem_cons_self
  | start k interactive =>
    have hs := (c.supervise_cases k interactive).beside.display
    exact ⟨congrArg Display.line hs, .inl (congrArg Display.sink hs)⟩
  | _ => exact ⟨rfl, .inl rfl⟩

theorem supervision_of_not_isHeld (hh : c.isHeld = false) (hx : c.permits x)
    (hv : c.supervision = none) : (c.stride x).supervision = none := by
  have hnone : c.attempted? x = none := by
    by_contra hn
    obtain ⟨y, ha⟩ := Option.ne_none_iff_exists'.1 hn
    unfold attempted? at ha
    split at ha
    · rw [permits, allows, (isHeld_eq_false.1 hh).1] at hx
      cases hx
    · obtain ⟨⟨id, a⟩, hb, -⟩ := Option.bind_eq_some_iff.1 ha
      have hheld := isHeld_of_busy (busy_of_pursued? hb)
      rw [hh] at hheld
      cases hheld
  have hcharge := (stride_hires hx).charge
  rw [hnone, charge, charge, hv] at hcharge
  exact Option.map_eq_none_iff.1 hcharge

theorem StoryShown.aside (h : StoryShown start files c past rest) (hd : Instant c d)
    (hshown : d.shownJournal = c.shownJournal) (hline : d.display.line = c.display.line)
    (hsink : d.display.sink.budget = none) (hp : d.printer = c.printer)
    (hnever : c.isHeld = false → c.printer = .stopped → c.supervision = none →
      d.isHeld = false ∧ d.supervision = none) : ∃ rest', StoryShown start files d past rest' := by
  rcases hd.checks with hchecks | hchecks
  · refine ⟨rest, hchecks ▸ h.whole, hshown.trans h.shown, hline.trans h.line, hsink,
      hd.now ▸ h.due, h.phase.keep hp hnever⟩
  · refine ⟨rest ++ if goesOn start 0 (c.checks.map Prod.snd) then
      (lines start files c.checks.length c.request).map (c.now, ·) else [], ?_,
      hshown.trans h.shown, hline.trans h.line, hsink, fun x hx => ?_, ?_⟩
    · rw [hchecks, story_concat, h.whole, Nat.zero_add, List.append_assoc]
    · rw [hd.now]
      rcases List.mem_append.1 hx with hx | hx
      · exact h.due x hx
      · split at hx
        · obtain ⟨m, -, rfl⟩ := List.mem_map.1 hx
          rfl
        · cases hx
    · cases h.phase with
      | showing hr hn => exact .showing (hp.trans hr) hn
      | exited hr hn he =>
        -- The copy has ended, so another check adds nothing.
        obtain ⟨x, hx, hcode⟩ := he
        obtain ⟨older, newer, rfl⟩ := List.append_of_mem hx
        have hw := h.whole
        rw [List.append_assoc, List.cons_append] at hw
        refine .exited (hp ▸ hr) ?_ ⟨x, hx, hcode⟩
        rw [hn, (eq_nil_of_story hw hcode).1, if_neg Bool.false_ne_true]
        rfl
      | unused hr hh hv =>
        obtain ⟨hh', hv'⟩ := hnever hh hr hv
        exact .unused (hp.trans hr) hh' hv'

theorem Copies.before (h : Copies start files (c.stride x)) (hx : c.permits x) :
    Copies start files c := by
  intro u hu
  have hcharge := (stride_hires hx).charge
  rw [charge, charge, hu] at hcharge
  obtain ⟨w, hw, hwork⟩ := Option.map_eq_some_iff.1 hcharge
  have hjobs : (c.stride x).jobs = c.jobs := by
    cases x with
    | move m => exact c.jobs_act m
    | work id => exact c.jobs_work id
  rw [← job_congr hjobs hwork]
  exact h w hw

theorem StoryShown.pass (h : StoryShown start files c past rest) (hc : c.Attainable)
    (hu : Undisturbed c) (hj : Copies start files c) {time : Nat} (hk : c.keepsTime (.pass time)) :
    StoryShown start files (c.act (.pass time)) past [] := by
  have hready : c.ready = [] := by
    simp only [keepsTime, Bool.and_eq_true, List.isEmpty_iff] at hk
    exact hk.1
  obtain rfl := h.rest_eq_nil hc hu hj hready
  exact ⟨h.whole, h.shown, h.line, h.sink, List.forall_mem_nil _,
    h.phase.keep rfl fun hh _ hv => ⟨hh, hv⟩⟩

theorem StoryShown.act (h : StoryShown start files c past rest) (hc : c.Attainable)
    (ha : c.allows m) (hk : c.keepsTime m) (hu : Undisturbed (c.act m))
    (hj : Copies start files c) :
    ∃ past' rest', StoryShown start files (c.act m) past' rest' := by
  have hbefore := hu.before (c.act_grows m)
  by_cases hm : m = .step .printer
  · subst hm
    obtain ⟨past', rest', hd⟩ := (printerTurn_cases c).storyShown h hc hbefore hj
    obtain ⟨ready, he⟩ := c.turn_eq_step .printer
    rw [Console.act, he]
    exact ⟨past', rest', hd.whole, hd.shown, hd.line, hd.sink, hd.due,
      hd.phase.keep rfl fun hh _ hv => ⟨hh, hv⟩⟩
  by_cases hp : ∃ time, m = .pass time
  · obtain ⟨time, rfl⟩ := hp
    exact ⟨past, [], h.pass hc hbefore hj hk⟩
  · have hd : (c.act m).Attainable := hc.act m ha
    obtain ⟨new, hjournal, -⟩ := (paces_act ha).journal
    obtain ⟨hline, hsink⟩ := c.display_act hm
    have hshown := shownJournal_of_duties hjournal (c.act_duties m hm) (hu.own hd)
    have hroomy : (c.act m).display.sink.budget = none := by
      rcases hsink with hsink | hsink
      · rw [hsink]
        exact h.sink
      · exact hu.roomy _ hsink
    obtain ⟨rest', hd⟩ := h.aside (act_instant fun time he => hp ⟨time, he⟩) hshown hline hroomy
      (c.act_aside m hm).1 fun hh hr hv =>
        ⟨(act_deserted hh hr ha).1, supervision_of_not_isHeld (x := .move m) hh ha hv⟩
    exact ⟨past, rest', hd⟩

theorem StoryShown.work (h : StoryShown start files c past rest) (hc : c.Attainable)
    (hx : c.permits (.work id)) (hu : Undisturbed (c.work id)) :
    ∃ past' rest', StoryShown start files (c.work id) past' rest' := by
  have hpermits := hx
  simp only [permits, Bool.and_eq_true, decide_eq_true_eq] at hpermits
  obtain ⟨⟨hi, hr⟩, ht⟩ := hpermits
  have hd : (c.work id).Attainable := hc.work hi hr ht
  obtain ⟨new, hjournal, -⟩ := (c.paces_work id).journal
  have hshown := shownJournal_of_duties hjournal (c.work_duties hi) (hu.own hd)
  have hbeside := c.beside_work hi
  obtain ⟨rest', hd⟩ := h.aside (c.work_instant id) hshown
    (congrArg Display.line hbeside.display) (hbeside.display ▸ h.sink) hbeside.printer
    fun hh hp hv => ⟨(work_deserted hh hp id).1, supervision_of_not_isHeld hh hx hv⟩
  exact ⟨past, rest', hd⟩

theorem stride_grows (c : Console) (x : Stride) : c.events <+: (c.stride x).events := by
  cases x with
  | move m => exact c.act_grows m
  | work id => exact c.work_grows id

theorem Timely.storyShown {settings : Settings} {jobs : List Job} {source : Source} {sink : Sink}
    (h₀ : new? settings jobs source sink = some c₀) (hs : sink.budget = none)
    (h : Timely c₀ xs c) (hu : Undisturbed c) (hj : Copies start files c) :
    ∃ past rest, StoryShown start files c past rest := by
  induction h with
  | start =>
    obtain ⟨-, rfl⟩ := new?_eq_some.1 h₀
    exact ⟨[], [], rfl, rfl, rfl, hs, nofun, .showing rfl nofun⟩
  | @next xs c x h hx ht ih =>
    have hc : c.Attainable := h.course.attainable (.new h₀)
    obtain ⟨past, rest, hp⟩ := ih (hu.before (c.stride_grows x)) (hj.before hx)
    cases x with
    | move m => exact hp.act hc hx ht hu (hj.before hx)
    | work id => exact hp.work hc hx hu

end Console

end JobConsole
