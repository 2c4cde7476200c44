import JobConsole.Proofs.Attendance
import JobConsole.Proofs.Calls
import JobConsole.Proofs.Replies
import JobConsole.Proofs.Shutdown

/-!
Coherence: whoever does not run waits for something that is still to come. For room in the mailbox
it stands in line, the message whose effect it waits for is in the mailbox or with the printer, and
the lock of the line reader is with a task that reads.
-/

namespace JobConsole

def AnswersTo (id : TaskId) (m : Message) : Prop :=
  ∀ slot, m.slot? = some slot → slot.asker = id

/-- What a statement that has come as far as its wait can rely on. A task that is to run next is
`here`. -/
inductive Placed (b : Mailbox TaskId) (p : Printer) (t : Bool) (parked : List TaskId) (here : Prop)
    (id : TaskId) : Program → Wait → Prop
  | spent {w : Wait} (h : here) : Placed b p t parked here id [] w
  | fresh {s : Statement} {rest : Program} (h : here) : Placed b p t parked here id (s :: rest) .fresh
  | called {s : Statement} {rest : Program} {m : Message} (hm : AnswersTo id m)
      (hg : id ∈ b.granted ∨ b.closed = true) (h : here) :
      Placed b p t parked here id (s :: rest) (.room m)
  | inLine {s : Statement} {rest : Program} {m : Message} (hm : AnswersTo id m)
      (h : id ∈ b.waiting) : Placed b p t parked here id (s :: rest) (.room m)
  | asking {s : Statement} {rest : Program} {n : Nat} {text : String}
      (h : .prompt text ⟨n, id⟩ ∈ b.items) : Placed b p t parked here id (s :: rest) (.reply n)
  | answering {s : Statement} {rest : Program} {n : Nat} (h : p = .reading ⟨n, id⟩) :
      Placed b p t parked here id (s :: rest) (.reply n)
  | replied {s : Statement} {rest : Program} {line : String} (h : here) :
      Placed b p t parked here id (s :: rest) (.replied line)
  | hungUp {s : Statement} {rest : Program} (hp : p = .leaving ∨ b.closed = true)
      (h : here ∨ t = false ∧ id ∈ parked) : Placed b p t parked here id (s :: rest) .hungUp
  | parked {s : Statement} {rest : Program}
      (hp : s.sends = true →
        (∃ text code, .exit text code ∈ b.items) ∨ p = .leaving ∨ b.closed = true)
      (h : here ∨ t = false ∧ id ∈ parked) : Placed b p t parked here id (s :: rest) .termination
  | alarm {s : Statement} {rest : Program} {deadline : Nat} (hs : s.sends = false) :
      Placed b p t parked here id (s :: rest) (.alarm deadline)
  | hung {s : Statement} {rest : Program} (hs : s.sends = false) :
      Placed b p t parked here id (s :: rest) .forever

structure Coherent (b : Mailbox TaskId) (r : LineReader TaskId) (p : Printer) (t : Bool)
    (parked : List TaskId) (keywordWatch : Bool) (here : TaskId → Prop)
    (standing : TaskId → Standing) : Prop where
  phase : Phase p b t
  balanced : b.Balanced
  granted : ∀ i ∈ b.granted, here i
  inLine : ∀ i ∈ b.granted ++ b.waiting, ∃ s rest k m, standing i = .busy ⟨s :: rest, k, .room m⟩
  placed : ∀ i a, standing i = .busy a → Placed b p t parked (here i) i a.program a.wait
  attended : Attended r p keywordWatch here
  receiving : p = .receiving → here .printer ∨ b.items = []
  leaving : p = .leaving → here .printer
  ticking : t = true → ∀ a, standing .ticker = .busy a → here .ticker

variable {b b' : Mailbox TaskId} {r r' : LineReader TaskId} {p p' : Printer} {t t' : Bool}
  {parked parked' : List TaskId} {kw kw' : Bool} {here here' : TaskId → Prop}
  {st st' : TaskId → Standing} {id : TaskId} {a : Activity} {s : Statement} {rest : Program}
  {m : Message} {i : TaskId}

/-! Nobody runs. -/

theorem Coherent.holds_item (h : Coherent b r p t parked kw (fun _ => False) st) (hi : b.items ≠ [])
    (hp : p ≠ .crashed) : ∃ slot, p = .reading slot := by
  have hshut : ¬b.IsShut := fun hb => hi hb.items
  cases p with
  | receiving => exact absurd (h.receiving rfl) (by simp [hi])
  | reading slot => exact ⟨slot, rfl⟩
  | leaving => exact (h.leaving rfl).elim
  | crashed => exact absurd rfl hp
  | stopped =>
    cases h.phase with
    | running hs => exact absurd rfl hs
    | stopped _ hb => exact absurd hb hshut
    | crashed _ hb => exact absurd hb hshut

theorem Coherent.open_of_not_terminated (h : Coherent b r p t parked kw here st)
    (hp : p ≠ .crashed) (ht : t = false) : b.closed = false := by
  cases h.phase with
  | running _ _ ho => exact ho
  | stopped _ _ hs => rw [ht] at hs; cases hs
  | crashed hc => exact absurd hc hp

/-- Without anybody to use it, no room is granted: the mailbox is full of messages. -/
theorem Coherent.full (h : Coherent b r p t parked kw (fun _ => False) st)
    (hw : id ∈ b.waiting) : b.items.length = b.capacity := by
  have hg : b.granted = [] := List.eq_nil_iff_forall_not_mem.2 h.granted
  have hf := h.balanced.full (List.ne_nil_of_mem hw)
  rwa [hg] at hf

theorem Coherent.room (h : Coherent b r p t parked kw (fun _ => False) st)
    (hb : st id = .busy a) (hw : a.wait = .room m) : b.items.length = b.capacity := by
  have hplaced := h.placed id a hb
  obtain ⟨program, index, wait⟩ := a
  dsimp only at hw
  subst hw
  cases hplaced with
  | spent hh => exact hh.elim
  | called _ _ hh => exact hh.elim
  | inLine _ hw => exact h.full hw

theorem Coherent.waits (h : Coherent b r p t parked kw (fun _ => False) st) (hcap : 0 < b.capacity)
    (hc : p ≠ .crashed) (hb : st id = .busy a) (hp : a.program = s :: rest) (hs : s.sends = true) :
    ∃ slot, p = .reading slot := by
  have hitems {i : TaskId} (hw : i ∈ b.waiting) : b.items ≠ [] := by
    have hf := h.full hw
    intro he
    rw [he, List.length_nil] at hf
    omega
  have hopen (ht : t = false) : b.closed ≠ true := by
    simp [h.open_of_not_terminated hc ht]
  have hplaced := h.placed id a hb
  rw [hp] at hplaced
  generalize a.wait = w at hplaced
  cases hplaced with
  | fresh hh => exact hh.elim
  | called _ _ hh => exact hh.elim
  | inLine _ hw => exact h.holds_item (hitems hw) hc
  | asking hm => exact h.holds_item (List.ne_nil_of_mem hm) hc
  | answering hr => exact ⟨_, hr⟩
  | replied hh => exact hh.elim
  | hungUp hl hh =>
    obtain ⟨ht, -⟩ := hh.resolve_left fun hh => hh
    rcases hl with hl | hl
    · exact (h.leaving hl).elim
    · exact absurd hl (hopen ht)
  | parked hl hh =>
    obtain ⟨ht, -⟩ := hh.resolve_left fun hh => hh
    rcases hl hs with ⟨text, code, hm⟩ | hl | hl
    · exact h.holds_item (List.ne_nil_of_mem hm) hc
    · exact (h.leaving hl).elim
    · exact absurd hl (hopen ht)
  | alarm hn => rw [hs] at hn; cases hn
  | hung hn => rw [hs] at hn; cases hn

theorem Coherent.silent (h : Coherent b r p t parked kw (fun _ => False) st) {slot : ReplySlot}
    (hp : p = .reading slot) : r.Silent := by
  have howner : r.owner ≠ none := by
    intro hn
    rcases (h.attended.reading slot hp).resolve_left fun hh => hh with ho | hw
    · rw [hn] at ho
      cases ho
    · rw [h.attended.fair.taken hn] at hw
      cases hw
  obtain ⟨i, ho⟩ := Option.ne_none_iff_exists'.1 howner
  exact (h.attended.stalled i ho).resolve_left fun hh => hh

/-! What others do. -/

theorem Placed.mono {x x' : Prop} {prog : Program} {w : Wait}
    (h : Placed b p t parked x id prog w) (hx : x → x')
    (hcall : id ∈ b.granted ∨ b.closed = true → id ∈ b'.granted ∨ b'.closed = true)
    (hline : id ∈ b.waiting → id ∈ b'.waiting ∨ x' ∧ (id ∈ b'.granted ∨ b'.closed = true))
    (hask : ∀ text n, w = .reply n → .prompt text ⟨n, id⟩ ∈ b.items →
      .prompt text ⟨n, id⟩ ∈ b'.items ∨ p' = .reading ⟨n, id⟩)
    (hread : ∀ n, w = .reply n → p = .reading ⟨n, id⟩ → p' = .reading ⟨n, id⟩)
    (hexit : ∀ text code, .exit text code ∈ b.items →
      .exit text code ∈ b'.items ∨ p' = .leaving ∨ b'.closed = true)
    (hleave : p = .leaving ∨ b.closed = true → p' = .leaving ∨ b'.closed = true)
    (hpark : t = false ∧ id ∈ parked → x' ∨ t' = false ∧ id ∈ parked') :
    Placed b' p' t' parked' x' id prog w := by
  cases h with
  | spent h => exact .spent (hx h)
  | fresh h => exact .fresh (hx h)
  | called hm hg h => exact .called hm (hcall hg) (hx h)
  | inLine hm h =>
    rcases hline h with hw | ⟨hh, hg⟩
    · exact .inLine hm hw
    · exact .called hm hg hh
  | asking h =>
    rcases hask _ _ rfl h with hm | hp
    · exact .asking hm
    · exact .answering hp
  | answering h => exact .answering (hread _ rfl h)
  | replied h => exact .replied (hx h)
  | hungUp hp h => exact .hungUp (hleave hp) (h.elim (fun hh => .inl (hx hh)) hpark)
  | parked hp h =>
    refine .parked (fun hs => ?_) (h.elim (fun hh => .inl (hx hh)) hpark)
    rcases hp hs with ⟨text, code, hm⟩ | hl
    · exact (hexit text code hm).imp_left fun hm => ⟨text, code, hm⟩
    · exact .inr (hleave hl)
  | alarm hs => exact .alarm hs
  | hung hs => exact .hung hs

theorem Placed.enter {x x' : Prop} {prog : Program} {w : Wait}
    (h : Placed b p t parked x id prog w) (hx : x → x') : Placed b p t parked x' id prog w :=
  h.mono hx (fun h => h) .inl (fun _ _ _ h => .inl h) (fun _ _ h => h) (fun _ _ h => .inl h)
    (fun h => h) .inr

theorem Placed.anew {x : Prop} (prog : Program) (h : x) : Placed b p t parked x id prog .fresh := by
  cases prog with
  | nil => exact .spent h
  | cons s rest => exact .fresh h

theorem Coherent.attend (h : Coherent b r p t parked kw here st) (ha : Attended r' p kw' here')
    (hh : ∀ i a, st i = .busy a → here i → here' i)
    (hr : p = .receiving → here .printer → here' .printer ∨ b.items = [])
    (hl : p = .leaving → here .printer → here' .printer) :
    Coherent b r' p t parked kw' here' st := by
  constructor
  case phase => exact h.phase
  case balanced => exact h.balanced
  case granted =>
    intro i hi
    obtain ⟨s, rest, k, m, hs⟩ := h.inLine i (List.mem_append_left _ hi)
    exact hh i _ hs (h.granted i hi)
  case inLine => exact h.inLine
  case placed =>
    intro i a hi
    exact (h.placed i a hi).mono (hh i a hi) (fun hg => hg) .inl (fun _ _ _ hm => .inl hm)
      (fun _ _ hp => hp) (fun _ _ hm => .inl hm) (fun hl => hl) .inr
  case attended => exact ha
  case receiving => exact fun hp => (h.receiving hp).elim (hr hp) .inr
  case leaving => exact fun hp => hl hp (h.leaving hp)
  case ticking => exact fun ht a hs => hh _ a hs (h.ticking ht a hs)

/-! What the printer does. -/

theorem Coherent.take {x : Mailbox.Taken TaskId} (h : Coherent b r p t parked kw here st)
    (hp : p = .receiving) (hx : b.take? = some x)
    (hs : p' ≠ .stopped) (hc : p' ≠ .crashed)
    (hslot : ∀ slot, x.message.slot? = some slot → p' = .reading slot)
    (hcode : ∀ code, x.message.code? = some code → p' = .leaving)
    (hwoken : ∀ i, x.woken = some i → here' i) (hhere : ∀ i, here i → here' i)
    (hprinter : here' .printer) : Coherent x.mailbox r p' t parked kw here' st := by
  obtain ⟨ho, ht⟩ := h.phase.open (by simp [hp]) (by simp [hp])
  obtain ⟨hitems, hclosed⟩ := Mailbox.items_of_take? hx
  -- The room that the message leaves goes to the first in line, who is woken.
  have hgrant (i : TaskId) : (i ∈ x.mailbox.granted ↔ i ∈ b.granted ∨ x.woken = some i) ∧
      (i ∈ b.waiting ↔ i ∈ x.mailbox.waiting ∨ x.woken = some i) := by
    obtain ⟨rest, -, hm, hw⟩ := Mailbox.take?_eq_some hx
    rw [hm, hw]
    exact ({ b with items := rest } : Mailbox TaskId).mem_grant i
  constructor
  case phase => exact .running hs hc (hclosed.trans ho) ht
  case balanced => exact h.balanced.take? hx
  case granted => exact fun i hi => ((hgrant i).1.1 hi).elim (fun hi => hhere i (h.granted i hi)) (hwoken i)
  case inLine =>
    intro i hi
    refine h.inLine i (List.mem_append.2 ?_)
    rcases List.mem_append.1 hi with hi | hi
    · exact ((hgrant i).1.1 hi).imp_right fun hw => (hgrant i).2.2 (.inr hw)
    · exact .inr ((hgrant i).2.2 (.inl hi))
  case placed =>
    intro i a hi
    refine (h.placed i a hi).mono (hhere i) ?_ ?_ ?_ ?_ ?_ ?_ .inr
    · exact fun hg => hg.imp (fun hg => (hgrant i).1.2 (.inl hg)) fun hc => hclosed.trans hc
    · refine fun hw => ((hgrant i).2.1 hw).imp_right fun hw => ⟨hwoken i hw, .inl ?_⟩
      exact (hgrant i).1.2 (.inr hw)
    · intro text n _ hm
      rw [hitems] at hm
      rcases List.mem_cons.1 hm with hm | hm
      · exact .inr (hslot _ (by rw [← hm]; rfl))
      · exact .inl hm
    · intro n _ hr
      rw [hp] at hr
      cases hr
    · intro text code hm
      rw [hitems] at hm
      rcases List.mem_cons.1 hm with hm | hm
      · exact .inr (.inl (hcode code (by rw [← hm]; rfl)))
      · exact .inl hm
    · simp [hp, ho]
  case attended =>
    exact h.attended.turnTo (by simp [hp]) (fun _ _ => hprinter) (hhere .keywordWatch)
  case receiving => exact fun _ => .inl hprinter
  case leaving => exact fun _ => hprinter
  case ticking => simp [ht]

theorem Coherent.reply {slot : ReplySlot} {w : Wait} (h : Coherent b r p t parked kw here st)
    (hp : p = .reading slot) (ha : Attended r' p' kw here')
    (hp' : p' ≠ .stopped) (hc : p' ≠ .crashed) (ht : Tells [slot] w here' st st')
    (hw : ∀ i s rest, here' i → Placed b p' t parked (here' i) i (s :: rest) w)
    (hhere : ∀ i, here i → here' i) (hprinter : here' .printer) :
    Coherent b r' p' t parked kw here' st' := by
  obtain ⟨ho, hterm⟩ := h.phase.open (by simp [hp]) (by simp [hp])
  constructor
  case phase => exact .running hp' hc ho hterm
  case balanced => exact h.balanced
  case granted => exact fun i hi => hhere i (h.granted i hi)
  case inLine =>
    intro i hi
    obtain ⟨s, rest, k, m, hs⟩ := h.inLine i hi
    exact ⟨s, rest, k, m, ht.kept i _ hs nofun⟩
  case placed =>
    intro i a hi
    rcases ht.told i a hi with ⟨hs, hn⟩ | ⟨a, n, -, -, rfl, hh⟩
    · refine (h.placed i a hs).mono (hhere i) (fun hg => hg) .inl (fun _ _ _ hm => .inl hm) ?_
        (fun _ _ hm => .inl hm) (by simp [hp, ho]) .inr
      intro n hr hq
      rw [hp] at hq
      cases hq
      exact absurd hr (hn _ (List.mem_singleton_self _) rfl)
    · dsimp only
      cases a.program with
      | nil => exact .spent hh
      | cons s rest => exact hw i s rest hh
  case attended => exact ha
  case receiving => exact fun _ => .inl hprinter
  case leaving => exact fun _ => hprinter
  case ticking => simp [hterm]

theorem Coherent.stop (h : Coherent b r p t parked kw here st) (hp : ∀ slot, p ≠ .reading slot)
    (ht : Tells (b.items.filterMap Message.slot?) .hungUp here' st st')
    (hh : ∀ i a, st i = .busy a → here i → here' i)
    (hk : here .keywordWatch → here' .keywordWatch)
    (hw : ∀ i a, st i = .busy a → i ∈ b.waiting ∨ i ∈ parked → here' i) (hticker : here' .ticker) :
    Coherent b.close.drain r .stopped true [] kw here' st' := by
  have hshut := b.isShut_close_drain
  constructor
  case phase => exact .stopped rfl hshut rfl
  case balanced => exact h.balanced.close.drain rfl
  case granted => simp [hshut.granted]
  case inLine => simp [hshut.granted, hshut.waiting]
  case placed =>
    intro i a hi
    -- A task that was not hung up on did not wait for the answer to a message in the mailbox.
    rcases ht.told i a hi with ⟨hs, hn⟩ | ⟨a, n, -, -, rfl, hx⟩
    · refine (h.placed i a hs).mono (hh i a hs) (fun _ => .inr hshut.closed)
        (fun hx => .inr ⟨hw i a hs (.inl hx), .inr hshut.closed⟩) ?_
        (fun _ _ hr => absurd hr (hp _))
        (fun _ _ _ => .inr (.inr hshut.closed)) (fun _ => .inr hshut.closed)
        (fun hx => .inl (hw i a hs (.inr hx.2)))
      intro text n hr hm
      exact absurd hr (hn _ (List.mem_filterMap.2 ⟨_, hm, rfl⟩) rfl)
    · dsimp only
      cases a.program with
      | nil => exact .spent hx
      | cons s rest => exact .hungUp (.inr hshut.closed) (.inl hx)
  case attended => exact h.attended.turnTo hp nofun hk
  case receiving => exact nofun
  case leaving => exact nofun
  case ticking => exact fun _ _ _ => hticker

end JobConsole
