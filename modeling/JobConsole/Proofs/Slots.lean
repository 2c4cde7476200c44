import JobConsole.Proofs.Speech

/-!
Slots: no two prompts of a task have the same reply slot. The number of a slot is drawn when its
statement begins, which may be long before the prompt is accepted.
-/

namespace JobConsole.Console

variable {c d e : Console} {id : TaskId} {a b : Activity} {s : Statement} {rest : Program}
  {w : Wait} {stage : Stage} {m : Message} {slot : ReplySlot}

def prompts (c : Console) : List ReplySlot :=
  c.accepted.filterMap Message.slot?

/-- A slot that a task can use for its next prompt. -/
structure Spare (c : Console) (n : Nat) (id : TaskId) (slot : ReplySlot) : Prop where
  asker : slot.asker = id
  drawn : slot.number < n
  unused : ∀ x ∈ c.prompts, x.asker = id → x.number < slot.number

structure Numbered (c : Console) : Prop where
  drawn : ∀ x ∈ c.prompts, x.number < c.slots
  increasing : c.prompts.Pairwise fun x y => x.asker = y.asker → x.number < y.number
  inLine : ∀ id a m slot, c.standing id = .busy a → a.wait = .room m → m.slot? = some slot →
    Spare c c.slots id slot

theorem Numbered.nodup (h : Numbered c) : c.prompts.Nodup := by
  refine h.increasing.imp fun {x y} hxy he => ?_
  have hlt := hxy (by rw [he])
  rw [he] at hlt
  exact Nat.lt_irrefl _ hlt

theorem slot_of_message? (hm : s.message? slot = some m) {slot' : ReplySlot}
    (hs : m.slot? = some slot') : slot' = slot := by
  cases s <;> simp only [Statement.message?, Option.some.injEq, reduceCtorEq] at hm <;> subst hm <;>
    simp_all [Message.slot?]

/-! A small step of a statement. -/

theorem prompts_congr (h : d.posted = c.posted) : d.prompts = c.prompts := by
  rw [prompts, accepted_eq, h, ← accepted_eq, prompts]

theorem prompts_append (h : d.posted = c.posted ++ [(id, m)]) :
    d.prompts = c.prompts ++ m.slot?.toList := by
  rw [prompts, accepted_eq, h, List.map_append, ← accepted_eq, List.filterMap_append, prompts]
  cases hm : m.slot? <;> simp [hm]

theorem posted_accepted (c : Console) (id : TaskId) (m : Message) (slots : Nat)
    (mailbox : Mailbox TaskId) :
    (Console.record { c with slots, mailbox } (.accepted id m)).posted = c.posted ++ [(id, m)] := by
  rw [posted, events_record, List.filterMap_append]
  rfl

theorem Deed.posted_cases (h : Deed c id s w d stage) : d.posted = c.posted ∨
    ∃ m, c.sending? id s w = some m ∧ d.posted = c.posted ++ [(id, m)] ∧
      stage = afterSend true m := by
  cases h with
  | @accept m slots mailbox hm => exact .inr ⟨m, hm, c.posted_accepted id m slots mailbox, rfl⟩
  | @refuse m slots =>
    have ha : Adds (fun e => e.posted?.isNone) c (Console.record { c with slots } (.refused id m)) :=
      .record (.same rfl) rfl
    exact .inl (ha.record (x := .logged (.dropped m.kind)) rfl).posted
  | park =>
    unfold Console.park
    split <;> exact .inl rfl
  | @supervise k interactive => exact .inl (c.supervise_cases k interactive).posted_eq
  | _ => exact .inl rfl

theorem Deed.room (h : Deed c id s w d stage)
    (hs : stage = .blocked (.room m) ∨ stage = .moving (.room m)) :
    c.sending? id s w = some m := by
  cases h with
  | still h =>
    cases h with
    | unserved =>
      rcases hs with hs | hs <;> cases hs
      rfl
    | _ => rcases hs with hs | hs <;> cases hs
  | @accept m' | @refuse m' => cases m' <;> rcases hs with hs | hs <;> cases hs
  | join _ hm =>
    rcases hs with hs | hs <;> cases hs
    exact hm
  | park hw => rcases hw with rfl | rfl <;> rcases hs with hs | hs <;> cases hs
  | _ => rcases hs with hs | hs <;> cases hs

theorem Numbered.spare (h : Numbered c) (ha : c.standing id = .busy a) {n : Nat}
    (hn : n = c.slots + (c.slotFor id s a.wait).toList.length)
    (hm : c.sending? id s a.wait = some m) (hs : m.slot? = some slot) : Spare c n id slot := by
  cases hw : a.wait with
  | fresh =>
    rw [hw] at hm hn
    have hslot : slot = ⟨c.slots, id⟩ := slot_of_message? hm hs
    have hfor : c.slotFor id s .fresh = some slot := by
      change (s.message? ⟨c.slots, id⟩).bind Message.slot? = some slot
      rw [show s.message? ⟨c.slots, id⟩ = some m from hm]
      exact hs
    rw [hfor] at hn
    subst hslot
    exact ⟨rfl, by simp [hn], fun x hx _ => h.drawn x hx⟩
  | room m' =>
    rw [hw] at hm hn
    cases hm
    obtain ⟨hid, hlt, hun⟩ := h.inLine id a m slot ha hw hs
    exact ⟨hid, by omega, hun⟩
  | _ => rw [hw] at hm; cases hm

theorem Numbered.deed (h : Numbered c) (ha : c.standing id = .busy a)
    (he : c.perform id s a.wait = (e, stage)) (hr : Resumes a s rest stage b)
    (hs : d.slots = e.slots) (hm : d.posted = e.posted)
    (hd : ∀ j, d.standing j = if j = id then .busy b else e.standing j) : Numbered d := by
  have hdeed := deed_of_perform he
  have hslots : d.slots = c.slots + (c.slotFor id s a.wait).toList.length := by
    rw [hs, ← c.slots_perform id s a.wait, he]
  have hspare {m : Message} {slot : ReplySlot} (hm : c.sending? id s a.wait = some m)
      (hs : m.slot? = some slot) : Spare c d.slots id slot :=
    h.spare ha hslots hm hs
  -- All that is new is the slot of the message that is accepted, if it is a prompt.
  have hnew : ∃ new : List ReplySlot, d.prompts = c.prompts ++ new ∧ new.length ≤ 1 ∧
      ∀ x ∈ new, Spare c d.slots id x ∧ ∀ m, b.wait ≠ .room m := by
    rcases hdeed.posted_cases with heq | ⟨m, hsend, heq, rfl⟩
    · exact ⟨[], by rw [prompts_congr (hm.trans heq), List.append_nil], Nat.zero_le _, nofun⟩
    · refine ⟨m.slot?.toList, prompts_append (hm.trans heq), by cases m.slot? <;> simp,
        fun x hx => ?_⟩
      rw [Option.mem_toList] at hx
      refine ⟨hspare hsend hx, fun m' hw => ?_⟩
      cases m with
      | prompt text slot =>
        cases hr
        cases hw
      | _ => cases hx
  obtain ⟨new, hprompts, hlen, hown⟩ := hnew
  constructor
  case drawn =>
    rw [hprompts]
    intro x hx
    rcases List.mem_append.1 hx with hx | hx
    · have := h.drawn x hx
      omega
    · exact (hown x hx).1.drawn
  case increasing =>
    rw [hprompts]
    refine List.pairwise_append.2 ⟨h.increasing, ?_, fun x hx y hy hxy => ?_⟩
    · rcases new with _ | ⟨x, _ | ⟨y, new⟩⟩
      · exact .nil
      · exact List.pairwise_singleton _ _
      · simp at hlen
    · obtain ⟨hasker, -, hun⟩ := (hown y hy).1
      exact hun x hx (hxy.trans hasker)
  case inLine =>
    intro j a' m slot hj hw hslot
    rw [hd] at hj
    by_cases hid : j = id
    · rw [if_pos hid] at hj
      cases hj
      have hstage : stage = .blocked (.room m) ∨ stage = .moving (.room m) := by
        cases hr with
        | blocked w => exact .inl (by rw [show w = .room m from hw])
        | moving w => exact .inr (by rw [show w = .room m from hw])
        | followed => cases hw
        | finished => cases hw
      obtain ⟨hasker, hlt, hun⟩ := hspare (hdeed.room hstage) hslot
      refine ⟨hasker.trans hid.symm, hlt, fun x hx hxj => ?_⟩
      rw [hprompts] at hx
      rcases List.mem_append.1 hx with hx | hx
      · exact hun x hx (hxj.trans hid)
      · exact absurd hw ((hown x hx).2 m)
    · rw [if_neg hid] at hj
      obtain ⟨hasker, hlt, hun⟩ := h.inLine j a' m slot (hdeed.busy_of hj) hw hslot
      refine ⟨hasker, by omega, fun x hx hxj => ?_⟩
      rw [hprompts] at hx
      rcases List.mem_append.1 hx with hx | hx
      · exact hun x hx hxj
      · exact absurd (hxj.symm.trans (hown x hx).1.asker) hid

/-! All moves. -/

theorem Numbered.mute (h : Numbered c) (hs : d.slots = c.slots) (hm : d.posted = c.posted)
    (hd : ∀ j a m, d.standing j = .busy a → a.wait = .room m → c.standing j = .busy a) :
    Numbered d := by
  have hp := prompts_congr hm
  refine ⟨by rw [hp, hs]; exact h.drawn, by rw [hp]; exact h.increasing, fun j a m slot hj hw hx => ?_⟩
  obtain ⟨hasker, hlt, hun⟩ := h.inLine j a m slot (hd j a m hj hw) hw hx
  exact ⟨hasker, by rwa [hs], by rwa [hp]⟩

theorem Numbered.speaks (h : Numbered c) (hd : Speaks c d id) : Numbered d := by
  cases hd with
  | mute g =>
    refine h.mute g.slots g.posted fun j a m hj hw => (g.standing j a hj).resolve_right fun hf => ?_
    rw [hw] at hf
    cases hf
  | deed ha _ he hr hs hm hd => exact h.deed ha he hr hs hm hd

theorem PrinterTurn.posted_eq {more : Bool} (h : PrinterTurn c d more) : d.posted = c.posted := by
  refine (h.adds.mono fun e he => ?_).posted
  cases e <;> first | rfl | cases he

theorem Numbered.printer {more : Bool} (h : Numbered c) (hd : PrinterTurn c d more) :
    Numbered d := by
  refine h.mute ?_ hd.posted_eq fun j a m hj hw => ?_
  · obtain ⟨_, _, _, _, _, _, _, _, _, _, he⟩ := hd.frame
    rw [he]
  · have ht := hd.leaves j
    rw [hj] at ht
    generalize c.standing j = x at ht ⊢
    cases ht with
    | same => rfl
    | _ => cases hw

theorem Attainable.numbered (h : c.Attainable) : Numbered c := by
  apply h.invariant (P := Numbered)
  · intro settings jobs source sink c₀ h₀
    obtain ⟨-, rfl⟩ := new?_eq_some.1 h₀
    refine ⟨nofun, .nil, fun j a m slot hj => ?_⟩
    cases j <;> cases hj
  · intro c m _ _ hc
    by_cases hm : m = .step .printer
    · subst hm
      obtain ⟨ready, he⟩ := c.turn_eq_step .printer
      rw [Console.act, he]
      exact (hc.printer (printerTurn_cases c)).mute rfl rfl fun _ _ _ hj _ => hj
    · obtain ⟨id, hd⟩ := c.act_speaks m hm
      exact hc.speaks hd
  · exact fun c id _ hi _ _ hc => hc.speaks (c.work_speaks hi)

end JobConsole.Console
