import JobConsole.Proofs.Standing

namespace JobConsole

/-- Those who wait for the reply in one of the slots get on, each with the same wait. -/
structure Tells (slots : List ReplySlot) (w : Wait) (here : TaskId → Prop)
    (st st' : TaskId → Standing) : Prop where
  kept : ∀ j a, st j = .busy a → (∀ n, a.wait ≠ .reply n) → st' j = .busy a
  told : ∀ j b, st' j = .busy b →
    (st j = .busy b ∧ ∀ slot ∈ slots, slot.asker = j → b.wait ≠ .reply slot.number) ∨
      ∃ a n, st j = .busy a ∧ a.wait = .reply n ∧ b = { a with wait := w } ∧ here j

variable {slots slots' : List ReplySlot} {w : Wait} {here here' : TaskId → Prop}
  {st st' st'' : TaskId → Standing}

theorem Tells.trans (h : Tells slots w here st st') (g : Tells slots' w here' st' st'')
    (hh : ∀ i, here i → here' i) (hw : ∀ n, w ≠ .reply n) :
    Tells (slots ++ slots') w here' st st'' := by
  constructor
  · exact fun j a ha hr => g.kept j a (h.kept j a ha hr) hr
  · intro j b hb
    rcases g.told j b hb with ⟨hb, hs'⟩ | ⟨a, n, ha, hr, rfl, hj⟩
    · rcases h.told j b hb with ⟨hb, hs⟩ | ⟨a, n, ha, hr, he, hj⟩
      · exact .inl ⟨hb, fun slot hm => (List.mem_append.1 hm).elim (hs slot) (hs' slot)⟩
      · exact .inr ⟨a, n, ha, hr, he, hh j hj⟩
    · rcases h.told j a ha with ⟨ha, -⟩ | ⟨a', -, -, -, rfl, -⟩
      · exact .inr ⟨a, n, ha, hr, rfl, hj⟩
      · exact absurd hr (hw n)

namespace Console

variable {c : Console} {i : TaskId} {a : Activity}

theorem expects_eq_false {slot : ReplySlot} (h : c.expects slot = false)
    (ha : c.activity? slot.asker = some a) : a.wait ≠ .reply slot.number := by
  intro hw
  simp [expects, ha, hw, Wait.isReply] at h

theorem tells_unexpected {slot : ReplySlot} (h : c.expects slot = false) :
    Tells [slot] w here c.standing c.standing := by
  refine ⟨fun j a ha _ => ha, fun j b hb => .inl ⟨hb, fun s hs he => ?_⟩⟩
  rw [List.mem_singleton] at hs
  subst hs he
  exact expects_eq_false h (activity?_of_standing hb)

theorem tells_setActivity {slot : ReplySlot} (ha : c.activity? slot.asker = some a)
    (hw : a.wait = .reply slot.number) (hh : here slot.asker) :
    Tells [slot] w here c.standing (c.setActivity slot.asker { a with wait := w }).standing := by
  rcases standing_of_activity? ha with hi | ⟨ht, hs⟩
  · constructor
    · intro j b hb hr
      rw [standing_setActivity hi]
      split
      · rename_i hj
        rw [hj, hi] at hb
        cases hb
        exact absurd hw (hr _)
      · exact hb
    · intro j b hb
      rw [standing_setActivity hi] at hb
      split at hb
      · rename_i hj
        cases hb
        exact .inr ⟨a, slot.number, hj ▸ hi, hw, rfl, hj ▸ hh⟩
      · rename_i hj
        refine .inl ⟨hb, fun s hs he => ?_⟩
        rw [List.mem_singleton.1 hs] at he
        exact absurd he.symm hj
  · have he : (c.setActivity slot.asker { a with wait := w }).standing = c.standing := by
      rw [ht]
      exact funext (standing_setActivity_unsupervised hs _)
    rw [he]
    refine ⟨fun j a ha _ => ha, fun j b hb => .inl ⟨hb, fun s hm he => ?_⟩⟩
    rw [List.mem_singleton.1 hm, ht] at he
    subst he
    exact absurd (standing_ticker.1 hb).1 (by simp [hs])

theorem mem_hangUp (c : Console) (slot : ReplySlot) (h : i ∈ c.ready) :
    i ∈ (c.hangUp slot).ready := by
  rcases c.hangUp_cases slot with ⟨-, he⟩ | ⟨a, -, -, he⟩ <;> rw [he]
  · exact h
  · obtain ⟨producers, ticker, hs⟩ := c.setActivity_eq slot.asker { a with wait := .hungUp }
    rw [hs]
    exact mem_enlist.2 (.inl h)

theorem mem_answer (c : Console) (slot : ReplySlot) (line : String) (h : i ∈ c.ready) :
    i ∈ (c.answer slot line).ready := by
  rcases c.answer_cases slot line with ⟨-, he⟩ | ⟨a, -, -, he⟩ <;> rw [he]
  · exact h
  · obtain ⟨producers, ticker, hs⟩ := c.setActivity_eq slot.asker { a with wait := .replied line }
    rw [hs]
    exact mem_enlist.2 (.inl h)

theorem tells_hangUp (c : Console) (slot : ReplySlot) :
    Tells [slot] .hungUp (· ∈ (c.hangUp slot).ready) c.standing (c.hangUp slot).standing := by
  rcases c.hangUp_cases slot with ⟨hs, he⟩ | ⟨a, ha, hw, he⟩ <;> rw [he]
  · exact tells_unexpected hs
  · exact tells_setActivity ha hw (mem_enlist.2 (.inr rfl))

theorem tells_answer (c : Console) (slot : ReplySlot) (line : String) :
    Tells [slot] (.replied line) (· ∈ (c.answer slot line).ready) c.standing
      (c.answer slot line).standing := by
  rcases c.answer_cases slot line with ⟨hs, he⟩ | ⟨a, ha, hw, he⟩ <;> rw [he]
  · exact tells_unexpected hs
  · exact tells_setActivity ha hw (mem_enlist.2 (.inr rfl))

theorem standing_told {slot : ReplySlot} (ha : c.activity? slot.asker = some a) (w : Wait)
    (hi : i ≠ slot.asker ∨ c.standing i = .gone) :
    (c.setActivity slot.asker { a with wait := w }).standing i = c.standing i := by
  rcases standing_of_activity? ha with hb | ⟨ht, hs⟩
  · rw [standing_setActivity hb]
    split
    · rename_i he
      rw [he, hb] at hi
      rcases hi with hi | hi
      · exact absurd rfl hi
      · cases hi
    · rfl
  · rw [ht]
    exact standing_setActivity_unsupervised hs _ i

theorem standing_hangUp (c : Console) {slot : ReplySlot}
    (hi : i ≠ slot.asker ∨ c.standing i = .gone) :
    (c.hangUp slot).standing i = c.standing i := by
  rcases c.hangUp_cases slot with ⟨-, he⟩ | ⟨a, ha, -, he⟩ <;> rw [he]
  exact standing_told ha .hungUp hi

theorem standing_answer (c : Console) {slot : ReplySlot} (line : String)
    (hi : i ≠ slot.asker ∨ c.standing i = .gone) :
    (c.answer slot line).standing i = c.standing i := by
  rcases c.answer_cases slot line with ⟨-, he⟩ | ⟨a, ha, -, he⟩ <;> rw [he]
  · rfl
  · exact standing_told ha (.replied line) hi

theorem tells_discardAll (ms : List Message) : ∀ c : Console,
    (∀ i ∈ c.ready, i ∈ (ms.foldl (fun c m => (c.record (.discarded m)).hangUpOn m) c).ready) ∧
      Tells (ms.filterMap Message.slot?) .hungUp
        (· ∈ (ms.foldl (fun c m => (c.record (.discarded m)).hangUpOn m) c).ready) c.standing
        (ms.foldl (fun c m => (c.record (.discarded m)).hangUpOn m) c).standing := by
  induction ms with
  | nil => exact fun c => ⟨fun _ h => h, fun _ _ h _ => h, fun _ _ h => .inl ⟨h, nofun⟩⟩
  | cons m ms ih =>
    intro c
    rw [List.foldl_cons]
    cases m with
    | prompt text slot =>
      obtain ⟨hr, ht⟩ := ih (((c.record (.discarded (.prompt text slot)))).hangUp slot)
      refine ⟨fun i hi => hr i (mem_hangUp _ slot hi), ?_⟩
      exact (tells_hangUp (c.record (.discarded (.prompt text slot))) slot).trans ht hr nofun
    | progress text => exact ih (c.record (.discarded (.progress text)))
    | info text => exact ih (c.record (.discarded (.info text)))
    | exit text code => exact ih (c.record (.discarded (.exit text code)))

end Console

end JobConsole
