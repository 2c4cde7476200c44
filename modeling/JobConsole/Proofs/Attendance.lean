import JobConsole.Console.State
import JobConsole.Proofs.Reader

/-!
Attendance: the lock of the line reader is with a task that reads, and a task that holds the lock
and does not run has nothing to read.
-/

namespace JobConsole

/-- The tasks that may hold the lock of the line reader, or stand in line for it. -/
def Reads (p : Printer) (keywordWatch : Bool) : TaskId → Prop
  | .printer => ∃ slot, p = .reading slot
  | .keywordWatch => keywordWatch = true
  | _ => False

structure Attended (r : LineReader TaskId) (p : Printer) (keywordWatch : Bool)
    (here : TaskId → Prop) : Prop where
  fair : r.Fair
  readers : ∀ i, r.owner = some i ∨ i ∈ r.waiting → Reads p keywordWatch i
  stalled : ∀ i, r.owner = some i → here i ∨ r.Silent
  reading : ∀ slot, p = .reading slot →
    here .printer ∨ r.owner = some .printer ∨ .printer ∈ r.waiting

variable {r r' : LineReader TaskId} {p p' : Printer} {kw kw' : Bool} {here here' : TaskId → Prop}
  {i : TaskId}

theorem Attended.mono (h : Attended r p kw here) (hk : kw = true → kw' = true)
    (hh : ∀ i, Reads p kw i → here i → here' i) : Attended r p kw' here' := by
  constructor
  case fair => exact h.fair
  case readers =>
    intro i hi
    have hr := h.readers i hi
    cases i with
    | keywordWatch => exact hk hr
    | _ => exact hr
  case stalled => exact fun i ho => (h.stalled i ho).imp_left (hh i (h.readers i (.inl ho)))
  case reading => exact fun slot hp => (h.reading slot hp).imp_left (hh .printer ⟨slot, hp⟩)

theorem Attended.turnTo (h : Attended r p kw here) (hp : ∀ slot, p ≠ .reading slot)
    (hp' : ∀ slot, p' = .reading slot → here' .printer)
    (hh : here .keywordWatch → here' .keywordWatch) : Attended r p' kw here' := by
  -- Only the keyword watch can be in the line while the printer does not read.
  have hwatch {i : TaskId} (hi : r.owner = some i ∨ i ∈ r.waiting) :
      i = .keywordWatch ∧ kw = true := by
    have hr := h.readers i hi
    cases i with
    | printer =>
      obtain ⟨slot, hs⟩ := hr
      exact absurd hs (hp slot)
    | keywordWatch => exact ⟨rfl, hr⟩
    | _ => exact hr.elim
  constructor
  case fair => exact h.fair
  case readers =>
    intro i hi
    obtain ⟨rfl, hk⟩ := hwatch hi
    exact hk
  case stalled =>
    intro i ho
    obtain ⟨rfl, -⟩ := hwatch (.inl ho)
    exact (h.stalled _ ho).imp_left hh
  case reading => exact fun slot hs => .inl (hp' slot hs)

theorem Attended.feed (h : Attended r p kw here) (ho : r'.owner = r.owner)
    (hw : r'.waiting = r.waiting) (hn : ∀ i, r.owner = some i → here' i)
    (hh : here .printer → here' .printer) : Attended r' p kw here' := by
  constructor
  case fair => exact ⟨by rw [ho, hw]; exact h.fair.distinct, by rw [ho, hw]; exact h.fair.taken⟩
  case readers =>
    rw [ho, hw]
    exact h.readers
  case stalled =>
    rw [ho]
    exact fun i hi => .inl (hn i hi)
  case reading =>
    rw [ho, hw]
    exact fun slot hp => (h.reading slot hp).imp_left hh

theorem Attended.pend (h : Attended r p kw here) (hi : Reads p kw i)
    (hr : (r.resume i).result = none) (hh : ∀ j, j ≠ i → here j → here' j) :
    Attended (r.resume i).reader p kw here' := by
  have hf := h.fair.resume i
  have hc := LineReader.resume_resumption r i
  generalize r.resume i = q at hr hf hc ⊢
  cases hc with
  | @stalled r' ho hs ho' hw =>
    refine ⟨hf, fun j hj => ?_, fun _ _ => .inr hs, fun slot hp => ?_⟩
    · dsimp only at hj
      rw [ho', hw] at hj
      rcases hj with hj | hj
      · cases hj
        exact hi
      · exact h.readers j (.inr hj)
    · dsimp only
      rw [ho', hw]
      by_cases he : i = .printer
      · exact .inr (.inl (by rw [he]))
      · rcases h.reading slot hp with hp | hp | hp
        · exact .inl (hh _ (Ne.symm he) hp)
        · rcases ho with ho | ho <;> rw [ho] at hp <;> cases hp
          exact absurd rfl he
        · exact .inr (.inr hp)
  | done => cases hr
  | inLine ho hj hw =>
    refine ⟨hf, h.readers, fun k hk => (h.stalled k hk).imp_left (hh k ?_), fun slot hp => ?_⟩
    · rintro rfl
      dsimp only at hk
      rw [ho] at hk
      cases hk
      exact hj rfl
    · by_cases he : i = .printer
      · exact .inr (.inr (he ▸ hw))
      · exact (h.reading slot hp).imp_left (hh _ (Ne.symm he))
  | join ho hj hw =>
    refine ⟨hf, fun k hk => ?_, fun k hk => (h.stalled k hk).imp_left (hh k ?_), fun slot hp => ?_⟩
    · rcases hk with hk | hk
      · exact h.readers k (.inl hk)
      · rcases List.mem_append.1 hk with hk | hk
        · exact h.readers k (.inr hk)
        · rw [List.mem_singleton] at hk
          exact hk ▸ hi
    · rintro rfl
      dsimp only at hk
      rw [ho] at hk
      cases hk
      exact hj rfl
    · by_cases he : i = .printer
      · exact .inr (.inr (List.mem_append_right _ (by simp [he])))
      · exact (h.reading slot hp).imp (hh _ (Ne.symm he))
          fun hp => hp.imp_right fun hp => List.mem_append_left _ hp

theorem Attended.pass (h : Attended r p kw here) {result : Except Failure String}
    (hr : (r.resume i).result = some result)
    (hreads : ∀ j, j ≠ i → Reads p kw j → Reads p' kw j)
    (hwoken : ∀ j, (r.resume i).woken = some j → here' j)
    (hreading : ∀ slot, p' = .reading slot → p = .reading slot ∧ i ≠ .printer)
    (hh : here .printer → here' .printer) : Attended (r.resume i).reader p' kw here' := by
  have hf := h.fair.resume i
  have hc := LineReader.resume_resumption r i
  generalize r.resume i = q at hr hf hc hwoken ⊢
  cases hc with
  | stalled => cases hr
  | inLine => cases hr
  | join => cases hr
  | @done r' result ho hw ho' =>
    have hn : i ∉ r.waiting := by
      have hd := (h.fair.own ho ho' hw).distinct
      rw [ho', hw] at hd
      exact (List.nodup_cons.1 hd).1
    -- Whoever has the lock now stood in line for it, and is woken with it.
    refine ⟨hf, fun j hj => ?_, fun j hj => .inl (hwoken j hj), fun slot hs => ?_⟩
    · have hj : j ∈ r.waiting := hw ▸ LineReader.mem_waiting_of_release hj
      exact hreads j (fun he => hn (he ▸ hj)) (h.readers j (.inr hj))
    · obtain ⟨hp, hi⟩ := hreading slot hs
      rcases h.reading slot hp with hp | hp
      · exact .inl (hh hp)
      · have hp : .printer ∈ r'.waiting := hw ▸ LineReader.mem_waiting_of_ne ho hp (Ne.symm hi)
        rcases LineReader.release_of_mem_waiting hp with hp | hp
        · exact .inl (hwoken _ hp)
        · exact .inr (.inr hp)

theorem Attended.abandon (h : Attended r p kw here)
    (hwoken : ∀ j, j ≠ .keywordWatch → (r.abandon .keywordWatch).2 = some j → here' j)
    (hh : here .printer → here' .printer) :
    Attended (r.abandon .keywordWatch).1 p false here' := by
  have hreads {j : TaskId} (hj : j ≠ .keywordWatch) (hr : Reads p kw j) : Reads p false j := by
    cases j with
    | keywordWatch => exact absurd rfl hj
    | _ => exact hr
  have hd := h.fair.distinct
  have hf := h.fair.abandon .keywordWatch
  unfold LineReader.abandon at hwoken hf ⊢
  by_cases ho : r.owner = some .keywordWatch
  · rw [if_pos ho] at hwoken hf ⊢
    rw [ho] at hd
    have hne {j : TaskId} (hj : j ∈ r.waiting) : j ≠ .keywordWatch :=
      fun he => (List.nodup_cons.1 hd).1 (he ▸ hj)
    refine ⟨hf, fun j hj => ?_, fun j hj => .inl ?_, fun slot hp => ?_⟩
    · have hj := LineReader.mem_waiting_of_release hj
      exact hreads (hne hj) (h.readers j (.inr hj))
    · exact hwoken j (hne (LineReader.mem_waiting_of_release (.inl hj))) hj
    · rcases h.reading slot hp with hp | hp
      · exact .inl (hh hp)
      · rcases LineReader.release_of_mem_waiting (LineReader.mem_waiting_of_ne (.inr ho) hp nofun) with hp | hp
        · exact .inl (hwoken _ nofun hp)
        · exact .inr (.inr hp)
  · rw [if_neg ho] at hwoken hf ⊢
    have hn : r.waiting.Nodup := (List.nodup_append.1 hd).2.1
    refine ⟨hf, fun j hj => ?_, fun j hj => ?_, fun slot hp => ?_⟩
    · rcases hj with hj | hj
      · exact hreads (fun he => ho (he ▸ hj)) (h.readers j (.inl hj))
      · obtain ⟨hne, hj⟩ := hn.mem_erase_iff.1 hj
        exact hreads hne (h.readers j (.inr hj))
    · have hr := h.readers j (.inl hj)
      cases j with
      | printer => exact (h.stalled _ hj).imp_left hh
      | keywordWatch => exact absurd hj ho
      | _ => exact hr.elim
    · exact (h.reading slot hp).imp hh
        fun hp => hp.imp_right fun hp => hn.mem_erase_iff.2 ⟨nofun, hp⟩

end JobConsole
