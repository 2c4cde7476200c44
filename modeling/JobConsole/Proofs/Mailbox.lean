import JobConsole.Mailbox

namespace JobConsole.Mailbox

variable {ι : Type} {b : Mailbox ι}

structure Balanced (b : Mailbox ι) : Prop where
  fits : b.items.length + b.granted.length ≤ b.capacity
  full : b.waiting ≠ [] → b.items.length + b.granted.length = b.capacity
  distinct : (b.granted ++ b.waiting).Nodup

/-- Nothing will ever be in the mailbox again. -/
structure IsShut (b : Mailbox ι) : Prop where
  closed : b.closed = true
  items : b.items = []
  granted : b.granted = []
  waiting : b.waiting = []

theorem grant_cases (b : Mailbox ι) :
    (b.waiting = [] ∧ b.grant = (b, none)) ∨
      ∃ i rest, b.waiting = i :: rest ∧
        b.grant = ({ b with granted := b.granted ++ [i], waiting := rest }, some i) := by
  unfold grant
  cases h : b.waiting with
  | nil => exact .inl ⟨rfl, rfl⟩
  | cons i rest => exact .inr ⟨i, rest, rfl, rfl⟩

theorem grant_items (b : Mailbox ι) :
    b.grant.1.items = b.items ∧ b.grant.1.closed = b.closed ∧ b.grant.1.capacity = b.capacity := by
  rcases b.grant_cases with ⟨-, h⟩ | ⟨i, rest, -, h⟩ <;> rw [h] <;> exact ⟨rfl, rfl, rfl⟩

theorem mem_grant (b : Mailbox ι) (i : ι) :
    (i ∈ b.grant.1.granted ↔ i ∈ b.granted ∨ b.grant.2 = some i) ∧
      (i ∈ b.waiting ↔ i ∈ b.grant.1.waiting ∨ b.grant.2 = some i) := by
  rcases b.grant_cases with ⟨hw, h⟩ | ⟨j, rest, hw, h⟩ <;> simp [h, hw, eq_comm, or_comm]

theorem Balanced.grant (hn : (b.granted ++ b.waiting).Nodup)
    (hf : b.items.length + b.granted.length < b.capacity)
    (hw : b.waiting ≠ [] → b.items.length + b.granted.length + 1 = b.capacity) :
    b.grant.1.Balanced := by
  rcases b.grant_cases with ⟨he, h⟩ | ⟨i, rest, he, h⟩ <;> rw [h]
  · exact ⟨Nat.le_of_lt hf, fun hne => absurd he hne, hn⟩
  · have hs := hw (by rw [he]; exact List.cons_ne_nil i rest)
    have hl : (b.granted ++ [i]).length = b.granted.length + 1 := by simp
    rw [he] at hn
    exact ⟨by simp only [hl]; omega, fun _ => by simp only [hl]; omega, by simpa using hn⟩

theorem Balanced.push {m : Message} (h : b.Balanced) (hr : 0 < b.room) : (b.push m).Balanced := by
  have hl : (b.items ++ [m]).length = b.items.length + 1 := by simp
  unfold room at hr
  refine ⟨by simp only [Mailbox.push, hl]; omega, fun hw => ?_, h.distinct⟩
  have := h.full hw
  omega

theorem Balanced.join {i : ι} (h : b.Balanced) (hr : b.room = 0)
    (hi : i ∉ b.granted ++ b.waiting) : (b.join i).Balanced := by
  have hf := h.fits
  unfold room at hr
  refine ⟨hf, fun _ => by simp only [Mailbox.join]; omega, ?_⟩
  simp only [Mailbox.join, ← List.append_assoc]
  exact List.nodup_append.2 ⟨h.distinct, by simp, fun a ha c hc e => hi (by simp_all)⟩

theorem Balanced.close (h : b.Balanced) : b.close.Balanced :=
  ⟨Nat.le_trans (Nat.le_add_right ..) h.fits, fun hw => absurd rfl hw, List.nodup_nil⟩

theorem Balanced.drain (h : b.Balanced) (hw : b.waiting = []) : b.drain.Balanced := by
  have hf := h.fits
  exact ⟨by simp only [Mailbox.drain, List.length_nil]; omega, fun hn => absurd hw hn, h.distinct⟩

theorem isShut_close_drain (b : Mailbox ι) : b.close.drain.IsShut :=
  ⟨rfl, rfl, rfl, rfl⟩

theorem take?_eq_none_iff : b.take? = none ↔ b.items = [] := by
  unfold take?
  split <;> simp_all

theorem take?_eq_some {t : Taken ι} (h : b.take? = some t) :
    ∃ rest, b.items = t.message :: rest ∧ t.mailbox = ({ b with items := rest }).grant.1 ∧
      t.woken = ({ b with items := rest }).grant.2 := by
  unfold take? at h
  split at h
  · simp at h
  · rename_i x rest hx
    simp only [Option.some.injEq] at h
    exact ⟨rest, by rw [hx, ← h], by rw [← h], by rw [← h]⟩

theorem items_of_take? {t : Taken ι} (h : b.take? = some t) :
    b.items = t.message :: t.mailbox.items ∧ t.mailbox.closed = b.closed := by
  obtain ⟨rest, hi, hm, -⟩ := take?_eq_some h
  obtain ⟨hi', hc, -⟩ := ({ b with items := rest }).grant_items
  rw [hm, hi', hc]
  exact ⟨hi, rfl⟩

theorem take?_of_items {m : Message} {rest : List Message} (h : b.items = m :: rest) :
    ∃ t, b.take? = some t ∧ t.message = m ∧ t.mailbox.items = rest := by
  cases ht : b.take? with
  | none =>
    rw [take?_eq_none_iff.1 ht] at h
    cases h
  | some t =>
    have hi := (items_of_take? ht).1
    rw [h] at hi
    cases hi
    exact ⟨t, rfl, rfl, rfl⟩

theorem Balanced.take? {t : Taken ι} (h : b.Balanced) (ht : b.take? = some t) :
    t.mailbox.Balanced := by
  obtain ⟨rest, hi, hm, -⟩ := take?_eq_some ht
  have hl : b.items.length = rest.length + 1 := by rw [hi]; rfl
  have hf := h.fits
  rw [hm]
  refine Balanced.grant h.distinct (by simp only; omega) fun hw => ?_
  have := h.full hw
  simp only
  omega

variable [DecidableEq ι]

theorem Balanced.redeem {i : ι} {m : Message} (h : b.Balanced) (hi : i ∈ b.granted) :
    (b.redeem i m).Balanced := by
  have hl : (b.items ++ [m]).length = b.items.length + 1 := by simp
  have he := List.length_erase_of_mem hi
  have hp := List.length_pos_of_mem hi
  have hf := h.fits
  refine ⟨by simp only [Mailbox.redeem, hl, he]; omega, fun hw => ?_, ?_⟩
  · have := h.full hw
    simp only [Mailbox.redeem, hl, he]
    omega
  · exact h.distinct.sublist (List.erase_sublist.append_right _)

theorem leave_items (b : Mailbox ι) (i : ι) :
    (b.leave i).1.items = b.items ∧ (b.leave i).1.closed = b.closed ∧
      (b.leave i).1.capacity = b.capacity := by
  unfold leave
  split
  · exact grant_items _
  · exact ⟨rfl, rfl, rfl⟩

theorem Balanced.leave (h : b.Balanced) (i : ι) : (b.leave i).1.Balanced := by
  have hf := h.fits
  unfold Mailbox.leave
  split
  · rename_i hi
    have he := List.length_erase_of_mem hi
    have hp := List.length_pos_of_mem hi
    refine Balanced.grant (h.distinct.sublist (List.erase_sublist.append_right _))
      (by simp only [he]; omega) fun hw => ?_
    have := h.full hw
    simp only [he]
    omega
  · refine ⟨hf, fun hw => h.full fun he => hw ?_, ?_⟩
    · simp [he]
    · exact h.distinct.sublist (List.erase_sublist.append_left _)

theorem not_mem_leave {i : ι} (h : b.Balanced) :
    i ∉ (b.leave i).1.granted ++ (b.leave i).1.waiting := by
  obtain ⟨hg, hw, hd⟩ := List.nodup_append.1 h.distinct
  rw [List.mem_append]
  unfold leave
  split
  · rename_i hi
    have hm := ({ b with granted := b.granted.erase i }).mem_grant i
    have hn : i ∉ b.waiting := fun hw => hd i hi i hw rfl
    have he : i ∉ b.granted.erase i := hg.not_mem_erase
    have hnone := fun hw => hn (hm.2.2 (.inr hw))
    rintro (h | h)
    · exact (hm.1.1 h).elim he hnone
    · exact hn (hm.2.2 (.inl h))
  · rename_i hi
    rintro (h | h)
    · exact hi h
    · exact hw.not_mem_erase h

theorem mem_leave {i j : ι} (hj : j ≠ i) :
    (j ∈ (b.leave i).1.granted ↔ j ∈ b.granted ∨ (b.leave i).2 = some j) ∧
      (j ∈ b.waiting ↔ j ∈ (b.leave i).1.waiting ∨ (b.leave i).2 = some j) := by
  unfold leave
  split
  · have hm := ({ b with granted := b.granted.erase i }).mem_grant j
    simpa [List.mem_erase_of_ne hj] using hm
  · simp [List.mem_erase_of_ne hj]

theorem IsShut.leave (h : b.IsShut) (i : ι) : (b.leave i).1.IsShut := by
  have hi : i ∉ b.granted := by rw [h.granted]; exact List.not_mem_nil
  unfold Mailbox.leave
  rw [if_neg hi]
  exact ⟨h.closed, h.items, h.granted, by simp [h.waiting]⟩

end JobConsole.Mailbox
