import JobConsole.Input.LineReader

namespace JobConsole

theorem gather_rest {closed : Bool} {taken : List UInt8} {pieces : List Piece}
    (h : (gather closed taken pieces).result = none) :
    (gather closed taken pieces).pieces = [] ∧ closed = false := by
  fun_induction gather closed taken pieces with
  | case4 taken pieces data hcut ih => exact ih h
  | _ => simp_all

namespace LineReader

variable {ι : Type} {r : LineReader ι} {i j : ι}

/-- Nobody waits for a free lock, and nobody stands in line twice. -/
structure Fair (r : LineReader ι) : Prop where
  distinct : (r.owner.toList ++ r.waiting).Nodup
  taken : r.owner = none → r.waiting = []

def line (r : LineReader ι) : List ι :=
  r.owner.toList ++ r.waiting

theorem line_release (r : LineReader ι) : r.release.1.line = r.waiting := by
  unfold release line
  cases r.waiting <;> rfl

def Silent (r : LineReader ι) : Prop :=
  r.source.pieces = [] ∧ r.source.closed = false

theorem Fair.release (h : r.Fair) : r.release.1.Fair := by
  have hn : r.waiting.Nodup := (List.nodup_append.1 h.distinct).2.1
  unfold LineReader.release
  cases hw : r.waiting with
  | nil => exact ⟨List.nodup_nil, fun _ => rfl⟩
  | cons j rest =>
    rw [hw] at hn
    exact ⟨by simpa using hn, nofun⟩

theorem mem_waiting_of_release (h : r.release.1.owner = some j ∨ j ∈ r.release.1.waiting) :
    j ∈ r.waiting := by
  unfold LineReader.release at h
  cases hw : r.waiting with
  | nil => simp [hw] at h
  | cons k rest =>
    simp only [hw, List.head?_cons, Option.some.injEq, List.tail_cons] at h
    rcases h with rfl | h
    · exact List.mem_cons_self
    · exact List.mem_cons_of_mem k h

theorem release_of_mem_waiting (h : j ∈ r.waiting) :
    r.release.2 = some j ∨ j ∈ r.release.1.waiting := by
  unfold LineReader.release
  cases hw : r.waiting with
  | nil => simp [hw] at h
  | cons k rest =>
    rw [hw] at h
    rcases List.mem_cons.1 h with rfl | h
    · exact .inl rfl
    · exact .inr h

theorem mem_waiting_of_ne (ho : r.owner = none ∨ r.owner = some i)
    (hj : r.owner = some j ∨ j ∈ r.waiting) (hne : j ≠ i) : j ∈ r.waiting := by
  rcases hj with hj | hj
  · rcases ho with ho | ho <;> rw [ho] at hj <;> cases hj
    exact absurd rfl hne
  · exact hj

/-- All that going on with a read can do. -/
inductive Resumption (r : LineReader ι) (i : ι) : Resumed ι → Prop
  | stalled {r' : LineReader ι} (ho : r.owner = none ∨ r.owner = some i) (hs : r'.Silent)
      (ho' : r'.owner = some i) (hw : r'.waiting = r.waiting) : Resumption r i ⟨r', none, none⟩
  | done {r' : LineReader ι} {result : Except Failure String}
      (ho : r.owner = none ∨ r.owner = some i) (hw : r'.waiting = r.waiting)
      (ho' : r'.owner = some i) :
      Resumption r i ⟨r'.release.1, some result, r'.release.2⟩
  | inLine {j : ι} (ho : r.owner = some j) (hj : j ≠ i) (hw : i ∈ r.waiting) :
      Resumption r i ⟨r, none, none⟩
  | join {j : ι} (ho : r.owner = some j) (hj : j ≠ i) (hw : i ∉ r.waiting) :
      Resumption r i ⟨{ r with waiting := r.waiting ++ [i] }, none, none⟩

theorem collect_resumption (h : r.owner = none ∨ r.owner = some i) :
    Resumption r i (r.collect i) := by
  unfold collect
  dsimp only
  split
  · rename_i hr
    obtain ⟨hp, hc⟩ := gather_rest hr
    exact .stalled h ⟨hp, hc⟩ rfl rfl
  · exact .done h rfl rfl

theorem Fair.own (h : r.Fair) (ho : r.owner = none ∨ r.owner = some i) {r' : LineReader ι}
    (ho' : r'.owner = some i) (hw : r'.waiting = r.waiting) : r'.Fair := by
  refine ⟨?_, fun hn => by rw [hn] at ho'; cases ho'⟩
  rw [ho', hw]
  rcases ho with ho | ho
  · rw [h.taken ho]
    simp
  · have hd := h.distinct
    rwa [ho] at hd

variable [DecidableEq ι]

theorem resume_resumption (r : LineReader ι) (i : ι) : Resumption r i (r.resume i) := by
  unfold resume
  split
  · rename_i ho
    exact collect_resumption (.inl ho)
  · rename_i j ho
    split
    · rename_i hj
      exact collect_resumption (.inr (by rw [ho, hj]))
    · rename_i hj
      split
      · rename_i hw
        exact .inLine ho hj hw
      · rename_i hw
        exact .join ho hj hw

theorem Fair.resume (h : r.Fair) (i : ι) : (r.resume i).reader.Fair := by
  have hr := resume_resumption r i
  generalize r.resume i = p at hr ⊢
  cases hr with
  | stalled ho hs ho' hw => exact h.own ho ho' hw
  | done ho hw ho' => exact (h.own ho ho' hw).release
  | inLine => exact h
  | join ho hj hw =>
    refine ⟨?_, fun hn => by rw [ho] at hn; cases hn⟩
    have hd := h.distinct
    rw [ho] at hd
    simp only [ho, ← List.append_assoc]
    exact List.nodup_append.2 ⟨hd, by simp, fun a ha b hb e => by simp_all⟩

theorem isReading_iff : r.isReading i = true ↔ i ∈ r.line := by
  simp [isReading, line]

theorem line_abandon (r : LineReader ι) (i : ι) : (r.abandon i).1.line = r.line.erase i := by
  unfold abandon
  split
  · rename_i ho
    rw [line_release]
    simp [line, ho]
  · rename_i ho
    have hn : i ∉ r.owner.toList := by simpa using ho
    simp only [line]
    rw [List.erase_append_right _ hn]

theorem Fair.abandon (h : r.Fair) (i : ι) : (r.abandon i).1.Fair := by
  unfold LineReader.abandon
  split
  · exact h.release
  · refine ⟨h.distinct.sublist (List.erase_sublist.append_left _), fun hn => ?_⟩
    simp [h.taken hn]

theorem closed_resume (r : LineReader ι) (i : ι) :
    (r.resume i).reader.source.closed = r.source.closed := by
  have hc (i : ι) : (r.collect i).reader.source.closed = r.source.closed := by
    unfold collect
    dsimp only
    split <;> rfl
  unfold resume
  split
  · exact hc i
  · split
    · exact hc i
    · split <;> rfl

theorem isReading_resume (hj : j ≠ i) (h : r.isReading j = false) :
    (r.resume i).reader.isReading j = false := by
  simp only [isReading, Bool.or_eq_false_iff, decide_eq_false_iff_not] at h ⊢
  have hr := resume_resumption r i
  generalize r.resume i = p at hr ⊢
  cases hr with
  | stalled _ _ ho' hw =>
    dsimp only
    rw [ho', hw]
    exact ⟨fun hi => hj (Option.some.inj hi).symm, h.2⟩
  | done ho hw =>
    rw [← not_or]
    exact fun hi => h.2 (hw ▸ mem_waiting_of_release hi)
  | inLine => exact h
  | join => exact ⟨h.1, by simp [h.2, hj]⟩

theorem isReading_abandon (h : r.isReading j = false) : (r.abandon i).1.isReading j = false := by
  simp only [isReading, Bool.or_eq_false_iff, decide_eq_false_iff_not] at h ⊢
  unfold LineReader.abandon
  split
  · rw [← not_or]
    exact fun hi => h.2 (mem_waiting_of_release hi)
  · exact ⟨h.1, fun hi => h.2 (List.mem_of_mem_erase hi)⟩

theorem Fair.left (h : r.Fair) (i : ι) : (r.abandon i).1.isReading i = false := by
  simp only [isReading, Bool.or_eq_false_iff, decide_eq_false_iff_not]
  have hd := h.distinct
  unfold LineReader.abandon
  split
  · rename_i ho
    rw [ho] at hd
    rw [← not_or]
    exact fun hi => (List.nodup_cons.1 hd).1 (mem_waiting_of_release hi)
  · rename_i ho
    exact ⟨ho, (List.nodup_append.1 hd).2.1.not_mem_erase⟩

end LineReader

end JobConsole
