import JobConsole.Proofs.Succession

namespace JobConsole

variable {closed : Bool} {taken : List UInt8} {pieces : List Piece}

def Piece.ends : Piece → Bool
  | .bytes data => Line.newline ∈ data
  | .fault _ => true

def Source.ends (s : Source) : Bool :=
  s.closed || s.pieces.any Piece.ends

theorem gather_isSome : (gather closed taken pieces).result.isSome =
    (closed || pieces.any Piece.ends) := by
  fun_induction gather closed taken pieces with
  | case1 taken hc => simp [hc]
  | case2 taken hc => simp [hc]
  | case3 taken cause pieces => simp [Piece.ends]
  | case4 taken data pieces hcut ih => simp [ih, Piece.ends, Line.not_mem_of_cut? hcut]
  | case5 taken data pieces line hcut =>
    obtain ⟨body, -, rfl, rfl⟩ := Line.cut?_eq_some hcut
    simp [Piece.ends]
  | case6 taken data pieces line rest hrest hcut =>
    obtain ⟨body, -, rfl, rfl⟩ := Line.cut?_eq_some hcut
    simp [Piece.ends]

namespace LineReader

variable {ι : Type} [DecidableEq ι] {r : LineReader ι} {i j : ι}

theorem isSome_resume (h : r.owner = none ∨ r.owner = some i) :
    (r.resume i).result.isSome = r.source.ends := by
  have he : r.resume i = r.collect i := by
    unfold resume
    rcases h with h | h <;> simp [h]
  rw [he, Source.ends, ← @gather_isSome _ r.taken]
  unfold collect
  dsimp only
  split <;> simp_all

theorem resume_of_other (h : r.owner = some j) (hj : j ≠ i) :
    (r.resume i).result = none ∧ (r.resume i).reader.source = r.source ∧
      (r.resume i).reader.taken = r.taken ∧ (r.resume i).reader.owner = r.owner := by
  have hr := resume_resumption r i
  generalize r.resume i = p at hr ⊢
  cases hr with
  | stalled ho => simp [h, hj] at ho
  | done ho => simp [h, hj] at ho
  | inLine => exact ⟨rfl, rfl, rfl, rfl⟩
  | join => exact ⟨rfl, rfl, rfl, rfl⟩

theorem length_line_resume (h : r.Fair) (i : ι) :
    (r.resume i).reader.line.length + (r.resume i).result.toList.length =
      r.line.length + if i ∈ r.line then 0 else 1 := by
  have hl := congrArg List.length (line_resume h i)
  cases hr : (r.resume i).result with
  | none =>
    rw [hr] at hl
    split at hl <;> simp_all
  | some result =>
    rw [hr] at hl
    split at hl <;> simp_all

theorem mem_line_resume (h : r.Fair) (hj : j ∈ r.line ∨ j = i) :
    j ∈ (r.resume i).reader.line ∨ j = i ∧ (r.resume i).result.isSome = true := by
  have hm : j ∈ if i ∈ r.line then r.line else r.line ++ [i] := by
    split
    · rename_i hi
      exact hj.elim id fun e => e ▸ hi
    · exact List.mem_append.2 (hj.imp_right fun e => by simp [e])
  rw [line_resume h] at hm
  split at hm
  · rename_i hs
    exact (List.mem_cons.1 hm).symm.imp_right fun e => ⟨e, hs⟩
  · exact .inl hm

end LineReader

namespace OpenReads

open LineReader

variable {o : OpenReads} {steps : List Step} {m n : Nat} {ns : List Nat}

def after (o : OpenReads) (steps : List Step) : OpenReads :=
  steps.foldl (fun o s => (o.step s).1) o

def Holds (o : OpenReads) (n : Nat) : Prop :=
  o.reader.owner = some (some n)

instance (o : OpenReads) (n : Nat) : Decidable (o.Holds n) :=
  inferInstanceAs (Decidable (_ = _))

def openCount (o : OpenReads) : Nat :=
  o.begun.length + o.reader.line.length

def resumeAll (ns : List Nat) : List Step :=
  ns.map .resume

theorem after_append (o : OpenReads) (ss ts : List Step) :
    o.after (ss ++ ts) = (o.after ss).after ts :=
  List.foldl_append ..

theorem after_resume (o : OpenReads) (n : Nat) (ns : List Nat) :
    o.after (resumeAll (n :: ns)) = (o.step (.resume n)).1.after (resumeAll ns) :=
  rfl

theorem isOpen_iff : o.isOpen n = true ↔ n ∈ o.begun ∨ some n ∈ o.reader.line := by
  simp [isOpen, ← isReading_iff]

theorem Tidy.after (h : o.Tidy) (steps : List Step) : (o.after steps).Tidy := by
  induction steps generalizing o with
  | nil => exact h
  | cons s steps ih => exact ih (h.step s)

theorem tidy_new (source : Source) : Tidy { reader := { source } } :=
  ⟨⟨List.nodup_nil, fun _ => rfl⟩, List.nodup_nil, nofun, rfl⟩

theorem step_resume (h : o.isOpen n = true) : o.step (.resume n) =
    resumeOnce { o with begun := o.begun.erase n } (some n) :=
  if_pos h

theorem step_absent (h : o.isOpen n = false) : o.step (.resume n) = (o, .absent) :=
  if_neg (by simp [h])

theorem Tidy.owned (h : o.Tidy) {i : Option Nat} (hi : o.reader.owner = some i) :
    ∃ n, i = some n ∧ o.isOpen n = true ∧ n ∉ o.begun := by
  have hr : o.reader.isReading i = true := by simp [isReading, hi]
  cases i with
  | none => exact absurd (h.unkept.symm.trans hr) Bool.false_ne_true
  | some n =>
    refine ⟨n, rfl, by simp [isOpen, hr], fun hn => ?_⟩
    exact absurd ((h.fresh n hn).symm.trans hr) Bool.false_ne_true

theorem Tidy.held (h : o.Tidy) (hn : o.isOpen n = true) (hb : n ∉ o.begun) :
    ∃ m, o.Holds m ∧ o.isOpen m = true := by
  have hl : some n ∈ o.reader.line := (isOpen_iff.1 hn).resolve_left hb
  cases ho : o.reader.owner with
  | none =>
    have hw := h.fair.taken ho
    simp [line, ho, hw] at hl
  | some i =>
    obtain ⟨m, rfl, hm, -⟩ := h.owned ho
    exact ⟨m, ho, hm⟩

theorem Tidy.openCount_step (h : o.Tidy) (n : Nat) :
    (o.step (.resume n)).1.openCount + (o.step (.resume n)).2.result?.toList.length =
      o.openCount := by
  cases ho : o.isOpen n with
  | false =>
    rw [step_absent ho]
    rfl
  | true =>
    have hl := length_line_resume h.fair (some n)
    simp only [step_resume ho, resumeOnce, openCount, Answer.result?_ofResult]
    by_cases hb : n ∈ o.begun
    · have hn : some n ∉ o.reader.line := not_mem_line (h.fresh n hb)
      have hpos := List.length_pos_of_mem hb
      rw [if_neg hn] at hl
      rw [List.length_erase_of_mem hb]
      omega
    · have hn := (isOpen_iff.1 ho).resolve_left hb
      rw [if_pos hn] at hl
      rw [List.erase_of_not_mem hb]
      omega

theorem Tidy.openCount_after (h : o.Tidy) (ns : List Nat) :
    (o.after (resumeAll ns)).openCount ≤ o.openCount := by
  induction ns generalizing o with
  | nil => exact le_rfl
  | cons n ns ih =>
    have hn := h.openCount_step n
    have ha := ih (h.step (.resume n))
    rw [after_resume]
    omega

theorem closed_step (o : OpenReads) (n : Nat) :
    (o.step (.resume n)).1.reader.source.closed = o.reader.source.closed := by
  cases ho : o.isOpen n with
  | false => rw [step_absent ho]
  | true =>
    rw [step_resume ho]
    exact closed_resume o.reader (some n)

theorem isOpen_of_step (hm : (o.step (.resume n)).1.isOpen m = true) : o.isOpen m = true := by
  cases ho : o.isOpen n with
  | false => rwa [step_absent ho] at hm
  | true =>
    by_cases hmn : m = n
    · rwa [hmn]
    · rw [step_resume ho] at hm
      rw [isOpen_iff] at hm ⊢
      refine hm.imp List.mem_of_mem_erase fun hl => ?_
      rw [← isReading_iff] at hl ⊢
      by_contra hr
      have hne : some m ≠ some n := fun e => hmn (Option.some.inj e)
      have hf := isReading_resume hne (Bool.not_eq_true _ ▸ hr)
      exact absurd (hf.symm.trans hl) Bool.false_ne_true

theorem Tidy.goesOn (h : o.Tidy) (hm : o.isOpen m = true) (n : Nat) :
    (o.step (.resume n)).1.isOpen m = true ∨
      ∃ result, .served (some m) result ∈ o.signs (.resume n) := by
  cases ho : o.isOpen n with
  | false =>
    left
    rwa [step_absent ho]
  | true =>
    have hs : o.step (.resume n) = _ := step_resume ho
    by_cases hb : m ∈ o.begun ∧ m ≠ n
    · left
      rw [hs, isOpen_iff]
      exact .inl ((List.mem_erase_of_ne hb.2).2 hb.1)
    · have hl : some m ∈ o.reader.line ∨ some m = some n := by
        rcases isOpen_iff.1 hm with hm | hm
        · exact .inr (congrArg some (not_not.1 fun hmn => hb ⟨hm, hmn⟩))
        · exact .inl hm
      rcases mem_line_resume h.fair hl with hl | ⟨hmn, hr⟩
      · left
        rw [hs, isOpen_iff]
        exact .inr hl
      · obtain ⟨result, hr⟩ := Option.isSome_iff_exists.1 hr
        refine .inr ⟨result, List.mem_append_right _ ?_⟩
        simp [hs, resumeOnce, hr, hmn]

theorem Tidy.goesOn_after (h : o.Tidy) (hm : o.isOpen m = true) (ns : List Nat) :
    (o.after (resumeAll ns)).isOpen m = true ∨
      ∃ result, .served (some m) result ∈ o.history (resumeAll ns) := by
  induction ns generalizing o with
  | nil => exact .inl hm
  | cons n ns ih =>
    rcases h.goesOn hm n with hm | ⟨result, hr⟩
    · refine (ih (h.step _) hm).imp_right fun ⟨result, hr⟩ => ⟨result, ?_⟩
      exact List.mem_append_right _ hr
    · exact .inr ⟨result, List.mem_append_left _ hr⟩

/-- Once the input has ended, the one that has the lock, or can have it, is done when its turn
comes. -/
theorem Tidy.round (h : o.Tidy) (hc : o.reader.source.closed = true) (hm : o.isOpen m = true)
    (ho : o.reader.owner = none ∨ o.Holds m) (hmn : m ∈ ns) :
    (o.after (resumeAll ns)).openCount < o.openCount := by
  induction ns generalizing o with
  | nil => exact absurd hmn List.not_mem_nil
  | cons n ns ih =>
    have hcount := h.openCount_step n
    have hafter := (h.step (.resume n)).openCount_after ns
    rw [after_resume]
    cases hn : o.isOpen n with
    | false =>
      have hne : m ≠ n := by
        rintro rfl
        exact absurd (hn.symm.trans hm) Bool.false_ne_true
      rw [step_absent hn]
      exact ih h hc hm ho ((List.mem_cons.1 hmn).resolve_left hne)
    | true =>
      by_cases hfree : o.reader.owner = none ∨ o.Holds n
      · -- Whoever has the lock finds at least the end of the input.
        have hr : (o.step (.resume n)).2.result?.isSome = true := by
          rw [step_resume hn]
          simp [resumeOnce, isSome_resume hfree, Source.ends, hc]
        obtain ⟨result, hr⟩ := Option.isSome_iff_exists.1 hr
        rw [hr, Option.toList_some, List.length_singleton] at hcount
        omega
      · rw [not_or] at hfree
        have hm' : o.Holds m := ho.resolve_left hfree.1
        have hne : m ≠ n := fun e => hfree.2 (e ▸ hm')
        have hother : (o.step (.resume n)).1.Holds m := by
          have hx := resume_of_other hm' (fun e => hne (Option.some.inj e) : some m ≠ some n)
          rw [step_resume hn]
          exact hx.2.2.2.trans hm'
        have hopen : (o.step (.resume n)).1.isOpen m = true := by
          rw [isOpen_iff]
          right
          simp only [line, show (o.step (.resume n)).1.reader.owner = _ from hother]
          simp
        have hi := ih (h.step _) ((closed_step o n).trans hc) hopen (.inr hother)
          ((List.mem_cons.1 hmn).resolve_left hne)
        omega

theorem isOpen_of_after (hm : (o.after (resumeAll ns)).isOpen m = true) : o.isOpen m = true := by
  induction ns generalizing o with
  | nil => exact hm
  | cons n ns ih => exact isOpen_of_step (ih hm)

theorem closed_after (o : OpenReads) (ns : List Nat) :
    (o.after (resumeAll ns)).reader.source.closed = o.reader.source.closed := by
  induction ns generalizing o with
  | nil => rfl
  | cons n ns ih => exact (ih _).trans (closed_step o n)

theorem Tidy.next (h : o.Tidy) (hn : 0 < o.openCount) :
    ∃ m, o.isOpen m = true ∧ (o.reader.owner = none ∨ o.Holds m) := by
  cases ho : o.reader.owner with
  | some i =>
    obtain ⟨m, rfl, hm, -⟩ := h.owned ho
    exact ⟨m, hm, .inr ho⟩
  | none =>
    have hl : o.reader.line = [] := by simp [line, ho, h.fair.taken ho]
    rw [openCount, hl, List.length_nil, Nat.add_zero] at hn
    obtain ⟨m, hm⟩ := List.exists_mem_of_length_pos hn
    exact ⟨m, isOpen_iff.2 (.inl hm), .inl rfl⟩

theorem Tidy.rounds (h : o.Tidy) (hc : o.reader.source.closed = true) (rounds : List (List Nat))
    (hr : ∀ round ∈ rounds, ∀ n, o.isOpen n = true → n ∈ round) :
    (o.after (resumeAll rounds.flatten)).openCount ≤ o.openCount - rounds.length := by
  induction rounds generalizing o with
  | nil => exact le_rfl
  | cons round rounds ih =>
    have ha : o.after (resumeAll (round :: rounds).flatten) =
        (o.after (resumeAll round)).after (resumeAll rounds.flatten) := by
      rw [List.flatten_cons, resumeAll, List.map_append]
      exact after_append ..
    rw [ha]
    have hi := ih (h.after (resumeAll round)) ((closed_after o round).trans hc)
      fun r hrs n hn => hr r (List.mem_cons_of_mem _ hrs) n (isOpen_of_after hn)
    have hle := h.openCount_after round
    rw [List.length_cons]
    by_cases hpos : 0 < o.openCount
    · obtain ⟨m, hm, ho⟩ := h.next hpos
      have hlt := h.round hc hm ho (hr round List.mem_cons_self m hm)
      omega
    · omega

theorem not_isOpen_of_openCount (h : o.openCount = 0) (n : Nat) : o.isOpen n = false := by
  rw [openCount, Nat.add_eq_zero_iff, List.length_eq_zero_iff, List.length_eq_zero_iff] at h
  rw [← Bool.not_eq_true, isOpen_iff, h.1, h.2]
  simp

structure Custody (o : OpenReads) : Prop where
  /-- The lock is never with a read that is gone or has not asked for it. -/
  owned : ∀ i, o.reader.owner = some i → ∃ n, i = some n ∧ o.isOpen n = true ∧ n ∉ o.begun
  /-- One read at a time has the lock, and the others get nothing from the source. -/
  sole : ∀ m n, o.Holds m → o.isOpen n = true → n ≠ m → ¬ o.Holds n ∧
    (o.step (.resume n)).2 = .pending ∧ (o.step (.resume n)).1.Holds m ∧
      (o.step (.resume n)).1.reader.source = o.reader.source ∧
        (o.step (.resume n)).1.reader.taken = o.reader.taken
  held : ∀ n, o.isOpen n = true → n ∉ o.begun → ∃ m, o.Holds m ∧ o.isOpen m = true
  /-- The one that has the lock is done at once if the source has anything for it. -/
  done : ∀ n, o.Holds n → (o.step (.resume n)).2.result?.isSome = o.reader.source.ends
  /-- Once the input has ended, as many rounds as there are open reads see all of them done. -/
  rounds : o.reader.source.closed = true → ∀ rounds : List (List Nat),
    (∀ round ∈ rounds, ∀ n, o.isOpen n = true → n ∈ round) → o.openCount ≤ rounds.length →
      ∀ n, o.isOpen n = true →
        (∃ result, .served (some n) result ∈ o.history (resumeAll rounds.flatten)) ∧
          (o.after (resumeAll rounds.flatten)).isOpen n = false

theorem custody_of_steps (source : Source) (steps : List Step) :
    Custody (after { reader := { source } } steps) := by
  have h := (tidy_new source).after steps
  generalize after { reader := { source } } steps = o at h ⊢
  refine ⟨fun i => h.owned, fun m n hm hn hne => ?_, fun n => h.held, fun n hn => ?_,
    fun hc rounds hr hl n hn => ?_⟩
  · have hne' : some m ≠ some n := fun e => hne (Option.some.inj e).symm
    obtain ⟨hr, hs, ht, ho⟩ := resume_of_other hm hne'
    rw [step_resume hn]
    refine ⟨fun hx => hne' (Option.some.inj (hm.symm.trans hx)), ?_, ho.trans hm, hs, ht⟩
    simp [resumeOnce, hr, Answer.ofResult]
  · obtain ⟨k, hk, hopen, -⟩ := h.owned hn
    obtain rfl := Option.some.inj hk
    rw [step_resume hopen]
    simp [resumeOnce, isSome_resume (.inr hn)]
  · have hgone : (o.after (resumeAll rounds.flatten)).isOpen n = false := by
      have hle := h.rounds hc rounds hr
      exact not_isOpen_of_openCount (by omega) n
    refine ⟨(h.goesOn_after hn _).resolve_left ?_, hgone⟩
    rw [hgone]
    exact Bool.false_ne_true

/-- Read 6 is given up before it asks, read 3 while it waits, read 1 with half a line, and read 2
before it knows that the lock has come to it. Read 4 has it then, and read 5 has not asked. -/
def quitters : List Step :=
  [.begin 1, .begin 2, .begin 3, .begin 4, .begin 5, .begin 6, .abandon 6, .resume 1, .resume 2,
    .resume 3, .resume 4, .feed (.bytes [0x61]), .resume 1, .abandon 3, .abandon 1, .abandon 2,
    .close]

theorem custody_of_quitters :
    let o : OpenReads := after { reader := { source := {} } } quitters
    Custody o ∧ o.Holds 4 ∧ (o.step (.resume 5)).2 = .pending ∧
      (o.step (.resume 4)).2.result?.isSome = true ∧
        ∀ n ∈ [4, 5], (o.after (resumeAll [5, 4, 5, 4])).isOpen n = false := by
  intro o
  have h : Custody o := custody_of_steps {} quitters
  have hm : o.Holds 4 := by decide +kernel
  have hn : ∀ n ∈ [4, 5], o.isOpen n = true := by decide +kernel
  have hopen : ∀ n, o.isOpen n = true → n ∈ [5, 4] := fun n hn => by
    rw [isOpen_iff] at hn
    have hb : o.begun = [5] := by decide +kernel
    have hl : o.reader.line = [some 4] := by decide +kernel
    simpa [hb, hl] using hn
  refine ⟨h, hm, (h.sole 4 5 hm (hn 5 (by simp)) (by simp)).2.1, ?_, fun n hmem => ?_⟩
  · rw [h.done 4 hm]
    decide +kernel
  · have hc : o.reader.source.closed = true := by decide +kernel
    have hle : o.openCount ≤ 2 := by decide +kernel
    refine (h.rounds hc [[5, 4], [5, 4]] (fun round hr k hk => ?_) hle n (hn n hmem)).2
    have he : round = [5, 4] := by simpa using hr
    exact he ▸ hopen k hk

end OpenReads

end JobConsole
