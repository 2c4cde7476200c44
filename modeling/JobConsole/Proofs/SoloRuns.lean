import JobConsole.Proofs.Reader
import JobConsole.Proofs.Run
import JobConsole.Proofs.Solo

namespace JobConsole

theorem gather_append (closed : Bool) (q : List Piece) (pieces : List Piece) : ∀ taken : List UInt8,
    gather closed taken (pieces ++ q) =
      match gather false taken pieces with
      | ⟨_, taken', none⟩ => gather closed taken' q
      | ⟨rest, taken', some result⟩ => ⟨rest ++ q, taken', some result⟩ := by
  induction pieces with
  | nil => exact fun _ => rfl
  | cons p pieces ih =>
    intro taken
    cases p with
    | fault cause => rfl
    | bytes data =>
      simp only [List.cons_append, gather]
      cases Line.cut? data with
      | none => exact ih _
      | some cut =>
        obtain ⟨line, rest⟩ := cut
        cases rest <;> rfl

namespace LineReader

variable {ι : Type} {r : LineReader ι} {i : ι}

def extend (r : LineReader ι) (q : List Piece) (closed : Bool) : LineReader ι :=
  { r with source := ⟨r.source.pieces ++ q, closed⟩ }

theorem collect_extend (h : r.source.closed = false) (i : ι) (q : List Piece) (closed : Bool) :
    match (r.collect i).result with
    | none => ((r.collect i).reader.extend q closed).collect i = (r.extend q closed).collect i
    | some result => (r.extend q closed).collect i =
        ⟨(r.collect i).reader.extend q closed, some result, (r.collect i).woken⟩ := by
  have hg := gather_append closed q r.source.pieces r.taken
  have hrest := @gather_rest r.source.closed r.taken r.source.pieces
  unfold collect extend
  dsimp only
  rw [hg]
  rw [h] at hrest ⊢
  cases hr : gather false r.taken r.source.pieces with
  | mk rest taken result =>
    rw [hr] at hrest
    cases result with
    | none =>
      have hnil := (hrest rfl).1
      dsimp only at hnil
      simp [hnil]
    | some result => rfl

theorem owner_collect (h : (r.collect i).result = none) : (r.collect i).reader.owner = some i := by
  unfold collect at h ⊢
  dsimp only at h ⊢
  cases hg : (gather r.source.closed r.taken r.source.pieces).result with
  | none => rfl
  | some result =>
    rw [hg] at h
    cases h

variable [DecidableEq ι]

theorem resume_extend (h : r.source.closed = false) (i : ι) (q : List Piece) (closed : Bool) :
    match (r.resume i).result with
    | none => ((r.resume i).reader.extend q closed).resume i = (r.extend q closed).resume i
    | some result => (r.extend q closed).resume i =
        ⟨(r.resume i).reader.extend q closed, some result, (r.resume i).woken⟩ := by
  have howned (hn : r.owner = none ∨ r.owner = some i) : r.resume i = r.collect i ∧
      (r.extend q closed).resume i = (r.extend q closed).collect i := by
    unfold resume extend
    rcases hn with hn | hn <;> simp [hn]
  by_cases hn : r.owner = none ∨ r.owner = some i
  · have hc := collect_extend h i q closed
    obtain ⟨hr, he⟩ := howned hn
    rw [hr, he]
    cases hres : (r.collect i).result with
    | some result =>
      rw [hres] at hc
      exact hc
    | none =>
      rw [hres] at hc
      dsimp only at hc ⊢
      rw [← hc]
      unfold resume
      simp [extend, owner_collect hres]
  · obtain ⟨hnone, hi⟩ := not_or.1 hn
    obtain ⟨j, hj⟩ := Option.ne_none_iff_exists'.1 hnone
    have hji : j ≠ i := fun he => hi (he ▸ hj)
    by_cases hw : i ∈ r.waiting <;> simp [resume, extend, hj, hji, hw]

end LineReader

namespace Solo

variable {s t u : Solo} {a : Activity} {x : Statement} {rest : Program} {m : Message}
  {q : List Piece} {closed : Bool}

/-! The producer does not see the input. -/

def withReader (s : Solo) (r : LineReader TaskId) : Solo :=
  { s with reader := r }

variable {r : LineReader TaskId}

theorem finish_withReader (o : Outcome) :
    (s.withReader r).finish a x rest o = (s.finish a x rest o).withReader r := by
  unfold Solo.finish
  split <;> rfl

theorem send_withReader : (s.withReader r).send a x rest m = (s.send a x rest m).withReader r := by
  cases m with
  | progress | info => exact finish_withReader (s := { s with front := s.front.draw _ }) .done
  | prompt | exit => rfl

theorem begin_withReader : (s.withReader r).begin a x rest = (s.begin a x rest).withReader r := by
  have ht : (s.withReader r).terminated = s.terminated := rfl
  cases x with
  | progress | info | prompt | ask | confirm | exit => simp only [Solo.begin, send_withReader]
  | state => simp only [Solo.begin, finish_withReader, ht]
  | sleep n =>
    simp only [Solo.begin, finish_withReader]
    split <;> rfl
  | _ => rfl

theorem goOn_withReader (w : Wait) :
    (s.withReader r).goOn a x rest w = (s.goOn a x rest w).withReader r := by
  have ht : (s.withReader r).terminated = s.terminated := rfl
  have hn : (s.withReader r).now = s.now := rfl
  cases w with
  | fresh => exact begin_withReader
  | replied => exact finish_withReader _
  | hungUp | termination | alarm =>
    simp only [Solo.goOn, finish_withReader, ht, hn]
    split <;> rfl
  | _ => rfl

theorem proceed_withReader : (s.withReader r).proceed = s.proceed.withReader r := by
  have ha : (s.withReader r).activity = s.activity := rfl
  unfold proceed
  rw [ha]
  cases s.activity with
  | none => rfl
  | some a =>
    dsimp only
    cases a.program with
    | nil => rfl
    | cons x rest => exact goOn_withReader _

theorem reader_proceed (s : Solo) : s.proceed.reader = s.reader := by
  have h : s.proceed = s.proceed.withReader s.reader := proceed_withReader (s := s) (r := s.reader)
  rw [h]
  rfl

/-! Input. -/

def extend (s : Solo) (q : List Piece) (closed : Bool) : Solo :=
  s.withReader (s.reader.extend q closed)

theorem proceed_extend : (s.extend q closed).proceed = s.proceed.extend q closed := by
  unfold extend
  rw [proceed_withReader, reader_proceed]

theorem hear_congr (h : r.resume .printer = s.reader.resume .printer) :
    (s.withReader r).hear = s.hear := by
  unfold Solo.hear withReader
  dsimp only
  rw [h]

theorem hear_extend (h : s.reader.source.closed = false) (q : List Piece) (closed : Bool) :
    (s.extend q closed).hear = s.hear.extend q closed ∨
      s.hear.front = s.front ∧ (s.hear.extend q closed).hear = (s.extend q closed).hear := by
  have hr := LineReader.resume_extend h .printer q closed
  have he : (s.extend q closed).reader = s.reader.extend q closed := rfl
  cases hres : (s.reader.resume .printer).result with
  | none =>
    have hs : s.hear = s.withReader (s.reader.resume .printer).reader := by
      simp only [Solo.hear, hres]
      rfl
    rw [hres] at hr
    rw [hs]
    exact .inr ⟨rfl, hear_congr (s := s.extend q closed) hr⟩
  | some result =>
    rw [hres] at hr
    dsimp only at hr
    left
    unfold Solo.hear
    dsimp only
    rw [he, hr, hres]
    cases result <;> rfl

theorem closed_step (s : Solo) : s.step.reader.source.closed = s.reader.source.closed := by
  unfold Solo.step
  split
  · split
    · rw [reader_proceed]
    · rfl
  · have hc := LineReader.closed_resume s.reader .printer
    unfold Solo.hear
    dsimp only
    split <;> exact hc
  · rfl
  · rw [reader_proceed]

theorem Follows.closed_eq (h : Follows s t) : t.reader.source.closed = s.reader.source.closed := by
  obtain ⟨n, rfl⟩ := h
  induction n with
  | zero => rfl
  | succ n ih => rw [Function.iterate_succ_apply', closed_step, ih]

theorem Meets.closed_eq (h : Meets s t) : t.reader.source.closed = s.reader.source.closed := by
  obtain ⟨u, hs, ht⟩ := h
  exact ht.closed_eq.symm.trans hs.closed_eq

theorem meets_extend (h : s.reader.source.closed = false) (q : List Piece) (closed : Bool) :
    Meets (s.extend q closed) (s.step.extend q closed) := by
  have hm : (s.extend q closed).front.mode = s.front.mode := rfl
  have hh : ((s.extend q closed).hosted || (s.extend q closed).activity.isSome) =
    (s.hosted || s.activity.isSome) := rfl
  have hstep (he : (s.extend q closed).step = s.step.extend q closed) :
      Meets (s.extend q closed) (s.step.extend q closed) := (Follows.next he.symm).meets
  cases hmode : s.front.mode with
  | taking =>
    apply hstep
    simp only [Solo.step, hm, hh, hmode]
    split
    · exact proceed_extend
    · rfl
  | leaving =>
    apply hstep
    simp only [Solo.step, hm, hmode]
    rfl
  | gone =>
    apply hstep
    simp only [Solo.step, hm, hmode]
    exact proceed_extend
  | asking =>
    have hs : s.step = s.hear := by simp only [Solo.step, hmode]
    have hse : (s.extend q closed).step = (s.extend q closed).hear := by
      simp only [Solo.step, hm, hmode]
    rcases hear_extend h q closed with he | ⟨hf, he⟩
    · exact hstep (by rw [hse, hs, he])
    · have hagain : (s.step.extend q closed).step = (s.hear.extend q closed).hear := by
        have hm' : (s.hear.extend q closed).front.mode = .asking :=
          (congrArg Front.mode hf).trans hmode
        rw [hs]
        simp only [Solo.step, hm']
      exact ⟨_, .next rfl, .next (by rw [hse, hagain, he])⟩

theorem Follows.meets_extend (h : Follows s t) (hs : s.reader.source.closed = false)
    (q : List Piece) (closed : Bool) : Meets (s.extend q closed) (t.extend q closed) := by
  obtain ⟨n, rfl⟩ := h
  induction n with
  | zero => exact .refl _
  | succ n ih =>
    have hc : (step^[n] s).reader.source.closed = false := (Follows.closed_eq ⟨n, rfl⟩).trans hs
    rw [Function.iterate_succ_apply']
    exact ih.trans (Solo.meets_extend hc q closed)

theorem Meets.extend (h : Meets s t) (hs : s.reader.source.closed = false) (q : List Piece)
    (closed : Bool) : Meets (s.extend q closed) (t.extend q closed) := by
  have ht := h.closed_eq.trans hs
  obtain ⟨u, hsu, htu⟩ := h
  exact (hsu.meets_extend hs q closed).trans (htu.meets_extend ht q closed).symm

/-! What comes from outside. -/

def act (s : Solo) : Move → Solo
  | .pass time => { s with now := time, timers := s.timers.filter (time < ·.deadline) }
  | .spawn program => { s with activity := some { program } }
  | .feed piece => { s with reader.source := s.reader.source.feed piece }
  | .close => { s with reader.source := s.reader.source.close }
  | .setSink sink => { s with front.display.sink := sink }
  | .release => { s with hosted := false }
  | _ => s

end Solo

def Move.isInput : Move → Bool
  | feed _ | close => true
  | _ => false

namespace Solo

/-- Input may come at any time before its end. Everything else comes when the solo is at rest. -/
inductive Run (s₀ : Solo) : List Move → Solo → Prop
  | start : Run s₀ [] s₀
  | follow {ms : List Move} {s t : Solo} (h : Run s₀ ms s) (hs : Follows s t) : Run s₀ ms t
  | act {ms : List Move} {s : Solo} {m : Move} (h : Run s₀ ms s)
      (hm : m.isInput = true ∧ s.reader.source.closed = false ∨ s.step = s) :
      Run s₀ (ms ++ [m]) (s.act m)

variable {s t u s₀ : Solo} {m : Move} {ms : List Move}

theorem act_input (hm : m.isInput = true) : ∃ q closed, ∀ s : Solo,
    s.reader.source.closed = false → s.act m = s.extend q closed := by
  have hfeed (p : Piece) (hp : ∀ src : Source, src.feed p = { src with pieces := src.pieces ++ [p] }) :
      ∃ q closed, ∀ s : Solo, s.reader.source.closed = false →
        s.act (.feed p) = s.extend q closed := by
    refine ⟨[p], false, fun s hs => ?_⟩
    simp only [Solo.act, hp, extend, withReader, LineReader.extend, hs]
  cases m with
  | feed p =>
    cases p with
    | fault cause => exact hfeed _ fun _ => rfl
    | bytes data =>
      cases data with
      | cons b data => exact hfeed _ fun _ => rfl
      | nil =>
        refine ⟨[], false, fun s hs => ?_⟩
        have he : (⟨s.reader.source.pieces ++ [], false⟩ : Source) = s.reader.source := by
          rw [List.append_nil, ← hs]
        unfold extend withReader LineReader.extend
        rw [he]
        rfl
  | close =>
    refine ⟨[], true, fun s _ => ?_⟩
    simp [Solo.act, Source.close, extend, withReader, LineReader.extend]
  | _ => cases hm

theorem Run.nil (h : Run s₀ [] s) : Follows s₀ s := by
  generalize hn : [] = ms at h
  induction h with
  | start => exact .refl _
  | follow _ hs ih => exact (ih hn).trans hs
  | act => simp at hn

theorem Run.concat (h : Run s₀ (ms ++ [m]) s) : ∃ t, Run s₀ ms t ∧
    (m.isInput = true ∧ t.reader.source.closed = false ∨ t.step = t) ∧ Follows (t.act m) s := by
  generalize hn : ms ++ [m] = ns at h
  induction h with
  | start => simp at hn
  | follow _ hs ih =>
    obtain ⟨t, ht, hm, hf⟩ := ih hn
    exact ⟨t, ht, hm, hf.trans hs⟩
  | act h hm =>
    obtain ⟨rfl, hlast⟩ := List.append_inj' hn rfl
    obtain rfl := List.singleton_inj.1 hlast
    exact ⟨_, h, hm, .refl _⟩

/-- Two runs of a solo with the same moves from outside come to the same in the end. -/
theorem Run.meets (h : Run s₀ ms s) : ∀ {t : Solo}, Run s₀ ms t → Meets s t := by
  induction h with
  | start => exact fun g => g.nil.meets
  | follow _ hs ih => exact fun g => hs.meets.symm.trans (ih g)
  | @act ms s m h hm ih =>
    intro t g
    obtain ⟨t', ht, hm', hf⟩ := g.concat
    refine .trans ?_ hf.meets
    have hmeet := ih ht
    -- Input finds the two at different points; anything else finds both at rest, and so alike.
    by_cases hin : m.isInput = true ∧ s.reader.source.closed = false
    · obtain ⟨q, closed, he⟩ := act_input hin.1
      rw [he s hin.2, he t' (hmeet.closed_eq.trans hin.2)]
      exact hmeet.extend hin.2 q closed
    · have hs := hm.resolve_left hin
      have ht : t'.step = t' := hm'.resolve_left fun hn => hin ⟨hn.1, hmeet.closed_eq.symm.trans hn.2⟩
      rw [hmeet.eq_of_fixed hs ht]
      exact .refl _

end Solo

end JobConsole
