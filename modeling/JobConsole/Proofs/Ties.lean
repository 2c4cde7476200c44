import JobConsole.Proofs.Delivery
import JobConsole.Proofs.Prompting

/-!
Ties: a watch or the ticker that finds the console terminated may have work of its own at the same
time, and either can come first. What is to hold whichever does is shown of attainable consoles.
-/

namespace JobConsole

inductive Stride
  | move (m : Move)
  | work (task : TaskId)

namespace Console

/-- A small step of a watch or the ticker that does not look at termination. The statements of a
call look for themselves. -/
def work (c : Console) (id : TaskId) : Console :=
  match id, c.supervision, c.ticker with
  | .ticker, some s, .calling request a => (c.continueCall s request a).1
  | _, _, _ => { (turn { c with terminated := false } id).1 with terminated := c.terminated }

/-- The consoles of all runs, ties decided either way. A task that has gone on with its work looks
for termination again before it comes to rest. -/
inductive Attainable : Console → Prop
  | new {settings : Settings} {jobs : List Job} {source : Source} {sink : Sink} {c : Console}
      (h : new? settings jobs source sink = some c) : Attainable c
  | act {c : Console} (h : Attainable c) (m : Move) (ha : c.allows m) : Attainable (c.act m)
  | work {c : Console} (h : Attainable c) {id : TaskId} (hi : id ∈ watchers) (hr : id ∈ c.ready)
      (ht : c.terminated = true) : Attainable (c.work id)

def stride (c : Console) : Stride → Console
  | .move m => c.act m
  | .work id => c.work id

def permits (c : Console) : Stride → Bool
  | .move m => c.allows m
  | .work id => id ∈ watchers && id ∈ c.ready && c.terminated

inductive Course (c₀ : Console) : List Stride → Console → Prop
  | start : Course c₀ [] c₀
  | next {xs : List Stride} {c : Console} (x : Stride) (h : Course c₀ xs c) (hx : c.permits x) :
      Course c₀ (xs ++ [x]) (c.stride x)

def follow (c : Console) (xs : List Stride) : Console :=
  xs.foldl stride c

def lawful (c : Console) : List Stride → Bool
  | [] => true
  | x :: xs => c.permits x && (c.stride x).lawful xs

variable {c₀ c d : Console} {id : TaskId} {xs : List Stride} {d₀ : Display}

theorem Reachable.attainable (h : c.Reachable) : c.Attainable := by
  obtain ⟨settings, jobs, source, sink, c₀, moves, h₀, hr⟩ := h
  exact hr.invariant (.new h₀) fun c m ha h => h.act m ha

theorem work_cases (c : Console) (id : TaskId) :
    (∃ s request a, id = .ticker ∧ c.supervision = some s ∧ c.ticker = .calling request a ∧
      c.work id = (c.continueCall s request a).1) ∨
      (∀ s request a, id = .ticker → c.supervision = some s → c.ticker ≠ .calling request a) ∧
      c.work id = { (turn { c with terminated := false } id).1 with terminated := c.terminated } := by
  unfold work
  split
  · rename_i s request a hs hk
    exact .inl ⟨s, request, a, rfl, hs, hk, rfl⟩
  · rename_i hn
    exact .inr ⟨hn, rfl⟩

/-! Work. -/

theorem not_printer_of_watchers (hi : id ∈ watchers) : id ≠ .printer := by
  rintro rfl
  simp [watchers] at hi

theorem beside_work (c : Console) (hi : id ∈ watchers) : Beside c (c.work id) := by
  rcases c.work_cases id with ⟨s, request, a, -, -, -, he⟩ | ⟨-, he⟩ <;> rw [he]
  · exact (callTurn_cases c s request a).beside
  · obtain ⟨hp, -, hd, hs, hcap, hclosed, hshut⟩ :=
      turn_beside { c with terminated := false } (not_printer_of_watchers hi)
    exact ⟨hp, rfl, hd, hs, hcap, hclosed, hshut⟩

theorem Mail.work (h : Mail d₀ c) (hi : id ∈ watchers) : Mail d₀ (c.work id) := by
  rcases c.work_cases id with ⟨s, request, a, -, -, -, he⟩ | ⟨-, he⟩ <;> rw [he]
  · exact h.callTurn (callTurn_cases c s request a)
  · have hc : Mail d₀ { c with terminated := false } := h
    have ht : Mail d₀ (turn { c with terminated := false } id).1 := by
      cases id with
      | printer => exact absurd rfl (not_printer_of_watchers hi)
      | signalWatch => exact hc.signalWatchTurn (signalWatchTurn_cases _)
      | keywordWatch => exact hc.keywordWatchTurn (keywordWatchTurn_cases _)
      | ticker => exact hc.tickerTurn (tickerTurn_cases _)
      | producer n => exact hc.producerTurn (producerTurn_cases _ n)
    exact ht

/-! Attainable consoles. -/

theorem Attainable.invariant {P : Console → Prop} (h : c.Attainable)
    (base : ∀ {settings jobs source sink c₀}, new? settings jobs source sink = some c₀ → P c₀)
    (keep : ∀ c m, c.Attainable → c.allows m → P c → P (c.act m))
    (work : ∀ c id, c.Attainable → id ∈ watchers → id ∈ c.ready → c.terminated = true → P c →
      P (c.work id)) : P c := by
  induction h with
  | new h => exact base h
  | act h m ha ih => exact keep _ m h ha ih
  | work h hi hr ht ih => exact work _ _ h hi hr ht ih

theorem Attainable.staged (h : c.Attainable) : Staged c := by
  refine h.invariant (fun h₀ => ?_) (fun c m _ _ hc => hc.act m)
    fun c id _ hi _ _ hc => hc.beside (beside_work c hi)
  obtain ⟨-, rfl⟩ := new?_eq_some.1 h₀
  exact .running nofun nofun rfl rfl

theorem Attainable.mail (h : c.Attainable) : ∃ d₀, Mail d₀ c := by
  apply h.invariant (P := fun c => ∃ d₀, Mail d₀ c)
  · exact fun h₀ => ⟨_, (@Run.start _).mail h₀⟩
  · rintro c m h - ⟨d₀, hc⟩
    exact ⟨d₀, hc.act h.staged m⟩
  · rintro c id - hi - - ⟨d₀, hc⟩
    exact ⟨d₀, hc.work hi⟩

theorem Staged.terminated_iff (h : Staged c) : c.terminated = true ↔ c.printer = .stopped := by
  cases h with
  | running hs _ _ ht => simp [hs, ht]
  | stopped hs _ ht => simp [hs, ht]
  | crashed hs _ ht => simp [hs, ht]

theorem act_terminated (h : Staged c) (ht : c.terminated = true) (m : Move) :
    (c.act m).terminated = true := by
  have hp := h.terminated_iff.1 ht
  exact (h.act m).terminated_iff.2 ((act_gone (.inl hp) m).trans hp)

theorem Attainable.sized (h : c.Attainable) : c.mailbox.capacity = c.settings.capacity := by
  apply h.invariant (P := fun c => c.mailbox.capacity = c.settings.capacity)
  · intro settings jobs source sink c₀ h₀
    obtain ⟨-, rfl⟩ := new?_eq_some.1 h₀
    rfl
  · intro c m _ _ hc
    rw [(c.act_sized m).1, (c.act_sized m).2, hc]
  · intro c id _ hi _ _ hc
    rw [(beside_work c hi).capacity, (beside_work c hi).settings, hc]

/-- Up to its termination an attainable console is a reachable one. -/
theorem Attainable.reachable (h : c.Attainable) (ht : c.terminated = false) : c.Reachable := by
  induction h with
  | @new settings jobs source sink c h₀ => exact ⟨settings, jobs, source, sink, c, [], h₀, .start⟩
  | @act c h m ha ih =>
    cases hc : c.terminated with
    | false => exact (ih hc).act ha
    | true =>
      rw [act_terminated h.staged hc m] at ht
      cases ht
  | @work c h id hi hr hc =>
    rw [(beside_work c hi).terminated, hc] at ht
    cases ht

/-! Courses. -/

theorem Course.eq_follow (h : Course c₀ xs c) : c = c₀.follow xs := by
  induction h with
  | start => rfl
  | next x _ _ ih =>
    rw [ih, follow, follow, List.foldl_append]
    rfl

theorem Course.append {ys : List Stride} (h : Course c₀ xs c) (hd : Course c ys d) :
    Course c₀ (xs ++ ys) d := by
  induction hd with
  | start => rwa [List.append_nil]
  | next x _ hx ih => rw [← List.append_assoc]; exact .next x ih hx

theorem Course.of_lawful {c : Console} :
    ∀ {xs : List Stride}, c.lawful xs → Course c xs (c.follow xs)
  | [], _ => .start
  | x :: xs, h => by
    simp only [lawful, Bool.and_eq_true] at h
    exact Course.append (.next x .start h.1) (Course.of_lawful h.2)

theorem Course.attainable (h : Course c₀ xs c) (h₀ : c₀.Attainable) : c.Attainable := by
  induction h with
  | start => exact h₀
  | @next _ c x _ hx ih =>
    cases x with
    | move m => exact ih.act m hx
    | work id =>
      simp only [permits, Bool.and_eq_true, decide_eq_true_eq] at hx
      exact ih.work hx.1.1 hx.1.2 hx.2

theorem Course.mail {settings : Settings} {jobs : List Job} {source : Source} {sink : Sink}
    (h₀ : new? settings jobs source sink = some c₀) (h : Course c₀ xs c) : Mail { sink } c := by
  induction h with
  | start => exact (@Run.start c₀).mail h₀
  | @next _ c x h hx ih =>
    cases x with
    | move m => exact ih.act (h.attainable (.new h₀)).staged m
    | work id =>
      simp only [permits, Bool.and_eq_true, decide_eq_true_eq] at hx
      exact ih.work hx.1.1

theorem Course.asking {settings : Settings} {jobs : List Job} {source : Source} {sink : Sink}
    (h₀ : new? settings jobs source sink = some c₀) (h : Course c₀ xs c) : Asking { sink } c := by
  induction h with
  | start =>
    obtain ⟨-, rfl⟩ := new?_eq_some.1 h₀
    exact asking_of_ne nofun
  | @next _ c x h hx ih =>
    cases x with
    | move m => exact ih.act (h.mail h₀) m
    | work id =>
      -- The printer has stopped by the time that anybody goes on in spite of the termination.
      simp only [permits, Bool.and_eq_true, decide_eq_true_eq] at hx
      have hp := (h.attainable (.new h₀)).staged.terminated_iff.1 hx.2
      refine asking_of_ne fun slot => ?_
      rw [stride, (beside_work c hx.1.1).printer, hp]
      exact nofun

theorem Run.course {moves : List Move} (h : Run c₀ moves c) : Course c₀ (moves.map .move) c := by
  induction h with
  | start => exact .start
  | next m _ ha ih =>
    rw [List.map_append]
    exact .next (.move m) ih ha

end Console

end JobConsole
